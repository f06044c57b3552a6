import Vyakarana.Term

/-!
The next unit of a row of terms.

An augment is no unit of its own: a view that starts at an augment runs on to the first
term that is none, and answers questions for the whole stretch as if it were one term.
-/

namespace Vyakarana

-- A stretch of terms, the index of its first one, and the terms that follow it.
structure View where
  start : Nat
  first : Term
  more : List Term
  following : List Term
deriving DecidableEq, Repr

namespace View

def units (v : View) : List Term := v.first :: v.more

def last (v : View) : Term := v.more.getLastD v.first

def size (v : View) : Nat := v.units.length

-- The index of the last term.
def stop (v : View) : Nat := v.start + v.more.length

-- The terms up to the first one that is no augment, and those after it; nothing if there
-- are only augments.
def upToUnit? : List Term → Option (List Term × List Term)
  | [] => none
  | t :: rest =>
    if t.hasTag .agama then (upToUnit? rest).map fun (unit, after) => (t :: unit, after)
    else some ([t], rest)

-- The view from the head of a row that begins at index `start`. Augments that no unit
-- follows are viewed one by one.
def ofRow? (start : Nat) : List Term → Option View
  | [] => none
  | t :: rest =>
    if t.hasTag .agama then
      match upToUnit? rest with
      | some (unit, after) => some ⟨start, t, unit, after⟩
      | none => some ⟨start, t, [], rest⟩
    else some ⟨start, t, [], rest⟩

def at? (terms : List Term) (start : Int) : Option View :=
  start.toNat?.bind fun n => ofRow? n (terms.drop n)

def term? (v : View) (i : Int) : Option Term := i.toNat?.bind (v.units[·]?)

def text (v : View) : Text := v.units.flatMap (·.text)

def isEmpty (v : View) : Bool := v.units.all (·.isEmpty)

def endsWord (v : View) : Bool := v.following.isEmpty

-- Nothing to be heard before the end of the word.
def isPadanta (v : View) : Bool := v.isEmpty && v.endsWord

def adi? (v : View) : Option Char := v.units.findSome? (·.adi?)

def antya? (v : View) : Option Char := v.units.reverse.findSome? (·.antya?)

def hasAdi (v : View) (p : Pattern) : Bool := p.accepts v.adi?

def hasAntya (v : View) (p : Pattern) : Bool := p.accepts v.antya?

-- The unit is taught as its first term is.
def isTaught (v : View) (u : Text) : Bool := v.first.isTaught u

def isTaughtIn (v : View) (us : List Text) : Bool := v.first.isTaughtIn us

def hasTag (v : View) (tag : Tag) : Bool := v.units.any (·.hasTag tag)

def hasLakshana (v : View) (u : Text) : Bool := v.units.any (·.hasLakshana u)

def hasLakshanaIn (v : View) (us : List Text) : Bool := v.units.any (·.hasLakshanaIn us)

def hasAllTags (v : View) (tags : List Tag) : Bool := tags.all v.hasTag

def hasTagIn (v : View) (tags : List Tag) : Bool := tags.any v.hasTag

-- A suffix with the marker k or N blocks guna and vrddhi.
def isKnit (v : View) : Bool := v.hasTagIn [.it .k, .it .N]

end View

end Vyakarana
