import Vyakarana.Derivation

/-!
Where in a row of terms a certain kind of term stands.

The searches are exact for every start: `nextAfter?` finds the least later index,
`lastBefore?` the greatest earlier one. `findNext` also takes positions below zero, which
count back from the end of the row.
-/

namespace Vyakarana

-- The greatest index with the property.
def lastIndex? (f : Term → Bool) : List Term → Option Nat
  | [] => none
  | t :: rest =>
    match lastIndex? f rest with
    | some i => some (i + 1)
    | none => if f t then some 0 else none

namespace Derivation

def findFirst? (d : Derivation) (f : Term → Bool) : Option Nat := d.terms.findIdx? f

def findLast? (d : Derivation) (f : Term → Bool) : Option Nat := lastIndex? f d.terms

def firstTagged? (d : Derivation) (tag : Tag) : Option Nat := d.findFirst? (·.hasTag tag)

def lastTagged? (d : Derivation) (tag : Tag) : Option Nat := d.findLast? (·.hasTag tag)

def nextAfter? (d : Derivation) (i : Nat) (f : Term → Bool) : Option Nat :=
  ((d.terms.drop (i + 1)).findIdx? f).map (· + (i + 1))

def lastBefore? (d : Derivation) (i : Nat) (f : Term → Bool) : Option Nat :=
  lastIndex? f (d.terms.take i)

def findPrev? (d : Derivation) (start : Int) (f : Term → Bool) : Option Nat :=
  d.lastBefore? start.toNat f

-- A search that starts below zero first runs through the end of the row, with the
-- positions that count back from it, and must not start before its first term.
def findNext (d : Derivation) (start : Int) (f : Term → Bool) : Except Fault (Option Int) :=
  let size : Int := d.terms.length
  if -1 ≤ start then
    .ok (((d.terms.drop (start + 1).toNat).findIdx? f).map fun i => (i : Int) + (start + 1))
  else if start + 1 < -size then .error .outOfRange
  else
    match (d.terms.drop (size + start + 1).toNat).findIdx? f with
    | some i => .ok (some ((i : Int) + (start + 1)))
    | none => .ok ((d.terms.findIdx? f).map fun i => (i : Int))

end Derivation

end Vyakarana
