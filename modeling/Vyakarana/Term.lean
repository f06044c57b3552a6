import Vyakarana.Sound.Vowel
import Vyakarana.Tag
import Vyakarana.Term.Pattern

/-!
Terms: the roots, suffixes and augments that a derivation joins.

A term has its current text, the form in which it was taught (its upadesha), its tags, and
the upadeshas that it has stood for (its lakshanas). The module has the questions that
rules ask of a term and the changes that they make to it.
-/

namespace Vyakarana

structure Term where
  text : Text
  upadesha : Option Text
  tags : List Tag
  -- the class and the place of a root in the list of roots
  gana : Option Int
  number : Option Int
  lakshanas : List Text
deriving DecidableEq, Repr

namespace Term

def ofText (s : Text) : Term := ⟨s, none, [], none, none, []⟩

def ofUpadesha (s : Text) : Term := ⟨s, some s, [], none, none, []⟩

def ofRoot (s : Text) (gana : Int) (number : Option Int) : Term :=
  ⟨s, some s, [.dhatu], some gana, number, []⟩

def ofAgama (s : Text) : Term := ⟨s, some s, [.agama], none, none, []⟩

-- First, last and last but one sound.
def adi? (t : Term) : Option Char := t.text.head?

def antya? (t : Term) : Option Char := t.text.getLast?

def upadha? (t : Term) : Option Char := t.text.penultimate?

def sound? (t : Term) (i : Int) : Option Char := i.toNat?.bind (t.text[·]?)

def isEmpty (t : Term) : Bool := t.text.isEmpty

def hasAdi (t : Term) (p : Pattern) : Bool := p.accepts t.adi?

def hasAntya (t : Term) (p : Pattern) : Bool := p.accepts t.antya?

def hasUpadha (t : Term) (p : Pattern) : Bool := p.accepts t.upadha?

def isTaught (t : Term) (u : Text) : Bool := t.upadesha == some u

def isTaughtIn (t : Term) (us : List Text) : Bool := t.upadesha.any us.contains

def hasLakshana (t : Term) (u : Text) : Bool := t.lakshanas.contains u

def hasLakshanaIn (t : Term) (us : List Text) : Bool := us.any t.lakshanas.contains

def hasText (t : Term) (s : Text) : Bool := t.text == s

def hasTextIn (t : Term) (ss : List Text) : Bool := ss.contains t.text

def startsWithAny (t : Term) (starts : List Text) : Bool := starts.any (·.isPrefixOf t.text)

def hasTag (t : Term) (tag : Tag) : Bool := t.tags.contains tag

def hasTagIn (t : Term) (tags : List Tag) : Bool := tags.any t.hasTag

def hasAllTags (t : Term) (tags : List Tag) : Bool := tags.all t.hasTag

-- Exactly one vowel.
def isEkaAc (t : Term) : Bool := t.text.countP Sound.isAc == 1

-- More than one vowel.
def isAnekaAc (t : Term) : Bool := 1 < t.text.countP Sound.isAc

def isSamyoganta (t : Term) : Bool := Sound.isSamyoganta t.text

def addTag (tag : Tag) (t : Term) : Term := { t with tags := Tag.insert tag t.tags }

def removeTag (tag : Tag) (t : Term) : Term := { t with tags := Tag.erase tag t.tags }

def addTags (tags : List Tag) (t : Term) : Term := tags.foldl (fun t tag => t.addTag tag) t

def removeTags (tags : List Tag) (t : Term) : Term := tags.foldl (fun t tag => t.removeTag tag) t

def setText (s : Text) (t : Term) : Term := { t with text := s }

-- The first sound gives way to `s`; on the empty text `s` is all there is.
def setAdi (s : Text) (t : Term) : Term := t.setText (s ++ t.text.drop 1)

def setAntya (s : Text) (t : Term) : Term :=
  if t.text.isEmpty then t else t.setText (t.text.dropLast ++ s)

def setUpadha (s : Text) (t : Term) : Term :=
  match t.upadha?, t.antya? with
  | some _, some last => t.setText (t.text.dropLast.dropLast ++ s ++ [last])
  | _, _ => t

-- A new taught form, which the former one is remembered for.
def setUpadesha (s : Text) (t : Term) : Term :=
  { t with text := s, upadesha := some s, lakshanas := t.lakshanas ++ t.upadesha.toList }

def replaceText (needle sub : Text) (t : Term) : Term :=
  t.setText (Text.replaceAll needle sub t.text)

-- Substitutes the first sound, if there is one.
def substituteAdi (s : Text) (t : Term) : Term := if t.text.isEmpty then t else t.setAdi s

-- The text before the last vowel, that vowel, and the text after it.
def splitAtLastVowel? : Text → Option (Text × Char × Text)
  | [] => none
  | c :: rest =>
    match splitAtLastVowel? rest with
    | some (before, vowel, after) => some (c :: before, vowel, after)
    | none => if Sound.isAc c then some ([], c, rest) else none

-- 1.1.47: an augment with the marker m stands right after the last vowel.
def insertAfterVowel (s : Text) (t : Term) : Term :=
  match splitAtLastVowel? t.text with
  | some (before, vowel, after) => t.setText (before ++ [vowel] ++ s ++ after)
  | none => t

-- 1.1.64: the stretch from the last vowel on is called ti.
def substituteTi (s : Text) (t : Term) : Term :=
  match splitAtLastVowel? t.text with
  | some (before, _, _) => t.setText (before ++ s)
  | none => t

-- Elision leaves the term in place, without text.
def elide (t : Term) : Term := t.setText []

end Term

end Vyakarana
