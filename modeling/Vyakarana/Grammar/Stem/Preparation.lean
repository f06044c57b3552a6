import Vyakarana.Derivation.Search
import Vyakarana.Grammar.Markers

/-!
The stem before its vowels are strengthened (6.4.48 to 6.4.88, 7.1.3).

The ending J becomes ant, the past tenses get their augment, the root BU gets a v, and
the final a of a root and the suffix Ric are lost before an ardhadhatuka suffix.
-/

namespace Vyakarana.Derivation

-- What follows the term at `i`.
def suffix? (d : Derivation) (i : Nat) : Option View := d.view? ((i + 1 : Nat) : Int)

def lastEnding? (d : Derivation) : Option Term := (d.lastTagged? .tin).bind (d.terms[·]?)

-- The last root that is taught as `u`.
def lastRoot? (d : Derivation) (u : Text) : Option Nat :=
  d.findLast? fun t => t.hasTag .dhatu && t.isTaught u

-- 7.1.3
def replaceJ (d : Derivation) : Derivation :=
  match d.lastTagged? .tin with
  | none => d
  | some i =>
    if d.has i (·.adi? == some 'J') then d.alter "7.1.3" i (·.substituteAdi "ant".toList) else d

-- 6.4.71 and 6.4.72: the augment is long before a vowel.
def augmentPast (d : Derivation) : Outcome :=
  if d.lastEnding?.any (·.hasLakshanaIn ["la~N".toList, "lu~N".toList, "lf~N".toList]) then
    match d.firstTagged? .dhatu with
    | none => .done d
    | some i =>
      if d.has i (·.adi?.any Sound.isAc) then d.augmentBefore "6.4.72" i "Aw".toList
      else d.augmentBefore "6.4.71" i "aw".toList
  else .done d

-- 6.4.88: BU gets a v before a vowel in the perfect and the aorist, and then no guna.
def augmentBhu (d : Derivation) : Outcome :=
  match d.lastRoot? "BU".toList with
  | none => .done d
  | some i =>
    match d.suffix? i with
    | none => .done d
    | some suffix =>
      if suffix.adi?.any Sound.isAc && suffix.hasLakshanaIn ["li~w".toList, "lu~N".toList] then
        (d.augmentAfter "6.4.88" i "vu~k".toList).map fun d => d.update i (·.addTag .gunaExempt)
      else .done d

-- 6.4.48
def dropFinalA (d : Derivation) (i : Nat) : Derivation :=
  if d.has i fun t => t.hasTag .dhatu && !t.hasTag .abhyasa && t.antya? == some 'a' then
    if (d.suffix? i).any (·.hasTag .ardhadhatuka) then d.alter "6.4.48" i (·.setAntya []) else d
  else d

-- 6.4.55 and 6.4.51: before Am the suffix Ric is ay; elsewhere it is lost, except before iw.
def dropRic (d : Derivation) : Derivation :=
  match d.lastRoot? "Ric".toList with
  | none => d
  | some i =>
    match d.suffix? i with
    | none => d
    | some suffix =>
      if !suffix.hasTag .ardhadhatuka || suffix.isTaught "iw".toList then d
      else if suffix.isTaught "Am".toList then d.alter "6.4.55" i (·.setText "ay".toList)
      else d.alter "6.4.51" i (·.elide)

def prepareStem (d : Derivation) : Outcome :=
  ((d.replaceJ.augmentPast).andThen augmentBhu).map fun d => (d.forEach dropFinalA).dropRic

end Vyakarana.Derivation
