import Vyakarana.Derivation.Search
import Vyakarana.Grammar.Markers

/-!
The augment iw of ardhadhatuka suffixes (7.2.8 to 7.2.78).

A suffix that begins with a consonant other than y takes the augment after the last root,
except after the roots with one vowel that are taught with the low accent. In the perfect
only the eight roots of 7.2.13 refuse it; the ending Tal has rules of its own, some of which
leave a choice.
-/

namespace Vyakarana

-- 7.2.10: roots with one vowel that are taught with the low accent.
def Term.isAnit (root : Term) : Bool := root.hasTag .anudatta && root.isEkaAc

-- The roots of 7.2.13.
def kradi : List Text :=
  ["kf".toList, "sf".toList, "Bf".toList, "vf".toList, "stu".toList, "dru".toList,
   "sru".toList, "Sru".toList]

namespace Derivation

-- 7.2.61, 7.2.63 and 7.2.66: before Tal, after a root without the augment that ends in a vowel.
def talTakesItAfterVowel (root : Term) (d : Derivation) : Bool × Derivation :=
  if root.isTaught "f\\".toList then (true, d.record "7.2.66")
  else if root.antya? == some 'f' then (false, d.record "7.2.61")
  else
    match d.consult "7.2.63" with
    | (true, d) => (true, d)
    | (false, d) => (false, (d.decline "7.2.63").record "7.2.61")

-- An optional rule that keeps the augment away.
def talRefusesIt (rule : Rule) (d : Derivation) : Bool × Derivation :=
  match d.consult rule with
  | (true, d) => (false, d.record rule)
  | (false, d) => (true, d.decline rule)

-- Whether an ending of the perfect takes the augment. `tal` tells the ending Tal.
def perfectTakesIt (root : Term) (tal : Bool) (d : Derivation) : Bool × Derivation :=
  if root.hasTextIn kradi then (false, d.record "7.2.13")
  else if !tal then (true, d)
  else if root.isAnit && root.antya?.any Sound.isAc then d.talTakesItAfterVowel root
  else if root.isAnit && root.text.contains 'a' then d.talRefusesIt "7.2.62"
  else if root.hasTextIn ["sfj".toList, "dfS".toList] then d.talRefusesIt "7.2.65"
  else (true, d)

def takesIt (root : Term) (suffix : View) (d : Derivation) : Bool × Derivation :=
  if suffix.hasLakshana "li~w".toList then
    d.perfectTakesIt root (suffix.last.isTaught "Tal".toList)
  else if root.isAnit then (false, d.record "7.2.10")
  else (true, d)

-- 7.2.35
def addIt (d : Derivation) : Outcome :=
  match d.lastTagged? .dhatu with
  | none => .done d
  | some i =>
    match d.terms[i]?, d.view? ((i + 1 : Nat) : Int) with
    | some root, some suffix =>
      if suffix.first.hasTag .agama || !suffix.hasTag .ardhadhatuka ||
          !suffix.hasAdi (.oneOf .val) then .done d
      else
        match d.takesIt root suffix with
        | (true, d) => d.augmentAfter "7.2.35" i "iw".toList
        | (false, d) => .done d
    | _, _ => .done d

end Derivation

end Vyakarana
