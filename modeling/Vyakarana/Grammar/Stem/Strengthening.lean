import Vyakarana.Grammar.Stem.Preparation

/-!
Guna and vrddhi of the stem (7.2.115 to 7.3.86, 7.1.91).

A suffix strengthens the final vowel of the root before it, or a short vowel before a
final consonant; the markers Y and R ask for vrddhi, the markers k and N forbid both.
-/

namespace Vyakarana

-- The guna of a vowel, the vowel itself where it has none.
def gunaText (c : Char) : Text := (Sound.guna? c).getD [c]

def vrddhiText (c : Char) : Text := (Sound.vrddhi? c).getD [c]

-- 7.2.115 and 7.2.116: what vrddhi makes of a root, if it applies.
def Term.vrddhiChange? (root : Term) : Option (Rule × (Term → Term)) :=
  match root.antya? with
  | none => none
  | some final =>
    if Sound.isAc final then some ("7.2.115", (·.setAntya (vrddhiText final)))
    else if root.upadha? == some 'a' then some ("7.2.116", (·.setUpadha ['A']))
    else none

-- 7.3.84 and 7.3.86: what guna makes of a root, if it applies.
def Term.gunaChange? (root : Term) : Option (Rule × (Term → Term)) :=
  match root.antya? with
  | none => none
  | some final =>
    if SoundClass.ik.contains final then some ("7.3.84", (·.setAntya (gunaText final)))
    else
      match root.upadha? with
      | none => none
      | some vowel =>
        if SoundClass.ik.contains vowel && Sound.isHrasva vowel && Sound.isHal final then
          some ("7.3.86", (·.setUpadha (gunaText vowel)))
        else none

-- What the suffix makes of the root.
def Term.strengthening? (root : Term) (suffix : View) : Option (Rule × (Term → Term)) :=
  if !suffix.hasTagIn [.sarvadhatuka, .ardhadhatuka] then none
  else if root.isTaught "YimidA~".toList && suffix.hasTag (.it .S) then
    some ("7.3.82", (·.setUpadha ['e']))
  -- 1.1.5
  else if suffix.isKnit then none
  else if suffix.last.hasTagIn [.it .Y, .it .R] then root.vrddhiChange?.or root.gunaChange?
  else root.gunaChange?

namespace Derivation

-- 7.1.91: in the first person the R of Ral is optional.
def relaxRal (d : Derivation) : Derivation :=
  match d.lastTagged? .tin with
  | none => d
  | some i =>
    if d.has i fun t => t.isTaught "Ral".toList && t.hasTag (.purusha .uttama) then
      (d.optionally "7.1.91" (·.update i (·.removeTag (.it .R)))).2
    else d

def strengthenAt (d : Derivation) (i : Nat) : Derivation :=
  match d.terms[i]?, d.suffix? i with
  | some root, some suffix =>
    if !root.hasTag .dhatu || root.hasTag .gunaExempt then d
    else
      match root.strengthening? suffix with
      | some (rule, change) => d.alter rule i change
      | none => d
  | _, _ => d

def strengthenStem (d : Derivation) : Derivation := d.relaxRal.forEach strengthenAt

end Derivation

end Vyakarana
