import Vyakarana.Grammar.Stem.Preparation

/-!
The strengthened stem meets its suffix (6.4.77 to 6.4.121, 7.2.81, 7.3.101).

In the perfect a short root with a loses its copy and has e; a final i or u of a root gives
way before a vowel; an ending that begins with A changes after a, and the final a of a stem
is lengthened before some consonants.
-/

namespace Vyakarana

-- One a between two single consonants.
def isShortWithA : Text → Bool
  | [x, y, z] => Sound.isHal x && y == 'a' && Sound.isHal z
  | _ => false

-- A final vowel after two consonants.
def followsCluster (t : Text) : Bool := 3 ≤ t.length && Sound.isSamyoganta t.dropLast

namespace Derivation

-- 6.4.120 and 6.4.121. The first sound of the root must not be replaced in its copy.
def contractPerfect (d : Derivation) : Derivation :=
  match d.firstTagged? .abhyasa with
  | none => d
  | some i =>
    match d.terms[i]?, d.terms[i + 1]?, d.suffix? (i + 1) with
    | some copy, some root, some suffix =>
      if !suffix.hasLakshana "li~w".toList || !isShortWithA root.text ||
          copy.adi? != root.adi? then d
      else
        let contracted := (d.update ((i + 1 : Nat) : Int) (·.setUpadha ['e'])).update i (·.elide)
        if suffix.isKnit then contracted.record "6.4.120"
        else if suffix.isTaught "iw".toList && suffix.last.isTaught "Tal".toList then
          contracted.record "6.4.121"
        else d
    | _, _, _ => d

-- 6.4.82 and 6.4.77
def softenFinal (d : Derivation) (i : Nat) : Derivation :=
  match d.terms[i]? with
  | none => d
  | some root =>
    if !root.hasTag .dhatu || !(d.suffix? i).any (·.adi?.any Sound.isAc) then d
    else
      let severalVowels := root.isAnekaAc || d.has ((i : Int) - 1) (·.hasTag .abhyasa)
      if "iI".toList.any (root.antya? == some ·) then
        if severalVowels && !followsCluster root.text then d.alter "6.4.82" i (·.setAntya ['y'])
        else d.alter "6.4.77" i (·.setAntya "iy".toList)
      else if "uU".toList.any (root.antya? == some ·) then
        d.alter "6.4.77" i (·.setAntya "uv".toList)
      else d

-- Whether the last sound before the term at `i` is a, terms without text left aside.
def followsA (d : Derivation) (i : Nat) : Bool :=
  match d.lastBefore? i (!·.isEmpty) with
  | some before => d.has before (·.antya? == some 'a')
  | none => false

-- 6.4.105
def dropHi (d : Derivation) : Derivation :=
  match d.lastTagged? .tin with
  | none => d
  | some i =>
    if d.has i (·.hasText "hi".toList) && d.followsA i then d.alter "6.4.105" i (·.elide) else d

-- 7.2.81
def replaceEndingA (d : Derivation) : Derivation :=
  match d.lastTagged? .tin with
  | none => d
  | some i =>
    if d.has i (fun t => t.hasAllTags [.sarvadhatuka, .it .N] && t.adi? == some 'A') &&
        d.followsA i then
      d.alter "7.2.81" i (·.substituteAdi "iy".toList)
    else d

-- 7.3.101
def lengthenFinalA (d : Derivation) (i : Nat) : Derivation :=
  if d.has i fun t => t.hasTagIn [.dhatu, .vikarana] && t.antya? == some 'a' then
    if (d.suffix? i).any fun suffix =>
        suffix.hasTag .sarvadhatuka && suffix.hasAdi (.oneOf .yany) then
      d.alter "7.3.101" i (·.setAntya ['A'])
    else d
  else d

def joinStem (d : Derivation) : Derivation :=
  ((d.contractPerfect.forEach softenFinal).dropHi.replaceEndingA).forEach lengthenFinalA

end Derivation

end Vyakarana
