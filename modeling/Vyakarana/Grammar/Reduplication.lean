import Vyakarana.Derivation.Search
import Vyakarana.Grammar.SuffixClass

/-!
Reduplication (6.1.1 to 6.1.12, 7.4.58 to 7.4.97).

In the perfect the last root is doubled. `reduplicate` puts the copy, the abhyasa, before
the root; `reduceCopy` then gives the copy its usual shape, one consonant and one short
vowel, with a few substitutes for each.
-/

namespace Vyakarana

-- The sound at `k` and all the vowels after it.
def keepOneConsonant (k : Nat) (t : Text) : Text :=
  (t.drop k).take 1 ++ (t.drop (k + 1)).filter Sound.isAc

-- The stops of the throat, and h.
def kuAndH : Text := "ku~ h".toList

def kuAndHSounds : SoundClass := .ofText "kKgGNh".toList

namespace Derivation

-- Whether the last ending stands for lit.
def isPerfect (d : Derivation) : Bool :=
  match d.lastTagged? .tin with
  | some i => d.has i (·.hasLakshana "li~w".toList)
  | none => false

-- 6.1.8, 6.1.4 and 6.1.5
def reduplicate (d : Derivation) : Derivation :=
  match d.lastTagged? .dhatu with
  | none => d
  | some i =>
    match d.terms[i]? with
    | none => d
    | some root =>
      if !d.isPerfect || root.hasTag .abhyasta then d
      else
        let copy : Term := { Term.ofText root.text with gana := root.gana }
        let d := (d.insertTerm i copy).record "6.1.8"
        let d := d.alter "6.1.4" i (·.addTag .abhyasa)
        ((d.update i (·.addTag .abhyasta)).update ((i + 1 : Nat) : Int)
          (·.addTag .abhyasta)).record "6.1.5"

-- 7.4.61 and 7.4.60: of the consonants one remains, the first, or the second if a hard stop
-- follows a sibilant.
def dropConsonants (i : Nat) (d : Derivation) : Derivation :=
  match d.terms[i]? with
  | none => d
  | some copy =>
    if copy.hasAdi (.oneOf .shar) && SoundClass.khay.containsSome (copy.sound? 1) then
      d.alter "7.4.61" i fun t => t.setText (keepOneConsonant 1 t.text)
    else if copy.adi?.any Sound.isHal && (copy.text.drop 1).any Sound.isHal then
      d.alter "7.4.60" i fun t => t.setText (keepOneConsonant 0 t.text)
    else d

-- 7.4.62: the nearest palatal stands for a stop of the throat, and for h.
def palatalize (i : Nat) (d : Derivation) : Outcome :=
  match (d.terms[i]?).bind (·.adi?) with
  | none => .done d
  | some first =>
    if !kuAndHSounds.contains first then .done d
    else
      match d.table.mapSounds kuAndH "cu~".toList with
      | .error fault => .failed fault d
      | .ok palatals =>
        match palatals.image? first with
        | some sub => .done (d.alter "7.4.62" i (·.setAdi [sub]))
        | none => .done d

-- 7.4.59: a long vowel is shortened wherever it stands.
def shortenVowel (i : Nat) (d : Derivation) : Derivation :=
  match ((d.terms[i]?).bind fun t => t.text.find? Sound.isAc) with
  | none => d
  | some vowel =>
    match Sound.hrasva? vowel with
    | none => d
    | some short =>
      if short = vowel then d else d.alter "7.4.59" i (·.replaceText [vowel] [short])

-- 7.4.66
def replaceF (i : Nat) (d : Derivation) : Derivation :=
  if d.has i (·.text.contains 'f') then d.alter "7.4.66" i (·.replaceText ['f'] ['a']) else d

-- 7.4.70 and 7.4.73: an initial a is long, and the root BU has a.
def fitPerfectVowel (i : Nat) (d : Derivation) : Derivation :=
  let d :=
    if d.has i (·.adi? == some 'a') then d.alter "7.4.70" i (·.setAdi ['A']) else d
  match d.nextAfter? i (·.hasTag .dhatu) with
  | none => d
  | some root =>
    if d.has root fun t => t.isTaught "BU".toList && (t.gana == some 1 || t.gana == some 2) then
      d.alter "7.4.73" i (·.setAntya ['a'])
    else d

def reduceCopy (d : Derivation) : Outcome :=
  match d.firstTagged? .abhyasa with
  | none => .done d
  | some i =>
    ((d.dropConsonants i).palatalize i).map fun reduced =>
      let reduced := (reduced.shortenVowel i).replaceF i
      if d.isPerfect then reduced.fitPerfectVowel i else reduced

end Derivation

end Vyakarana
