import Vyakarana.Derivation.Sweep

/-!
Vowels in contact (6.1.66 to 6.1.101).

Each rule is a sweep of its own over the running text. Every change either shortens the
text or uses up one of the sounds that the rule is about; `changeBound`, the number of sounds
plus one for each f and x, counts what can be used up.
-/

namespace Vyakarana

namespace Sound

def isA (c : Char) : Bool := c == 'a' || c == 'A'

-- The vowels whose grades end in a semivowel.
def isVocalicLiquid (c : Char) : Bool := "fFxX".toList.contains c

end Sound

namespace Site

-- The vowel that follows, as it is after a, in the grade that `grade` gives it.
def mergeGrade (s : Site) (grade : Char → Option Text) : Derivation :=
  s.merge ((s.next?.bind grade).getD [])

end Site

namespace SoundRule

-- A rule for two neighbouring sounds, wherever the terms end.
def forPair (rule : Rule) (applies : Char → Char → Bool)
    (change : Site → Char → Char → Derivation) : SoundRule where
  applies s := s.here?.any fun x => s.next?.any (applies x)
  act s :=
    match s.here?, s.next? with
    | some x, some y => ((change s x y).record rule, true)
    | _, _ => (s.derivation, false)

-- 6.1.90: the augment Aw and a vowel make one vowel, the vrddhi of the second.
def augmentVrddhi : SoundRule :=
  .recorded "6.1.90"
    (fun s => s.next?.any Sound.isAc && s.owner?.any (·.isTaught "Aw".toList) && s.isBoundary)
    (·.mergeGrade Sound.vrddhi?)

-- 6.1.66: y and v are lost before a consonant other than y, but not in a root.
def dropYv : SoundRule :=
  .recorded "6.1.66"
    (fun s => s.here?.any (fun x => x == 'y' || x == 'v') &&
      SoundClass.val.containsSome s.next? && s.owner?.any (!·.hasTag .dhatu))
    (·.replace [])

-- 6.1.97: between two terms, a is lost before a, e and o.
def absorbA : SoundRule :=
  .recorded "6.1.97"
    (fun s => s.here? == some 'a' && s.next?.any "aeo".toList.contains && s.isBoundary)
    (·.replace [])

-- 6.1.78: a diphthong is resolved before a vowel.
def resolveDiphthong : SoundRule :=
  .forPair "6.1.78" (fun x y => SoundClass.ec.contains x && Sound.isAc y)
    fun s x _ => s.replace ((Sound.ayadi? x).getD [])

-- 6.1.101: two savarna vowels make one long vowel.
def mergeSavarna : SoundRule :=
  .forPair "6.1.101"
    (fun x y => SoundClass.ak.contains x && SoundClass.ak.contains y &&
      (Sound.savarna x).contains y)
    fun s x _ => s.merge (Sound.dirgha? x).toList

-- 6.1.77: a vowel of ik turns into its semivowel before a vowel.
def toSemivowel : SoundRule :=
  .forPair "6.1.77" (fun x y => SoundClass.ik.contains x && Sound.isAc y)
    fun s x _ => s.replace (Sound.semivowel? x).toList

-- 6.1.88 and 6.1.87: a and a diphthong make its vrddhi, a and a vowel of ik its guna.
def mergeAfterA : SoundRule where
  applies s :=
    s.here?.any Sound.isA &&
      s.next?.any fun y => SoundClass.ik.contains y || SoundClass.ec.contains y
  act s :=
    if SoundClass.ec.containsSome s.next? then
      ((s.mergeGrade Sound.vrddhi?).record "6.1.88", true)
    else ((s.mergeGrade Sound.guna?).record "6.1.87", true)

-- The vowel rules in their order.
def vowelRules : List SoundRule :=
  [augmentVrddhi, dropYv, absorbA, resolveDiphthong, mergeSavarna, toSemivowel, mergeAfterA]

end SoundRule

namespace Derivation

def changeBound (d : Derivation) : Nat := d.text.length + d.text.countP Sound.isVocalicLiquid

-- One vowel rule at rest, and the number of its changes.
def vowelSweep? (r : SoundRule) (d : Derivation) : Option (Derivation × Nat) :=
  r.sweep? d.changeBound d

def joinVowels (d : Derivation) : Outcome :=
  SoundRule.vowelRules.foldl (fun o r => o.andThen fun d => d.sweep r d.changeBound) (.done d)

end Derivation

end Vyakarana
