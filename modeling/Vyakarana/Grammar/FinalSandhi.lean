import Vyakarana.Derivation.Search
import Vyakarana.Derivation.Sweep

/-!
The last three chapters of rules (8.2.23 to 8.4.58): consonants in contact, and the end of
the word.

Each rule sees what the earlier ones have done and runs once. The substitutes are the
nearest sounds of the table in use, and a rule that needs them fails if the table lacks a
sound. Where a substitute may itself be replaced, it only ever moves on to nearer sounds,
so the number of targets bounds the changes at one place.
-/

namespace Vyakarana

namespace SoundClass

-- The vowels but a, the semivowels, h, and the stops of the throat.
def inKu : SoundClass := ofText "iIuUfFxXeEoOhyvrlkKgGN".toList

-- The sounds that the two rules of assimilation replace: s and the dentals.
def stu : SoundClass := ofText "tTdDns".toList

end SoundClass

namespace Sound

-- The nasal of the place of a stop.
def nasalOf? (c : Char) : Option Char := (savarna c).sounds.find? SoundClass.nasals.contains

end Sound

namespace SoundRule

-- 8.2.30: a palatal turns into a stop of the throat, at the end and before the sounds of jhal.
def cuToKu (nearest : SoundMap) : SoundRule :=
  .recorded "8.2.30"
    (fun s => s.here?.any Sound.cu.contains && s.next?.all SoundClass.jhal.contains)
    fun s => s.replace (s.here?.bind nearest.image?).toList

-- 8.3.24
def toAnusvara : SoundRule :=
  .recorded "8.3.24"
    (fun s => s.here?.any "mn".toList.contains && SoundClass.jhal.containsSome s.next?)
    (·.replace ['M'])

-- 8.3.59: the s of a suffix.
def retroflexS : SoundRule :=
  .recorded "8.3.59"
    (fun s => s.here? == some 's' && SoundClass.inKu.containsSome s.prev? &&
      s.owner?.any (·.hasTag .pratyaya))
    (·.replace ['z'])

-- 8.4.40 and 8.4.41: beside a sound of `group`, s and the dentals go over to the group.
def assimilate (rule : Rule) (group : SoundClass) (blocked : Char → Char → Bool)
    (nearest : SoundMap) : SoundRule where
  applies s :=
    match s.here?, s.next? with
    | some x, some y =>
      !blocked x y &&
        ((SoundClass.stu.contains x && group.contains y) ||
          (group.contains x && SoundClass.stu.contains y))
    | _, _ => false
  act s :=
    match s.here?, s.next? with
    | some x, some y =>
      match nearest.image? x with
      | some sub => ((s.replace [sub]).record rule, true)
      | none => ((s.replaceNext (nearest.image? y).toList).record rule, true)
    | _, _ => (s.derivation, false)

-- 8.4.53 and 8.4.55: a non-nasal stop, a sibilant or h before a sound of `following`.
def toNearest (rule : Rule) (following : SoundClass) (nearest : SoundMap) : SoundRule :=
  .recorded rule
    (fun s => SoundClass.jhal.containsSome s.here? && following.containsSome s.next? &&
      s.here?.bind nearest.image? != s.here?)
    fun s => s.replace (s.here?.bind nearest.image?).toList

-- 8.4.58: the anusvara turns into the nasal of the stop that follows.
def anusvaraToNasal : SoundRule :=
  .recorded "8.4.58"
    (fun s => s.here? == some 'M' && SoundClass.jhay.containsSome s.next?)
    fun s => s.replace (s.next?.bind Sound.nasalOf?).toList

end SoundRule

namespace Derivation

-- The last term with text.
def lastHeard? (d : Derivation) : Option Nat := d.findLast? (!·.isEmpty)

-- Goes on with the nearest sounds of `ys` for those of `xs`.
def withNearest (xs ys : Text) (next : SoundMap → Derivation → Outcome)
    (d : Derivation) : Outcome :=
  match d.table.mapSounds xs ys with
  | .ok nearest => next nearest d
  | .error fault => .failed fault d

-- A sweep that changes each sound at most `targets + 1` times.
def sweepSounds (r : SoundRule) (targets : Nat) (d : Derivation) : Outcome :=
  d.sweep r (d.text.length * (targets + 1))

-- 8.2.23
def dropFinalOfCluster (d : Derivation) : Derivation :=
  match d.lastHeard? with
  | some i => if Sound.isSamyoganta d.text then d.alter "8.2.23" i (·.setAntya []) else d
  | none => d

-- 8.2.66 and 8.3.15: a final s turns into r, and a final r into the visarga.
def replaceFinal (rule : Rule) (final sub : Char) (d : Derivation) : Derivation :=
  match d.lastHeard? with
  | some i => if d.has i (·.antya? == some final) then d.alter rule i (·.setAntya [sub]) else d
  | none => d

-- 8.2.77: before a consonant, the short vowel of a root in r or v is lengthened.
def lengthenBeforeRv (d : Derivation) (i : Nat) : Derivation :=
  match d.terms[i]? with
  | none => d
  | some root =>
    if !root.hasTag .dhatu || !"rv".toList.any (root.antya? == some ·) then d
    else
      match root.upadha? with
      | none => d
      | some vowel =>
        if !SoundClass.ik.contains vowel || !Sound.isHrasva vowel then d
        else
          match d.nextAfter? i (!·.isEmpty) with
          | none => d
          | some next =>
            if d.has next (·.adi?.any Sound.isHal) then
              d.alter "8.2.77" i (·.setUpadha (Sound.dirgha? vowel).toList)
            else d

-- 8.4.54: the first sound of a copy.
def deaspirateCopy (d : Derivation) : Outcome :=
  match d.firstTagged? .abhyasa with
  | none => .done d
  | some i =>
    match (d.terms[i]?).bind (·.adi?) with
    | none => .done d
    | some first =>
      if !SoundClass.jhal.contains first then .done d
      else
        d.withNearest "Jal".toList "jaS car".toList fun nearest d =>
          match nearest.image? first with
          | none => .done d
          | some sub =>
            .done (if sub = first then d else d.alter "8.4.54" i (·.substituteAdi [sub]))

-- 8.4.56: the last sound of the word, optionally.
def devoiceFinal (d : Derivation) : Outcome :=
  match d.lastHeard? with
  | none => .done d
  | some i =>
    match (d.terms[i]?).bind (·.antya?) with
    | none => .done d
    | some final =>
      if !SoundClass.jhal.contains final then .done d
      else
        d.withNearest "Jal".toList "car".toList fun nearest d =>
          match nearest.image? final with
          | none => .done d
          | some sub =>
            .done (if sub = final then d
              else (d.optionally "8.4.56" (·.update i (·.setAntya [sub]))).2)

-- 8.4.40, with 8.4.44: not after S.
def assimilateToPalatals (d : Derivation) : Outcome :=
  d.withNearest "s tu~".toList "S cu~".toList fun nearest =>
    sweepSounds (.assimilate "8.4.40" (.ofText "cCjJYS".toList) (fun x _ => x == 'S') nearest) 6

-- 8.4.41, with 8.4.43: not between a dental and z.
def assimilateToRetroflexes (d : Derivation) : Outcome :=
  d.withNearest "s tu~".toList "z wu~".toList fun nearest =>
    sweepSounds (.assimilate "8.4.41" (.ofText "wWqQRz".toList)
      (fun x y => y == 'z' && Sound.tu.contains x) nearest) 6

def joinConsonants (d : Derivation) : Outcome :=
  (d.dropFinalOfCluster.withNearest "cu~".toList "ku~".toList fun nearest =>
    sweepSounds (.cuToKu nearest) 5)
  |>.map (fun d =>
    ((d.replaceFinal "8.2.66" 's' 'r').forEach lengthenBeforeRv).replaceFinal "8.3.15" 'r' 'H')
  |>.andThen (sweepSounds .toAnusvara 1)
  |>.andThen (sweepSounds .retroflexS 1)
  |>.andThen assimilateToPalatals
  |>.andThen assimilateToRetroflexes
  |>.andThen (withNearest "Jal".toList "jaS".toList fun nearest =>
    sweepSounds (.toNearest "8.4.53" .jhash nearest) 5)
  |>.andThen deaspirateCopy
  |>.andThen (withNearest "Jal".toList "car".toList fun nearest =>
    sweepSounds (.toNearest "8.4.55" .khar nearest) 8)
  |>.andThen devoiceFinal
  |>.andThen (sweepSounds .anusvaraToNasal 1)

end Derivation

end Vyakarana
