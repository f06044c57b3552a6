import Vyakarana.Sound.Savarna
import Vyakarana.Text.Quoted

/-!
The compact way to write a set of sounds.

An expression is a sequence of words. A word that ends in `u~`, or is one simple vowel,
stands for the savarna group of its first sound; any other single character stands for
itself; any other word is a pratyahara: a first sound and a closing marker, standing for
all sounds of the sutras from that sound to that marker. The marker R closes two sutras,
and `R2` asks for the second closing.
-/

namespace Vyakarana

-- Why an expression stands for no set of sounds. `word` is the first word that fails.
inductive ClassError
  | emptyExpression (expr : Text)
  | unknownMarker (word : Text)
  | noSounds (word : Text)
  | afterMarker (word : Text) (first marker : Char)
deriving DecidableEq, Repr

namespace ClassError

def subject : ClassError → Text
  | .emptyExpression t | .unknownMarker t | .noSounds t | .afterMarker t _ _ => t

def reason : ClassError → Text
  | .emptyExpression _ => "empty expression".toList
  | .unknownMarker _ => "unknown closing marker".toList
  | .noSounds _ => "yields no sounds".toList
  | .afterMarker _ first marker =>
    Text.quoted [first] ++ " comes after its marker ".toList ++ Text.quoted [marker]

def message (e : ClassError) : Text :=
  "Could not parse sound expression ".toList ++ Text.quoted e.subject ++ ": ".toList ++ e.reason

end ClassError

namespace Sound

-- The sutras from the first one that lists `first`, that one cut to begin with the sound.
def sutrasFrom (first : Char) : List Sutra :=
  match sutras.dropWhile (fun s => !s.sounds.contains first) with
  | [] => []
  | s :: rest => ⟨s.sounds.dropWhile (· != first), s.marker⟩ :: rest

-- The sutras up to the one that `marker` closes after `skipped` others.
def upToMarker? (marker : Char) : Nat → List Sutra → Option (List Sutra)
  | _, [] => none
  | skipped, s :: rest =>
    if s.marker = marker then
      match skipped with
      | 0 => some [s]
      | skipped + 1 => (upToMarker? marker skipped rest).map (s :: ·)
    else (upToMarker? marker skipped rest).map (s :: ·)

-- The sutras list short vowels only; the long ones are meant as well.
def withLong (t : Text) : Text := t.flatMap fun c => c :: (lengthen? c).toList

def pratyahara (word : Text) : Except ClassError Text :=
  let second := "R2".toList.isSuffixOf word
  match word.head?, (if second then some 'R' else word.getLast?) with
  | some first, some marker =>
    if !sutras.any (·.marker == marker) then .error (.unknownMarker word)
    else
      match sutrasFrom first with
      | [] => .error (.noSounds word)
      | listed =>
        match upToMarker? marker (if second then 1 else 0) listed with
        | some closed => .ok (withLong (closed.flatMap (·.sounds)))
        | none => .error (.afterMarker word first marker)
  | _, _ => .error (.noSounds word)

def wordSounds (word : Text) : Except ClassError Text :=
  match word with
  | [] => .error (.noSounds [])
  | c :: rest =>
    if "u~".toList.isSuffixOf word || (rest.isEmpty && SoundClass.ak.contains c) then
      .ok (savarna c).sounds
    else if rest.isEmpty then .ok [c]
    else pratyahara word

end Sound

namespace SoundClass

-- The union of the classes of the words.
def decode (expr : Text) : Except ClassError SoundClass :=
  match Text.words expr with
  | [] => .error (.emptyExpression expr)
  | words => (words.mapM Sound.wordSounds).map fun parts => ofText parts.flatten

example : decode "ac".toList = .ok ac := rfl
example : decode "hal".toList = .ok hal := rfl
example : decode "yaY".toList = .ok yany := rfl
example : decode "tu~".toList = .ok Sound.tu := rfl

end SoundClass

end Vyakarana
