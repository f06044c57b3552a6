import Vyakarana.Fault
import Vyakarana.Sound.Articulation

/-!
Tables of articulations, and the nearest sound.

`nearestMap` sends each sound of one class to the sound of another class whose
articulation is least distant, the first such sound in traditional order.
-/

namespace Vyakarana

-- Sounds with their images.
abbrev SoundMap := List (Char × Char)

namespace SoundMap

def image? (images : SoundMap) (sound : Char) : Option Char := images.lookup sound

end SoundMap

structure FeatureTable where
  features? : Char → Option Articulation

namespace FeatureTable

def standard : FeatureTable := ⟨Articulation.standard?⟩

-- The table with one entry replaced, or removed.
def set (T : FeatureTable) (sound : Char) (features : Option Articulation) : FeatureTable :=
  ⟨fun c => if c = sound then features else T.features? c⟩

-- The table in which a sound is pronounced as `model` is in the standard table.
def setLike (T : FeatureTable) (sound model : Char) : FeatureTable :=
  T.set sound (Articulation.standard? model)

def features (T : FeatureTable) (sound : Text) : Except Fault Articulation :=
  match sound with
  | [c] => match T.features? c with
    | some a => .ok a
    | none => .error (.noFeatures sound)
  | _ => .error (.noFeatures sound)

-- The first of the candidates with the least key.
def firstLeast (key : Articulation → Int) :
    List (Char × Articulation) → Option (Char × Articulation)
  | [] => none
  | y :: rest =>
    match firstLeast key rest with
    | none => some y
    | some best => if key best.2 < key y.2 then some best else some y

-- Features are looked up in this order: the sound itself, then the candidates.
def nearest? (T : FeatureTable) (ys : SoundClass) (x : Char) : Except Fault (Option Char) := do
  let a ← T.features [x]
  let candidates ← ys.sounds.mapM fun y => (T.features [y]).map (y, ·)
  return (firstLeast (fun b => b.distance a) candidates).map (·.1)

-- A sound is left out only if there is no candidate at all.
def nearestMap (T : FeatureTable) (xs ys : SoundClass) : Except Fault SoundMap := do
  let images ← xs.sounds.mapM fun x => (T.nearest? ys x).map fun y => y.map (x, ·)
  return images.filterMap id

-- The target expression is read first.
def mapSounds (T : FeatureTable) (xs ys : Text) : Except Fault SoundMap :=
  match SoundClass.decode ys with
  | .error e => .error (.expression e)
  | .ok targets =>
    match SoundClass.decode xs with
    | .error e => .error (.expression e)
    | .ok sources => T.nearestMap sources targets

end FeatureTable

end Vyakarana
