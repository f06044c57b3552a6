import Vyakarana.Sound.FeatureTable

/-!
Tables of sounds that remember the maps they were asked for.

A map is kept under its two expressions once it has been found, and a failure is not kept. The
rules of grammar ask the table of articulations itself, which gives the same answers.
-/

namespace Vyakarana

structure SoundTable where
  features : FeatureTable
  -- the maps found so far, the latest first
  maps : List ((Text × Text) × SoundMap)

namespace SoundTable

def ofFeatures (T : FeatureTable) : SoundTable := ⟨T, []⟩

def standard : SoundTable := ofFeatures .standard

-- The answer to one call, and the table that is left.
def mapSounds (S : SoundTable) (xs ys : Text) : Except Fault SoundMap × SoundTable :=
  match S.maps.lookup (xs, ys) with
  | some images => (.ok images, S)
  | none =>
    match S.features.mapSounds xs ys with
    | .ok images => (.ok images, { S with maps := ((xs, ys), images) :: S.maps })
    | .error fault => (.error fault, S)

-- The table that some calls leave, one after the other.
def after (S : SoundTable) (calls : List (Text × Text)) : SoundTable :=
  calls.foldl (fun S call => (S.mapSounds call.1 call.2).2) S

end SoundTable

end Vyakarana
