import Vyakarana.Sound.Class

/-!
Homorganic sounds.

The vowels of one quality and the stops of one place are savarna to each other; any other
sound is savarna only to itself.
-/

namespace Vyakarana.Sound

def savarnaGroups : List Text :=
  ["aA".toList, "iI".toList, "uU".toList, "fFxX".toList, "kKgGN".toList, "cCjJY".toList,
   "wWqQR".toList, "tTdDn".toList, "pPbBm".toList]

def savarna (c : Char) : SoundClass :=
  match savarnaGroups.find? (·.contains c) with
  | some group => .ofText group
  | none => .ofText [c]

-- A stretch of a group names the whole group, and the empty text the first one.
def savarnaOf (t : Text) : SoundClass :=
  match savarnaGroups.find? t.occursIn with
  | some group => .ofText group
  | none => .ofText t

-- The stops of one place, named for their first sound.
def ku : SoundClass := savarna 'k'
def cu : SoundClass := savarna 'c'
def wu : SoundClass := savarna 'w'
def tu : SoundClass := savarna 't'

theorem savarna_self (c : Char) : c ∈ (savarna c).sounds := by
  unfold savarna
  split
  · rename_i group h
    have := List.find?_some h
    rw [SoundClass.mem_ofText]
    simpa using this
  · rw [SoundClass.mem_ofText]
    simp

end Vyakarana.Sound
