import Vyakarana.Text.Basic

/-!
The sounds of Sanskrit, one character each, and the fourteen sutras that list them.

The alphabet fixes the traditional order; the sutras fix which stretches of sounds can be
named by a first sound and a closing marker.
-/

namespace Vyakarana.Sound

-- The traditional order: vowels, nasalization and breath, stops by place, semivowels, sibilants, h.
def alphabet : Text := "aAiIuUfFxXeEoOMHkKgGNcCjJYwWqQRtTdDnpPbBmyrlvSzsh".toList

-- A character outside the alphabet ranks after every sound.
def rank (c : Char) : Nat := alphabet.idxOf c

-- Traditional order first, code points among characters outside the alphabet.
def precedes (a b : Char) : Bool :=
  rank a < rank b || (rank a == rank b && a.toNat < b.toNat)

-- One sutra: the sounds it lists and the marker that closes it.
structure Sutra where
  sounds : Text
  marker : Char
deriving DecidableEq, Repr

def sutras : List Sutra :=
  [⟨"aiu".toList, 'R'⟩, ⟨"fx".toList, 'k'⟩, ⟨"eo".toList, 'N'⟩, ⟨"EO".toList, 'c'⟩,
   ⟨"hyvr".toList, 'w'⟩, ⟨"l".toList, 'R'⟩, ⟨"YmNRn".toList, 'm'⟩, ⟨"JB".toList, 'Y'⟩,
   ⟨"GQD".toList, 'z'⟩, ⟨"jbgqd".toList, 'S'⟩, ⟨"KPCWTcwt".toList, 'v'⟩, ⟨"kp".toList, 'y'⟩,
   ⟨"Szs".toList, 'r'⟩, ⟨"h".toList, 'l'⟩]

-- The long partner of a short simple vowel.
def lengthen? : Char → Option Char
  | 'a' => some 'A'
  | 'i' => some 'I'
  | 'u' => some 'U'
  | 'f' => some 'F'
  | 'x' => some 'X'
  | _ => none

end Vyakarana.Sound
