import Vyakarana.Sound.Class

/-!
Vowels and consonants, and the grades of a vowel.

Guna and vrddhi are texts, since the grades of f and x end in a semivowel. The grades are
partial: `guna?` is defined on ik, `vrddhi?` on all vowels.
-/

namespace Vyakarana.Sound

def isAc (c : Char) : Bool := SoundClass.ac.contains c

def isHal (c : Char) : Bool := SoundClass.hal.contains c

def isHrasva (c : Char) : Bool := (lengthen? c).isSome

def isDirgha (c : Char) : Bool := "AIUFXeEoO".toList.contains c

-- Two consonants at the end.
def isSamyoganta (t : Text) : Bool :=
  t.getLast?.any isHal && t.penultimate?.any isHal

def guna? : Char → Option Text
  | 'i' | 'I' => some "e".toList
  | 'u' | 'U' => some "o".toList
  | 'f' | 'F' => some "ar".toList
  | 'x' | 'X' => some "al".toList
  | _ => none

def vrddhi? : Char → Option Text
  | 'a' | 'A' => some "A".toList
  | 'i' | 'I' | 'e' | 'E' => some "E".toList
  | 'u' | 'U' | 'o' | 'O' => some "O".toList
  | 'f' | 'F' => some "Ar".toList
  | 'x' | 'X' => some "Al".toList
  | _ => none

-- A diphthong is shortened to its closing quality.
def hrasva? : Char → Option Char
  | 'a' | 'A' => some 'a'
  | 'i' | 'I' | 'e' | 'E' => some 'i'
  | 'u' | 'U' | 'o' | 'O' => some 'u'
  | 'f' | 'F' => some 'f'
  | 'x' | 'X' => some 'x'
  | _ => none

def dirgha? (c : Char) : Option Char :=
  (lengthen? c).or (if isDirgha c then some c else none)

-- The glides that simple vowels turn into before another vowel.
def semivowel? : Char → Option Char
  | 'i' | 'I' => some 'y'
  | 'u' | 'U' => some 'v'
  | 'f' | 'F' => some 'r'
  | 'x' | 'X' => some 'l'
  | _ => none

-- What a diphthong turns into before a vowel.
def ayadi? : Char → Option Text
  | 'e' => some "ay".toList
  | 'E' => some "Ay".toList
  | 'o' => some "av".toList
  | 'O' => some "Av".toList
  | _ => none

end Vyakarana.Sound
