import Vyakarana.Text.Basic

/-!
Upper and lower case, as far as ASCII letters are concerned.

The two maps agree with the full case maps on every character whose image has an ASCII
letter in it; other characters stay as they are. That is enough to compare a text, in
either case, with a word in ASCII.
-/

namespace Vyakarana.Text

-- The Kelvin sign is the one character beyond ASCII with an ASCII letter as its lower case.
def lowerChar (c : Char) : Char := if c.toNat == 0x212A then 'k' else c.toLower

def lower (t : Text) : Text := t.map lowerChar

-- The characters beyond ASCII that have ASCII letters as their upper case.
def wideUpper : List (Nat × Text) :=
  [(0xDF, "SS".toList), (0x131, "I".toList), (0x17F, "S".toList), (0xFB00, "FF".toList),
   (0xFB01, "FI".toList), (0xFB02, "FL".toList), (0xFB03, "FFI".toList),
   (0xFB04, "FFL".toList), (0xFB05, "ST".toList), (0xFB06, "ST".toList)]

def upperChar (c : Char) : Text := (wideUpper.lookup c.toNat).getD [c.toUpper]

def upper (t : Text) : Text := t.flatMap upperChar

end Vyakarana.Text
