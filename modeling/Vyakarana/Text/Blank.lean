import Vyakarana.Text.Basic

/-!
Blank characters.

Two rules for blanks are in use, and they differ on the four information separators U+001C
to U+001F: `isSpace` is the white space of the Unicode standard, which may surround a
numeral, and `isBlank`, which separates words, takes in the separators. Main statement:
whatever core takes for white space is blank here.
-/

namespace Vyakarana.Text

-- The blanks beyond ASCII: next line, the no-break spaces and the typographic spaces.
def isWideBlank (c : Char) : Bool :=
  let n := c.toNat
  n == 0x85 || n == 0xA0 || n == 0x1680 || (0x2000 ≤ n && n ≤ 0x200A) ||
    n == 0x2028 || n == 0x2029 || n == 0x202F || n == 0x205F || n == 0x3000

-- The Unicode property White_Space.
def isSpace (c : Char) : Bool :=
  (9 ≤ c.toNat && c.toNat ≤ 13) || c.toNat == 32 || isWideBlank c

-- White space and the information separators.
def isBlank (c : Char) : Bool := isSpace c || (0x1C ≤ c.toNat && c.toNat ≤ 0x1F)

theorem isBlank_of_isWhitespace (c : Char) (h : c.isWhitespace) : isBlank c := by
  simp only [Char.isWhitespace, Bool.or_eq_true, decide_eq_true_eq] at h
  rcases h with ((rfl | rfl) | rfl) | rfl <;> decide

def trimBy (blank : Char → Bool) (t : Text) : Text :=
  ((t.dropWhile blank).reverse.dropWhile blank).reverse

def trim : Text → Text := trimBy isBlank

-- `word` is the part of the current word that has been read, in reverse.
def wordsFrom : Text → Text → List Text
  | word, [] => if word.isEmpty then [] else [word.reverse]
  | word, c :: rest =>
    if isBlank c then
      if word.isEmpty then wordsFrom [] rest else word.reverse :: wordsFrom [] rest
    else wordsFrom (c :: word) rest

-- The maximal stretches without blanks.
def words (t : Text) : List Text := wordsFrom [] t

end Vyakarana.Text
