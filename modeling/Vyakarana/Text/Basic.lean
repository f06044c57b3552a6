/-!
Text, the material that the rules of grammar work on.

A text is the list of its characters, since every rule speaks of first, last and
neighbouring sounds and each sound is written with one character. The module holds the
few operations that the list library lacks: substring search and replacement.
-/

namespace Vyakarana

abbrev Text := List Char

namespace Text

-- The empty text occurs in every text.
def occursIn (part : Text) : Text → Bool
  | [] => part.isEmpty
  | c :: rest => part.isPrefixOf (c :: rest) || occursIn part rest

-- The last sound but one.
def penultimate? (t : Text) : Option Char := t.dropLast.getLast?

-- Replacement proceeds from left to right and never looks into what it has written.
-- `skip` counts the characters of a replaced occurrence that are still to be dropped.
def replaceFrom (needle sub : Text) : Nat → Text → Text
  | _, [] => []
  | skip + 1, _ :: rest => replaceFrom needle sub skip rest
  | 0, c :: rest =>
    if needle.isPrefixOf (c :: rest) then sub ++ replaceFrom needle sub (needle.length - 1) rest
    else c :: replaceFrom needle sub 0 rest

-- An empty needle stands before every character and at the end.
def replaceAll (needle sub text : Text) : Text :=
  if needle.isEmpty then (text.flatMap fun c => sub ++ [c]) ++ sub
  else replaceFrom needle sub 0 text

-- Only the leftmost occurrence is replaced.
def replaceFirst (needle sub : Text) : Text → Text
  | [] => if needle.isEmpty then sub else []
  | c :: rest =>
    if needle.isPrefixOf (c :: rest) then sub ++ (c :: rest).drop needle.length
    else c :: replaceFirst needle sub rest

-- What stands before the first `mark` and what follows it.
def splitAtFirst? (mark : Char) (text : Text) : Option (Text × Text) :=
  if text.contains mark then
    some (text.takeWhile (· != mark), (text.dropWhile (· != mark)).drop 1)
  else none

-- A carriage return, alone or before a line feed, ends a line as a line feed does.
def unifyLineEnds : Text → Text
  | '\r' :: '\n' :: rest => '\n' :: unifyLineEnds rest
  | c :: rest => (if c == '\r' then '\n' else c) :: unifyLineEnds rest
  | [] => []

end Text

end Vyakarana
