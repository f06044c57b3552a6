import Vyakarana.Text.Blank
import Vyakarana.Text.Digit

/-!
Whole numbers in decimal notation.

A lenient numeral has digits of any script, a single underscore between digits where one
likes, an optional sign and white space around it. A strict numeral has ASCII digits, and
a fraction of zeros may follow them. In both zeros may come before the other digits.
Numerals of more than 4300 digits are not read.
-/

namespace Vyakarana.Text

def digitLimit : Nat := 4300

-- The value of digits and single underscores between them; `value` and `length` are of the
-- digits read so far, and `waiting` tells whether an underscore waits for its digit.
def digitsFrom (value length : Nat) (waiting : Bool) : Text → Option (Nat × Nat)
  | [] => if waiting then none else some (value, length)
  | c :: rest =>
    match digitValue? c with
    | some digit => digitsFrom (10 * value + digit) (length + 1) false rest
    | none => if c == '_' && !waiting then digitsFrom value length true rest else none

-- An underscore neither begins nor ends the digits.
def natOfDigits? (t : Text) : Option Nat :=
  match digitsFrom 0 0 true t with
  | some (value, length) => if length ≤ digitLimit then some value else none
  | none => none

def lenientInt? (t : Text) : Option Int :=
  match trimBy isSpace t with
  | '-' :: digits => (natOfDigits? digits).map fun n => -(n : Int)
  | '+' :: digits | digits => (natOfDigits? digits).map fun n => (n : Int)

-- Zeros at the beginning say nothing, nor do underscores among them. The last of them stays if
-- a point or nothing follows. Only a digit begins a numeral.
def withoutLeadingZeros? : Text → Option Text
  | [] => none
  | first :: rest =>
    if first == '0' then
      let isFiller (c : Char) : Bool := c == '0' || c == '_'
      let last := (rest.takeWhile isFiller).getLastD first
      match rest.dropWhile isFiller with
      | [] => some [last]
      | c :: more =>
        if c == '.' then some (last :: c :: more)
        else if c.isDigit then some (c :: more)
        else none
    else if first.isDigit then some (first :: rest)
    else none

-- A point and zeros after it say nothing.
def withoutZeroFraction (t : Text) : Text :=
  match splitAtFirst? '.' t with
  | some (whole, fraction) => if fraction.all (· == '0') then whole else t
  | none => t

-- Single underscores inside a numeral say nothing.
def withoutUnderscores (t : Text) : Text :=
  if t.head? == some '_' || t.getLast? == some '_' || occursIn "__".toList t then t
  else t.filter (· != '_')

inductive NumeralError
  | malformed | tooLong
deriving DecidableEq, Repr

-- A strict numeral without its sign, of at most `limit` digits. The digits are counted before
-- the text after them is looked at.
def strictNat (limit : Nat) (t : Text) : Except NumeralError Nat :=
  match (withoutLeadingZeros? t).map fun t => withoutUnderscores (withoutZeroFraction t) with
  | none => .error .malformed
  | some digits =>
    if limit < (digits.takeWhile Char.isDigit).length then .error .tooLong
    else if !digits.all Char.isDigit then .error .malformed
    else .ok (digits.foldl (fun value c => 10 * value + (c.toNat - 48)) 0)

-- A minus sign takes the place of a digit.
def strictInt (t : Text) : Except NumeralError Int :=
  match trimBy isSpace t with
  | '-' :: digits => (strictNat (digitLimit - 1) digits).map fun n => -(n : Int)
  | '+' :: digits | digits => (strictNat digitLimit digits).map fun n => (n : Int)

example : lenientInt? " 1_000".toList = some 1000 := by decide
example : lenientInt? "1__0".toList = none := by decide
example : strictInt "04.0".toList = .ok 4 := rfl
example : strictInt "-01".toList = .ok (-1) := rfl
example : strictInt "-_1".toList = .error .malformed := rfl
example : strictInt "+1_0".toList = .ok 10 := rfl

end Vyakarana.Text
