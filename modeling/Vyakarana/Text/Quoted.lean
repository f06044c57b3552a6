import Vyakarana.Text.Printable

/-!
Quoted text, as messages show the text they are about.

The quote is single unless the text holds a single quote and no double one. The quote in
use, the backslash and the three common control characters are escaped by a backslash;
any other unprintable character is written by its code point in hexadecimal digits, two,
four or eight of them.
-/

namespace Vyakarana.Text

def hexDigit (n : Nat) : Char := "0123456789abcdef".toList.getD n '0'

-- The last `width` hexadecimal digits of `n`.
def hexDigits : Nat → Nat → Text
  | 0, _ => []
  | width + 1, n => hexDigits width (n / 16) ++ [hexDigit (n % 16)]

def codePoint (c : Char) : Text :=
  let n := c.toNat
  if n < 0x100 then '\\' :: 'x' :: hexDigits 2 n
  else if n < 0x10000 then '\\' :: 'u' :: hexDigits 4 n
  else '\\' :: 'U' :: hexDigits 8 n

def singleQuote : Char := Char.ofNat 39
def doubleQuote : Char := Char.ofNat 34

def quoteFor (t : Text) : Char :=
  if t.contains singleQuote && !t.contains doubleQuote then doubleQuote else singleQuote

def quotedChar (quote c : Char) : Text :=
  if c == quote || c == '\\' then ['\\', c]
  else if c == '\n' then "\\n".toList
  else if c == '\t' then "\\t".toList
  else if c == '\r' then "\\r".toList
  else if isPrintable c then [c]
  else codePoint c

def quoted (t : Text) : Text :=
  let quote := quoteFor t
  quote :: t.flatMap (quotedChar quote) ++ [quote]

example : quoted "it's".toList = "\"it's\"".toList := by decide
example : quoted "a\\b".toList = "'a\\\\b'".toList := by decide

end Vyakarana.Text
