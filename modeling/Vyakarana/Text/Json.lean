import Vyakarana.Text.Quoted

/-!
Indented JSON.

Every item of a list or object stands on a line of its own, two places further in; empty
ones are written without a break. Characters beyond ASCII stand as they are. The functions
take items that have been written already, for the depth at which they stand.
-/

namespace Vyakarana.Text

def jsonChar (c : Char) : Text :=
  if c == doubleQuote || c == '\\' then ['\\', c]
  else if c == '\n' then "\\n".toList
  else if c == '\r' then "\\r".toList
  else if c == '\t' then "\\t".toList
  else if c.toNat == 8 then "\\b".toList
  else if c.toNat == 12 then "\\f".toList
  else if c.toNat < 32 then '\\' :: 'u' :: hexDigits 4 c.toNat
  else [c]

def jsonText (t : Text) : Text := doubleQuote :: t.flatMap jsonChar ++ [doubleQuote]

def indentation (depth : Nat) : Text := List.replicate (2 * depth) ' '

def jsonBlock (first last : Char) (depth : Nat) : List Text → Text
  | [] => [first, last]
  | items =>
    let lines := items.map fun item => indentation (depth + 1) ++ item
    first :: '\n' :: ",\n".toList.intercalate lines ++ '\n' :: indentation depth ++ [last]

def jsonList (depth : Nat) (items : List Text) : Text := jsonBlock '[' ']' depth items

def jsonObject (depth : Nat) (fields : List (String × Text)) : Text :=
  jsonBlock (Char.ofNat 123) (Char.ofNat 125) depth
    (fields.map fun (name, value) => jsonText name.toList ++ ": ".toList ++ value)

example : jsonList 0 ["1".toList, "2".toList] = "[\n  1,\n  2\n]".toList := by decide

end Vyakarana.Text
