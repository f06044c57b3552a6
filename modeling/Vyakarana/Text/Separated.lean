import Vyakarana.Text.Quoted

/-!
Tab-separated records.

A field that begins with a double quote runs to the next single one and may hold tabs and
line ends; a doubled quote in it stands for one. What follows the closing quote belongs to
the field as it is. Elsewhere a quote is an ordinary character. A record ends at a line end
of any kind, or where the text ends; a line without characters is a record without fields.
-/

namespace Vyakarana.Text

inductive RecordState
  -- before a record; tells whether the last character was a carriage return
  | outside (afterReturn : Bool)
  -- at the beginning of a field
  | fresh
  | plain
  | quoted
  -- after a quote that may close the field
  | closing
deriving DecidableEq, Repr

def isLineEnd (c : Char) : Bool := c == '\n' || c == '\r'

-- What has been read: whole records, fields of the current record, and characters of its
-- current field, each with the last one first.
structure RecordReader where
  state : RecordState
  records : List (List Text)
  fields : List Text
  field : Text

namespace RecordReader

def start : RecordReader := ⟨.outside false, [], [], []⟩

def put (r : RecordReader) (state : RecordState) (c : Char) : RecordReader :=
  { r with state := state, field := c :: r.field }

def endField (r : RecordReader) : RecordReader :=
  { r with state := .fresh, fields := r.field.reverse :: r.fields, field := [] }

-- `last` is the character that ends the record.
def endRecord (r : RecordReader) (last : Char) : RecordReader :=
  ⟨.outside (last == '\r'), (r.field.reverse :: r.fields).reverse :: r.records, [], []⟩

def endEmptyRecord (r : RecordReader) (last : Char) : RecordReader :=
  { r with state := .outside (last == '\r'), records := [] :: r.records }

-- Reads a character at the beginning of a field.
def beginField (r : RecordReader) (c : Char) : RecordReader :=
  if c == doubleQuote then { r with state := .quoted }
  else if c == '\t' then r.endField
  else r.put .plain c

def read (r : RecordReader) (c : Char) : RecordReader :=
  match r.state with
  | .outside afterReturn =>
    if c == '\n' && afterReturn then { r with state := .outside false }
    else if isLineEnd c then r.endEmptyRecord c
    else r.beginField c
  | .fresh => if isLineEnd c then r.endRecord c else r.beginField c
  | .plain =>
    if isLineEnd c then r.endRecord c else if c == '\t' then r.endField else r.put .plain c
  | .quoted => if c == doubleQuote then { r with state := .closing } else r.put .quoted c
  | .closing =>
    if isLineEnd c then r.endRecord c
    else if c == '\t' then r.endField
    else r.put (if c == doubleQuote then .quoted else .plain) c

-- The records, with the one that the end of the text ends.
def finish (r : RecordReader) : List (List Text) :=
  match r.state with
  | .outside _ => r.records.reverse
  | _ => (r.endRecord '\n').records.reverse

end RecordReader

def records (t : Text) : List (List Text) := (t.foldl RecordReader.read .start).finish

example : records "a\tb\r\n\nc".toList = [["a".toList, "b".toList], [], ["c".toList]] := by decide
example : records "\"a\tb\"c\t".toList = [["a\tbc".toList, []]] := by decide

end Vyakarana.Text
