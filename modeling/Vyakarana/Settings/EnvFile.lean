import Vyakarana.Text.Blank
import Vyakarana.Text.Quoted

/-!
Files of environment variables.

A line binds a name to a value, `NAME=value`, with `export` before it if one likes. A
value in quotes may run over several lines and may hold escapes; any other value ends
before a comment or with the line. A comment begins with a number sign after a blank, and the
blanks before a value count for this. A name alone is bound to nothing. Lines that cannot be
read bind nothing. A value may refer to other variables by their names in braces after a
dollar sign, with a text to stand in for a variable that is not there.
-/

namespace Vyakarana

-- A name, and its value if it has one.
abbrev Binding := Text × Option Text

namespace EnvFile

open Text

def isInlineBlank (c : Char) : Bool := isBlank c && c != '\n'

-- What follows the end of the line, if only blanks come before it.
def afterLineEnd? (t : Text) : Option Text :=
  match t.dropWhile isInlineBlank with
  | [] => some []
  | c :: rest => if c == '\n' then some rest else none

def restOfLine (t : Text) : Text := t.takeWhile (· != '\n')

-- What follows the line, whatever is on it.
def skipLine (t : Text) : Text := (t.dropWhile (· != '\n')).drop 1

def skipComment (t : Text) : Text :=
  match t.dropWhile isInlineBlank with
  | '#' :: rest => rest.dropWhile (· != '\n')
  | _ => t

def skipExport (t : Text) : Text :=
  if "export".toList.isPrefixOf t && ((t.drop 6).head?.any isInlineBlank) then
    (t.drop 6).dropWhile isInlineBlank
  else t

-- The quoted text and what follows its closing quote. A quote after a backslash closes only
-- if no other quote does.
def quotedPart? (quote : Char) : Text → Option (Text × Text)
  | [] => none
  | [c] => if c == quote then some ([], []) else none
  | c :: d :: rest =>
    if c == quote then some ([], d :: rest)
    else if c == '\\' && d == quote then
      match quotedPart? quote rest with
      | some (body, after) => some (c :: d :: body, after)
      | none => some ([c], rest)
    else (quotedPart? quote (d :: rest)).map fun (body, after) => (c :: body, after)

-- The characters that an escape in double quotes can stand for.
def escapes : List (Char × Nat) :=
  [('\\', 92), (singleQuote, 39), (doubleQuote, 34), ('a', 7), ('b', 8), ('f', 12), ('n', 10),
   ('r', 13), ('t', 9), ('v', 11)]

def escape? (quote c : Char) : Option Char :=
  if quote == singleQuote && c != '\\' && c != singleQuote then none
  else (escapes.lookup c).map Char.ofNat

def unescape (quote : Char) : Text → Text
  | '\\' :: c :: rest =>
    match escape? quote c with
    | some meant => meant :: unescape quote rest
    | none => '\\' :: unescape quote (c :: rest)
  | c :: rest => c :: unescape quote rest
  | [] => []

-- A comment begins with a number sign after a blank.
def withoutComment : Text → Text
  | [] => []
  | c :: rest =>
    if isBlank c && ((c :: rest).dropWhile isBlank).head? == some '#' then []
    else c :: withoutComment rest

-- The value of a binding, from the text after its equals sign, and what follows it. Blanks
-- around a value do not belong to it, but a blank before it lets a comment begin at once.
def value? (t : Text) : Option (Text × Text) :=
  let unquoted := some (trim (withoutComment (restOfLine t)), t.dropWhile (· != '\n'))
  match t.dropWhile isInlineBlank with
  | [] => unquoted
  | c :: rest =>
    if c == singleQuote || c == doubleQuote then
      (quotedPart? c rest).map fun (body, after) => (unescape c body, after)
    else unquoted

-- A comment has the place of a name, but is none.
def name? (t : Text) : Option (Option Text × Text) :=
  match t.head? with
  | none => none
  | some c =>
    if c == '#' then some (none, t)
    else if c == singleQuote then
      let name := (t.drop 1).takeWhile (· != singleQuote)
      let after := (t.drop 1).dropWhile (· != singleQuote)
      if name.isEmpty || after.isEmpty then none else some (some name, after.drop 1)
    else
      let inName (c : Char) : Bool := c != '=' && c != '#' && !isBlank c
      let name := t.takeWhile inName
      if name.isEmpty then none else some (some name, t.dropWhile inName)

-- A binding, if the line has one, and the text after the line.
def line (t : Text) : Option Binding × Text :=
  match name? (skipExport t) with
  | none => (none, skipLine (skipExport t))
  | some (name, after) =>
    match after.dropWhile isInlineBlank with
    | '=' :: rest =>
      match value? rest with
      | none => (none, skipLine rest)
      | some (value, after) =>
        match afterLineEnd? (skipComment after) with
        | some next => (name.map (·, some value), next)
        | none => (none, skipLine (skipComment after))
    | rest =>
      match afterLineEnd? (skipComment rest) with
      | some next => (name.map (·, none), next)
      | none => (none, skipLine (skipComment rest))

-- Every line takes at least one character, so the length of the text is enough.
def bindingsFrom : Nat → Text → List Binding
  | 0, _ => []
  | limit + 1, t =>
    match t.dropWhile isBlank with
    | [] => []
    | c :: rest =>
      match line (c :: rest) with
      | (some binding, next) => binding :: bindingsFrom limit next
      | (none, next) => bindingsFrom limit next

-- The reference at the beginning of a text that follows a dollar sign: the name, the text
-- that may stand in for it, and the length of the reference.
def reference? (t : Text) : Option (Text × Text × Nat) :=
  match t with
  | [] => none
  | c :: rest =>
    let inner := rest.takeWhile (·.toNat != 125)
    if c.toNat != 123 || inner.length == rest.length then none
    else
      let name := inner.takeWhile (· != ':')
      match inner.dropWhile (· != ':') with
      | [] => some (name, [], inner.length + 2)
      | ':' :: '-' :: standIn => some (name, standIn, inner.length + 2)
      | _ => none

-- `skip` counts the characters of a reference that are still to be dropped.
def expandFrom (lookup : Text → Option Text) : Nat → Text → Text
  | _, [] => []
  | skip + 1, _ :: rest => expandFrom lookup skip rest
  | 0, c :: rest =>
    match if c == '$' then reference? rest else none with
    | some (name, standIn, length) =>
      (lookup name).getD standIn ++ expandFrom lookup length rest
    | none => c :: expandFrom lookup 0 rest

-- A name that is bound again keeps its place, with the new value.
def bind (name : Text) (value : Option Text) : List Binding → List Binding
  | [] => [(name, value)]
  | (other, old) :: rest =>
    if other == name then (name, value) :: rest else (other, old) :: bind name value rest

-- References are to the bindings above, and else to the variables outside the file.
def expandAll (outer : List Binding) : List Binding → List Binding → List Binding
  | known, [] => known
  | known, (name, value) :: rest =>
    let lookup (other : Text) : Option Text :=
      ((known.lookup other).or (outer.lookup other)).map (·.getD [])
    expandAll outer (bind name (value.map (expandFrom lookup 0)) known) rest

-- The bindings of a file, each name once, in the order in which the names first occur.
def bindings (outer : List Binding) (t : Text) : List Binding :=
  expandAll outer [] (bindingsFrom (t.length + 1) (unifyLineEnds t))

example : line "A= # c\nB".toList = (some ("A".toList, some []), "B".toList) := by decide
example : line "A=#c".toList = (some ("A".toList, some "#c".toList), []) := by decide
example : line "A= b #c".toList = (some ("A".toList, some "b".toList), []) := by decide

end EnvFile

end Vyakarana
