import Vyakarana.Text.Numeral

/-!
Options on a command line.

An option is written with two hyphens before its name, of which a beginning is enough if it
fits no other option. Its value follows as the next word or after an equals sign. Words
that look like an option are none if they are a negative number or have a space in them,
and no word after `--` is an option.
-/

namespace Vyakarana

structure OptionSpec where
  -- with its hyphens
  name : Text
  -- the values that the option takes; a flag takes none
  accepts : Option (Text → Bool)

-- Why a command line is not carried out.
inductive Refusal
  -- it is not well formed
  | usage
  -- it asks for help
  | help
deriving DecidableEq, Repr

inductive CommandWord
  | plain (text : Text)
  -- with the value that is attached to it
  | option (spec : OptionSpec) (value : Option Text)
  | help
  | unknown
  | separator

namespace OptionSpec

def helpName : Text := "--help".toList

def isNegativeNumber (t : Text) : Bool :=
  let isDigit (c : Char) : Bool := (Text.digitValue? c).isSome
  let number := if t.getLast? == some '\n' then t.dropLast else t
  match number with
  | '-' :: rest =>
    (!rest.isEmpty && rest.all isDigit) ||
      match Text.splitAtFirst? '.' rest with
      | some (whole, fraction) =>
        whole.all isDigit && !fraction.isEmpty && fraction.all isDigit
      | none => false
  | _ => false

-- A word that is no option, though it begins with a hyphen.
def ofOther (t : Text) : CommandWord :=
  if isNegativeNumber t || t.contains ' ' then .plain t else .unknown

-- The option whose name begins so. Help is an option of every command; nothing comes back if
-- several options are meant.
def ofBeginning? (specs : List OptionSpec) (beginning : Text) (value : Option Text)
    (whole : Text) : Option CommandWord :=
  match specs.filter fun spec => beginning.isPrefixOf spec.name with
  | [] =>
    if beginning.isPrefixOf helpName then
      some (if value.isSome then .unknown else .help)
    else some (ofOther whole)
  | [spec] => if beginning.isPrefixOf helpName then none else some (.option spec value)
  | _ => none

def word? (specs : List OptionSpec) (t : Text) : Option CommandWord :=
  match t with
  | [] | ['-'] => some (.plain t)
  | '-' :: 'h' :: more => some (if more.all (· == 'h') then .help else .unknown)
  | '-' :: '-' :: _ =>
    let (beginning, value) :=
      match Text.splitAtFirst? '=' t with
      | some (beginning, value) => (beginning, some value)
      | none => (t, none)
    match specs.find? (·.name == beginning) with
    | some spec => some (.option spec value)
    | none => ofBeginning? specs beginning value t
  | '-' :: _ => some (ofOther t)
  | _ => some (.plain t)

-- Nothing if some word is ambiguous.
def words? (specs : List OptionSpec) : List Text → Option (List CommandWord)
  | [] => some []
  | t :: rest =>
    if t == "--".toList then some (.separator :: rest.map .plain)
    else
      match word? specs t, words? specs rest with
      | some word, some words => some (word :: words)
      | _, _ => none

end OptionSpec

-- The options of a command line with their values, and whether there was anything else.
structure OptionReading where
  values : List (Text × Text)
  hasOthers : Bool
deriving DecidableEq, Repr

namespace OptionReading

-- The value of an option; of several the last one counts.
def value? (r : OptionReading) (name : String) : Option Text :=
  r.values.reverse.lookup ("--".toList ++ name.toList)

def hasFlag (r : OptionReading) (name : String) : Bool := (r.value? name).isSome

-- Adds a value that the option accepts.
def add (r : OptionReading) (name value : Text) : OptionReading :=
  { r with values := r.values ++ [(name, value)] }

def ofWords (r : OptionReading) : List CommandWord → Except Refusal OptionReading
  | [] => .ok r
  | .help :: _ => .error .help
  | .option ⟨name, none⟩ none :: rest => (r.add name []).ofWords rest
  | .option ⟨name, some accepts⟩ (some t) :: rest
  | .option ⟨name, some accepts⟩ none :: .plain t :: rest =>
    if accepts t then (r.add name t).ofWords rest else .error .usage
  | .option _ _ :: _ => .error .usage
  | _ :: rest => { r with hasOthers := true }.ofWords rest

def read (specs : List OptionSpec) (args : List Text) : Except Refusal OptionReading :=
  match OptionSpec.words? specs args with
  | some words => ofWords ⟨[], false⟩ words
  | none => .error .usage

end OptionReading

end Vyakarana
