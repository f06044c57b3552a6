import Vyakarana.Category
import Vyakarana.Request.Field
import Vyakarana.Root
import Vyakarana.Text.Case
import Vyakarana.Text.Quoted

/-!
Arguments in words and numerals.

A category is named by its spelling, in any case and with blanks around it. A root is
given by its upadesha, its class and its number; what cannot be read is quoted in the
message, as it was given.
-/

namespace Vyakarana

inductive ArgumentError
  | unknownSpelling (category : String) (given : Text) (choices : List String)
  | invalidPart (part : String) (shown : Text)
  | ganaOutOfRange (gana : Int)
  | malformedCode (code : Text)
deriving DecidableEq, Repr

namespace ArgumentError

def message : ArgumentError → Text
  | .unknownSpelling category given choices =>
    "Could not parse ".toList ++ category.toList ++ " from ".toList ++ Text.quoted given ++
      " (expected one of: ".toList ++ (", ".intercalate choices).toList ++ ")".toList
  | .invalidPart part shown =>
    "Invalid ".toList ++ part.toList ++ " in dhatupatha code: ".toList ++ shown
  | .ganaOutOfRange n => "Gana must be between 1 and 10, got ".toList ++ (toString n).toList
  | .malformedCode code => "Malformed dhatupatha code: ".toList ++ Text.quoted code

end ArgumentError

-- The first of `all` with the given spelling.
def readSpelling (category : String) (all : List α) (spelling : α → String) (given : Text) :
    Except ArgumentError α :=
  match all.find? fun x => (spelling x).toList == Text.lower (Text.trim given) with
  | some x => .ok x
  | none => .error (.unknownSpelling category given (all.map spelling))

def Prayoga.read : Text → Except ArgumentError Prayoga :=
  readSpelling "Prayoga" Prayoga.all Prayoga.spelling

def Purusha.read : Text → Except ArgumentError Purusha :=
  readSpelling "Purusha" Purusha.all Purusha.spelling

def Vacana.read : Text → Except ArgumentError Vacana :=
  readSpelling "Vacana" Vacana.all Vacana.spelling

def Lakara.read : Text → Except ArgumentError Lakara :=
  readSpelling "Lakara" Lakara.all Lakara.spelling

def Antargana.read : Text → Except ArgumentError Antargana :=
  readSpelling "Antargana" Antargana.all Antargana.spelling

-- Why no root could be made of a request: an argument that cannot be read, or fields with
-- problems.
inductive RootError
  | argument (error : ArgumentError)
  | fields (errors : List FieldError)
deriving DecidableEq, Repr

namespace FieldValue

-- Digits with a point before the last `places` of them, and no zero at the end.
def decimalText (digits : Int) (places : Nat) : Text :=
  let all := (toString digits.natAbs).toList
  let padded := List.replicate (places + 1 - all.length) '0' ++ all
  let whole := padded.take (padded.length - places)
  let after := ((padded.drop (padded.length - places)).reverse.dropWhile (· == '0')).reverse
  (if digits < 0 then ['-'] else []) ++ whole ++ ['.'] ++ (if after.isEmpty then ['0'] else after)

mutual

-- A value as a message shows it.
def shown : FieldValue → Text
  | .text t => Text.quoted t
  | .whole n => (toString n).toList
  | .fraction digits places => decimalText digits places
  | .flag true => "True".toList
  | .flag false => "False".toList
  | .absent | .null => "None".toList
  | .list items => '[' :: ", ".toList.intercalate (shownItems items) ++ [']']
  | .record fields =>
    Char.ofNat 123 :: ", ".toList.intercalate (shownFields fields) ++ [Char.ofNat 125]

def shownItems : List FieldValue → List Text
  | [] => []
  | v :: rest => shown v :: shownItems rest

def shownFields : List (Text × FieldValue) → List Text
  | [] => []
  | (name, v) :: rest => (Text.quoted name ++ ": ".toList ++ shown v) :: shownFields rest

end

def readPart (part : String) (v : FieldValue) : Except ArgumentError Int :=
  match v.toInt? with
  | some n => .ok n
  | none => .error (.invalidPart part v.shown)

end FieldValue

namespace Root

-- The root that the parts of a code stand for. The class is read before the number.
def ofParts (upadesha gana number : FieldValue) : Except RootError Root :=
  match gana.readPart "gana" with
  | .error e => .error (.argument e)
  | .ok g =>
    match number.readPart "number" with
    | .error e => .error (.argument e)
    | .ok n =>
      if g < 1 || 10 < g then .error (.argument (.ganaOutOfRange g))
      else
        match upadesha.readText with
        | .error problem => .error (.fields [⟨"upadesha", problem⟩])
        | .ok u => .ok ⟨u, g, antarganaOf g n, some n⟩

-- The root that the fields of a request describe.
def ofFields (upadesha gana antargana number : FieldValue) : Except (List FieldError) Root :=
  match upadesha.readText, gana.readIntIn 1 10,
    antargana.readOptional (FieldValue.readListed Antargana.all Antargana.spelling),
    number.readOptional FieldValue.readInt with
  | .ok u, .ok g, .ok a, .ok n => .ok ⟨u, g, a, n⟩
  | u, g, a, n =>
    .error (fieldErrors "upadesha" u ++ fieldErrors "gana" g ++ fieldErrors "antargana" a ++
      fieldErrors "number" n)

end Root

end Vyakarana
