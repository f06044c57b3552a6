import Vyakarana.Text.Numeral

/-!
The fields of a request, before and after they are checked.

A field holds a value of any kind, or is absent. The readers say what a field may hold; a
field that may not hold its value has a problem, and a request is refused with the problems
of all its fields, in the order of the fields.
-/

namespace Vyakarana

inductive FieldValue
  | absent
  | null
  | flag (value : Bool)
  | whole (value : Int)
  -- a number with a fraction: its digits, the last `places` of them after the point
  | fraction (digits : Int) (places : Nat)
  | text (value : Text)
  | list (items : List FieldValue)
  | record (fields : List (Text × FieldValue))
deriving Inhabited, Repr

inductive FieldProblem
  | missing | notText | emptyText | notInteger | notNumeral | tooLong | hasFraction | tooSmall
  | tooLarge | notListed | notBoolean
deriving DecidableEq, Repr

structure FieldError where
  field : String
  problem : FieldProblem
deriving DecidableEq, Repr

namespace FieldProblem

def name : FieldProblem → String
  | .missing => "missing"
  | .notText => "string_type"
  | .emptyText => "string_too_short"
  | .notInteger => "int_type"
  | .notNumeral => "int_parsing"
  | .tooLong => "int_parsing_size"
  | .hasFraction => "int_from_float"
  | .tooSmall => "greater_than_equal"
  | .tooLarge => "less_than_equal"
  | .notListed => "enum"
  | .notBoolean => "bool_parsing"

end FieldProblem

namespace FieldValue

-- A text with at least one character.
def readText : FieldValue → Except FieldProblem Text
  | .absent => .error .missing
  | .text [] => .error .emptyText
  | .text t => .ok t
  | _ => .error .notText

-- Truth counts as one.
def readInt : FieldValue → Except FieldProblem Int
  | .absent => .error .missing
  | .whole n => .ok n
  | .flag b => .ok (if b then 1 else 0)
  | .fraction .. => .error .hasFraction
  | .text t =>
    match Text.strictInt t with
    | .ok n => .ok n
    | .error .malformed => .error .notNumeral
    | .error .tooLong => .error .tooLong
  | .null | .list _ | .record _ => .error .notInteger

def readIntIn (least greatest : Int) (v : FieldValue) : Except FieldProblem Int :=
  match v.readInt with
  | .error problem => .error problem
  | .ok n =>
    if n < least then .error .tooSmall else if greatest < n then .error .tooLarge else .ok n

-- One of the listed values, by its exact spelling.
def readListed (all : List α) (spelling : α → String) : FieldValue → Except FieldProblem α
  | .absent => .error .missing
  | .text t =>
    match all.find? fun x => (spelling x).toList == t with
    | some x => .ok x
    | none => .error .notListed
  | _ => .error .notListed

-- A field that may be absent or null.
def readOptional (read : FieldValue → Except FieldProblem α) :
    FieldValue → Except FieldProblem (Option α)
  | .absent | .null => .ok none
  | v => (read v).map some

-- A field with a value for the case that it is absent.
def readOr (value : α) (read : FieldValue → Except FieldProblem α) :
    FieldValue → Except FieldProblem α
  | .absent => .ok value
  | v => read v

-- The whole number that a value stands for where a numeral of any script will do.
def toInt? : FieldValue → Option Int
  | .whole n => some n
  | .fraction digits places => some (digits.tdiv (Int.ofNat (Nat.pow 10 places)))
  | .flag b => some (if b then 1 else 0)
  | .text t => Text.lenientInt? t
  | .absent | .null | .list _ | .record _ => none

end FieldValue

-- The problem of a field, if it has one.
def fieldErrors (field : String) : Except FieldProblem α → List FieldError
  | .ok _ => []
  | .error problem => [⟨field, problem⟩]

end Vyakarana
