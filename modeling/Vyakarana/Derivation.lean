import Vyakarana.Sound.FeatureTable
import Vyakarana.Term.View

/-!
A derivation in progress: a row of terms, tags of the whole derivation, the steps taken so
far and the choices made at optional rules.

A rule that does not apply leaves the derivation as it is. `record` notes a step with the
text right after it; `consult` asks whether an optional rule may apply and notes the
answer in the ledger.
-/

namespace Vyakarana

-- The traditional number of a rule.
abbrev Rule := String

-- How an optional rule is to be taken. A rule without an entry is allowed.
inductive Permission
  | allow | ignore
deriving DecidableEq, Repr

-- What an optional rule did.
inductive Verdict
  | accepted | declined
deriving DecidableEq, Repr

def Permission.name : Permission → String
  | .allow => "allow"
  | .ignore => "ignore"

def Verdict.name : Verdict → String
  | .accepted => "accepted"
  | .declined => "declined"

structure Step where
  rule : Rule
  result : Text
deriving DecidableEq, Repr

structure Decision where
  rule : Rule
  verdict : Verdict
deriving DecidableEq, Repr

abbrev Choices := List (Rule × Permission)

namespace Choices

def permits (choices : Choices) (rule : Rule) : Bool :=
  (choices.lookup rule).getD .allow == .allow

end Choices

structure Derivation where
  terms : List Term
  tags : List Tag
  history : List Step
  ledger : List Decision
  choices : Choices
  -- whether steps are noted
  recording : Bool
  table : FeatureTable

namespace Derivation

def start (choices : Choices) (recording : Bool) (table : FeatureTable) : Derivation :=
  ⟨[], [], [], [], choices, recording, table⟩

def text (d : Derivation) : Text := d.terms.flatMap (·.text)

def term? (d : Derivation) (i : Int) : Option Term := i.toNat?.bind (d.terms[·]?)

def view? (d : Derivation) (i : Int) : Option View := View.at? d.terms i

-- Whether there is a term at `i`, and one of this kind.
def has (d : Derivation) (i : Int) (f : Term → Bool) : Bool := (d.term? i).any f

def hasTag (d : Derivation) (tag : Tag) : Bool := d.tags.contains tag

def hasAllTags (d : Derivation) (tags : List Tag) : Bool := tags.all d.hasTag

def hasTagIn (d : Derivation) (tags : List Tag) : Bool := tags.any d.hasTag

def addTag (tag : Tag) (d : Derivation) : Derivation := { d with tags := Tag.insert tag d.tags }

def removeTag (tag : Tag) (d : Derivation) : Derivation := { d with tags := Tag.erase tag d.tags }

def addTags (tags : List Tag) (d : Derivation) : Derivation :=
  tags.foldl (fun d tag => d.addTag tag) d

-- Changes the term at `i`, if there is one.
def update (i : Int) (f : Term → Term) (d : Derivation) : Derivation :=
  match i.toNat? with
  | some n => { d with terms := d.terms.modify n f }
  | none => d

-- Visits every index of the row, from the left. The visits may change terms, not their number.
def forEach (visit : Derivation → Nat → Derivation) (d : Derivation) : Derivation :=
  (List.range d.terms.length).foldl visit d

def push (t : Term) (d : Derivation) : Derivation := { d with terms := d.terms ++ [t] }

-- Puts a term before the one at `n`, or at the end of a shorter row.
def insertTerm (n : Nat) (t : Term) (d : Derivation) : Derivation :=
  { d with terms := d.terms.take n ++ t :: d.terms.drop n }

-- Positions below zero count back from the end of the row, as far as its beginning.
def insertBefore (i : Int) (t : Term) (d : Derivation) : Derivation :=
  d.insertTerm (if i < 0 then i + d.terms.length else i).toNat t

def insertAfter (i : Int) (t : Term) (d : Derivation) : Derivation := d.insertBefore (i + 1) t

def record (rule : Rule) (d : Derivation) : Derivation :=
  if d.recording then { d with history := d.history ++ [⟨rule, d.text⟩] } else d

-- A recorded step changes the history and nothing else.
@[simp] theorem terms_record (rule : Rule) (d : Derivation) : (d.record rule).terms = d.terms := by
  unfold record
  split <;> rfl

@[simp] theorem tags_record (rule : Rule) (d : Derivation) : (d.record rule).tags = d.tags := by
  unfold record
  split <;> rfl

@[simp] theorem ledger_record (rule : Rule) (d : Derivation) :
    (d.record rule).ledger = d.ledger := by
  unfold record
  split <;> rfl

@[simp] theorem text_record (rule : Rule) (d : Derivation) : (d.record rule).text = d.text := by
  simp only [text, terms_record]

theorem text_push (t : Term) (d : Derivation) : (d.push t).text = d.text ++ t.text := by
  simp [push, text]

-- Changes the term at `i` by `rule`. Without such a term the rule does not apply.
def alter (rule : Rule) (i : Int) (f : Term → Term) (d : Derivation) : Derivation :=
  if (d.term? i).isSome then (d.update i f).record rule else d

-- Applies `f` as a rule.
def apply (rule : Rule) (f : Derivation → Derivation) (d : Derivation) : Derivation :=
  (f d).record rule

-- Changes the term at `i` by `rule` if it is of the given kind, and tells whether it was.
def alterIf (rule : Rule) (i : Int) (applies : Term → Bool) (f : Term → Term)
    (d : Derivation) : Bool × Derivation :=
  if d.has i applies then (true, d.alter rule i f) else (false, d)

def accept (rule : Rule) (d : Derivation) : Derivation :=
  { d with ledger := d.ledger ++ [⟨rule, .accepted⟩] }

def decline (rule : Rule) (d : Derivation) : Derivation :=
  { d with ledger := d.ledger ++ [⟨rule, .declined⟩] }

-- Whether an optional rule may apply; if so, it is noted as accepted.
def consult (rule : Rule) (d : Derivation) : Bool × Derivation :=
  if d.choices.permits rule then (true, d.accept rule) else (false, d)

-- An optional rule: `f` is applied and recorded, or the rule is noted as declined.
def optionally (rule : Rule) (f : Derivation → Derivation) (d : Derivation) : Bool × Derivation :=
  match d.consult rule with
  | (true, d) => (true, (f d).record rule)
  | (false, d) => (false, d.decline rule)

end Derivation

-- A derivation that a rule has left, whole or cut short by a fault. What was done before
-- the fault stays done.
inductive Outcome
  | done (d : Derivation)
  | failed (fault : Fault) (d : Derivation)

namespace Outcome

def andThen (o : Outcome) (next : Derivation → Outcome) : Outcome :=
  match o with
  | .done d => next d
  | .failed fault d => .failed fault d

def map (f : Derivation → Derivation) (o : Outcome) : Outcome := o.andThen fun d => .done (f d)

@[simp] theorem andThen_done (d : Derivation) (next : Derivation → Outcome) :
    (done d).andThen next = next d := rfl

@[simp] theorem andThen_failed (fault : Fault) (d : Derivation) (next : Derivation → Outcome) :
    (failed fault d).andThen next = .failed fault d := rfl

@[simp] theorem map_done (f : Derivation → Derivation) (d : Derivation) :
    (done d).map f = .done (f d) := rfl

@[simp] theorem map_failed (f : Derivation → Derivation) (fault : Fault) (d : Derivation) :
    (failed fault d).map f = .failed fault d := rfl

theorem andThen_assoc (o : Outcome) (f g : Derivation → Outcome) :
    (o.andThen f).andThen g = o.andThen fun d => (f d).andThen g := by
  cases o <;> rfl

end Outcome

end Vyakarana
