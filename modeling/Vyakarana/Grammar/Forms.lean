import Vyakarana.Choice.Agenda
import Vyakarana.Grammar.Conjugation

/-!
All finite forms of a root for one tense, person, number and voice.
-/

namespace Vyakarana

-- The rules that a conjugation may take or leave.
def optionalRules : List Rule :=
  ["1.3.72", "1.3.74", "7.1.91", "7.2.62", "7.2.63", "7.2.65", "8.4.56"]

inductive ConjugationError
  | unsupported (reason : Unsupported)
  | fault (fault : Fault)
deriving DecidableEq, Repr

def conjugationRun (root : Root) (form : VerbForm) (recording : Bool) (table : FeatureTable) :
    Run :=
  fun choices => (Derivation.start choices recording table).conjugate root form

-- One derivation for each form, in the order in which they are found.
def verbForms (root : Root) (form : VerbForm) (recording : Bool) (table : FeatureTable) :
    Except ConjugationError (List Derivation) :=
  match unsupported? root form.lakara with
  | some reason => .error (.unsupported reason)
  | none =>
    match (conjugationRun root form recording table).all optionalRules with
    | .ok ds => .ok (firstOfEachText ds)
    | .error fault => .error (.fault fault)

end Vyakarana
