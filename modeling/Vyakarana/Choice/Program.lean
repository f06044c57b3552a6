import Vyakarana.Choice.Agenda
import Vyakarana.Term

/-!
Derivation programs, the least that a derivation with choices needs.

A program adds terms and text, applies optional rules, asks for the text, and goes on
according to the answer. Both continuations of a branch are programs, and so is what
follows the branch, so a program is a finite tree.
-/

namespace Vyakarana

inductive Program
  | halt
  | push (t : Term) (rest : Program)
  -- lengthens the text of the first term
  | append (s : Text) (rest : Program)
  -- an optional rule that appends `s`
  | optional (rule : Rule) (s : Text) (accepted declined rest : Program)
  | ifText (s : Text) (same different rest : Program)
  | step (rule : Rule) (rest : Program)
  | accept (rule : Rule) (rest : Program)
  | decline (rule : Rule) (rest : Program)

namespace Program

def appendToFirst (s : Text) (d : Derivation) : Derivation :=
  d.update 0 fun t => t.setText (t.text ++ s)

def run : Program → Derivation → Derivation
  | .halt, d => d
  | .push t rest, d => rest.run (d.push t)
  | .append s rest, d => rest.run (appendToFirst s d)
  | .optional rule s accepted declined rest, d =>
    match d.optionally rule (appendToFirst s) with
    | (true, d) => rest.run (accepted.run d)
    | (false, d) => rest.run (declined.run d)
  | .ifText s same different rest, d =>
    rest.run (if d.text == s then same.run d else different.run d)
  | .step rule rest, d => rest.run (d.record rule)
  | .accept rule rest, d => rest.run (d.accept rule)
  | .decline rule rest, d => rest.run (d.decline rule)

-- The rules that a ledger of the program can name.
def rules : Program → List Rule
  | .halt => []
  | .push _ rest | .append _ rest | .step _ rest => rest.rules
  | .optional rule _ accepted declined rest =>
    rule :: (accepted.rules ++ declined.rules ++ rest.rules)
  | .ifText _ same different rest => same.rules ++ different.rules ++ rest.rules
  | .accept rule rest | .decline rule rest => rule :: rest.rules

-- All runs of the program, each from an empty derivation.
def runs (p : Program) (recording : Bool) (table : FeatureTable) :
    Except Fault (List Derivation) :=
  Run.all (fun choices => .done (p.run (.start choices recording table))) p.rules

end Program

end Vyakarana
