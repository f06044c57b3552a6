import Vyakarana.Derivation
import Vyakarana.RootTable
import Vyakarana.Text.Json

/-!
What the commands print.

Forms are printed one to a line, with all their steps and decisions, or as a JSON document;
roots are printed one to a line, with their codes.
-/

namespace Vyakarana

inductive Layout
  | forms | traces | json
deriving DecidableEq, Repr

namespace Report

def line (t : Text) : Text := t ++ ['\n']

-- Filled up with spaces to at least `width` characters.
def padRight (width : Nat) (t : Text) : Text := t ++ List.replicate (width - t.length) ' '

def step (s : Step) : Text :=
  line ("    ".toList ++ padRight 12 s.rule.toList ++ [' '] ++ s.result)

def decision (e : Decision) : Text :=
  line ("    [".toList ++ e.verdict.name.toList ++ "] ".toList ++ e.rule.toList)

def trace (d : Derivation) : Text :=
  line d.text ++ d.history.flatMap step ++ d.ledger.flatMap decision

def json (d : Derivation) : Text :=
  Text.jsonObject 1
    [("text", Text.jsonText d.text),
     ("history", Text.jsonList 2 (d.history.map fun s =>
       Text.jsonObject 3
         [("rule", Text.jsonText s.rule.toList), ("result", Text.jsonText s.result)])),
     ("rule_decisions", Text.jsonList 2 (d.ledger.map fun e =>
       Text.jsonObject 3
         [("rule", Text.jsonText e.rule.toList),
          ("decision", Text.jsonText e.verdict.name.toList)]))]

def forms (layout : Layout) (ds : List Derivation) : Text :=
  match layout with
  | .forms => ds.flatMap fun d => line d.text
  | .traces => ds.flatMap trace
  | .json => line (Text.jsonList 0 (ds.map json))

-- The sub-list of a root is a third column.
def root (r : Root) : Text :=
  line (r.code.toList ++ ['\t'] ++ r.upadesha ++
    match r.antargana with
    | some a => '\t' :: a.spelling.toList
    | none => [])

def roots (rs : List Root) : Text := rs.flatMap root

end Report

end Vyakarana
