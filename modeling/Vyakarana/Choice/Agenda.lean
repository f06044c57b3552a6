import Vyakarana.Derivation

/-!
All forms of a derivation that leaves choices.

A derivation is run first with no choice made. Every decision in the ledger of a run that
the choices of the run had left open is a branching point: the decisions before it are
made in advance as they were found, that one is turned round, and the derivation is to be
run with the choices so obtained. Choices that have been on the agenda are not put there
again. With n rules there are 3^n choices, so that many runs are enough.
-/

namespace Vyakarana

namespace Verdict

-- The permission that leads to this verdict.
def permission : Verdict → Permission
  | .accepted => .allow
  | .declined => .ignore

-- The permission that leads to the other verdict.
def reversed : Verdict → Permission
  | .accepted => .ignore
  | .declined => .allow

end Verdict

namespace Choices

def fixes (choices : Choices) (rule : Rule) : Bool := (choices.lookup rule).isSome

-- Fixes a rule that is still open.
def fixIfOpen (rule : Rule) (permission : Permission) (choices : Choices) : Choices :=
  if choices.fixes rule then choices else choices ++ [(rule, permission)]

-- Fixes a rule, whatever it was before.
def fix (rule : Rule) (permission : Permission) (choices : Choices) : Choices :=
  choices.filter (·.1 != rule) ++ [(rule, permission)]

-- The same choices, in whatever order they were made.
def agreesWith (a b : Choices) : Bool := a.all b.contains && b.all a.contains

-- `made` are the choices together with the decisions that have been passed.
def branchesFrom (choices made : Choices) : List Decision → List Choices
  | [] => []
  | decision :: rest =>
    let later :=
      branchesFrom choices (made.fixIfOpen decision.rule decision.verdict.permission) rest
    if choices.fixes decision.rule then later
    else made.fix decision.rule decision.verdict.reversed :: later

-- The choices to be tried after a run with `choices` that left this ledger.
def branches (choices : Choices) (ledger : List Decision) : List Choices :=
  branchesFrom choices choices ledger

end Choices

-- The choices still to be tried, the next one first, and all that have ever been listed.
structure Agenda where
  pending : List Choices
  known : List Choices

namespace Agenda

def start : Agenda := ⟨[[]], [[]]⟩

-- What is enlisted last is tried first.
def enlist (a : Agenda) (choices : Choices) : Agenda :=
  if a.known.any choices.agreesWith then a else ⟨choices :: a.pending, choices :: a.known⟩

def enlistAll (a : Agenda) (branches : List Choices) : Agenda := branches.foldl enlist a

end Agenda

-- A way to derive: for all choices, what becomes of a fresh derivation.
abbrev Run := Choices → Outcome

namespace Run

-- The runs in the order in which they are made, at most `limit` of them.
def explore (run : Run) : Nat → Agenda → Except Fault (List Derivation)
  | limit, agenda =>
    match agenda.pending, limit with
    | [], _ => .ok []
    | _ :: _, 0 => .error .unfinished
    | choices :: rest, limit + 1 =>
      match run choices with
      | .failed fault _ => .error fault
      | .done d =>
        let agenda : Agenda := ⟨rest, agenda.known⟩
        (run.explore limit (agenda.enlistAll (choices.branches d.ledger))).map (d :: ·)

-- `rules` holds every rule that a ledger can name.
def all (run : Run) (rules : List Rule) : Except Fault (List Derivation) :=
  run.explore (Nat.pow 3 rules.eraseDups.length) .start

end Run

-- Of the derivations with one text only the first is a result. `known` are earlier texts.
def firstOfTextFrom (known : List Text) : List Derivation → List Derivation
  | [] => []
  | d :: rest =>
    if known.contains d.text then firstOfTextFrom known rest
    else d :: firstOfTextFrom (d.text :: known) rest

def firstOfEachText (ds : List Derivation) : List Derivation := firstOfTextFrom [] ds

end Vyakarana
