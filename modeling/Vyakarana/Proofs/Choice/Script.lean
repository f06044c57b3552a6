import Vyakarana.Proofs.Choice.DecisionTree

/-!
Scripts: all derivations that read their choices by consulting optional rules only.

Between two consultations a script may look at the whole derivation but for its choices and
go on according to what it sees, change what it likes, and write entries of its own into the
ledger. It may consult one rule several times. A refused rule need not be noted.
-/

namespace Vyakarana

inductive Script
  | halt
  | change (f : Derivation → Derivation) (rest : Script)
  | note (decision : Decision) (rest : Script)
  | consult (rule : Rule) (allowed refused : Script)
  | observe (next : Derivation → Script)

namespace Script

def run : Script → Derivation → Derivation
  | .halt, d => d
  | .change f rest, d => rest.run (d.changeBy f)
  | .note decision rest, d => rest.run (d.note decision)
  | .consult rule allowed refused, d =>
    match d.consult rule with
    | (true, d) => allowed.run d
    | (false, d) => refused.run d
  | .observe next, d => (next d.unchosen).run d

def tree : Script → Derivation → DecisionTree
  | .halt, d => .leaf d
  | .change f rest, d => rest.tree (d.changeBy f)
  | .note decision rest, d => rest.tree (d.note decision)
  | .consult rule allowed refused, d => .node rule (allowed.tree (d.accept rule)) (refused.tree d)
  | .observe next, d => (next d.unchosen).tree d

-- All runs of the script, each from an empty derivation.
def runs (s : Script) (recording : Bool) (table : FeatureTable) : Except Fault (List Derivation) :=
  Run.all (fun choices => .done (s.run (.start choices recording table)))
    (s.tree (.start [] recording table)).rules

theorem follow_tree (s : Script) (choices : Choices) (d : Derivation) :
    (s.tree d).follow choices = s.run (d.withChoices choices) := by
  induction s generalizing d with
  | halt => rfl
  | change f rest ih => exact ih _
  | note decision rest ih => exact ih _
  | consult rule allowed refused iha ihr =>
      by_cases hp : choices.permits rule = true
      · have hc : (d.withChoices choices).consult rule =
            (true, (d.accept rule).withChoices choices) := by
          simp [Derivation.consult, hp]
          rfl
        simp [tree, DecisionTree.follow, run, hc, hp, iha]
      · have hc : (d.withChoices choices).consult rule = (false, d.withChoices choices) := by
          simp [Derivation.consult, hp]
        simp [tree, DecisionTree.follow, run, hc, hp, ihr]
  | observe next ih => exact ih _ d

theorem ledger_prefix_tree (s : Script) (d : Derivation) :
    ∀ l ∈ (s.tree d).leaves, d.ledger <+: l.ledger := by
  induction s generalizing d with
  | halt => simp [tree, DecisionTree.leaves]
  | change f rest ih => exact ih (d.changeBy f)
  | note decision rest ih =>
      exact fun l hl => (List.prefix_append d.ledger [decision]).trans (ih _ l hl)
  | consult rule allowed refused iha ihr =>
      intro l hl
      rcases List.mem_append.mp hl with hl | hl
      · exact (List.prefix_append d.ledger _).trans (iha (d.accept rule) l hl)
      · exact ihr d l hl
  | observe next ih => exact ih _ d

theorem logged_tree (s : Script) (d : Derivation) : (s.tree d).Logged := by
  induction s generalizing d with
  | halt => trivial
  | change f rest ih => exact ih _
  | note decision rest ih => exact ih _
  | consult rule allowed refused iha ihr =>
      refine ⟨fun l hl => ?_, iha _, ihr _⟩
      exact (ledger_prefix_tree allowed _ l hl).subset (by simp)
  | observe next ih => exact ih _ d

end Script

end Vyakarana
