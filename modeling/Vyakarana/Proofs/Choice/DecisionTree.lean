import Vyakarana.Choice.Program
import Vyakarana.Proofs.Choice.Choices

/-!
Derivations with choices, as decision trees.

A node of a decision tree is an optional rule that is consulted, a leaf what becomes of the
derivation. The choices of a run are read at the nodes only, so a tree together with choices
tells the whole run: `follow`. The module draws the trees of two kinds of derivations, of
programs and of scripts; a script is any derivation that reads its choices by consulting
optional rules and in no other way.
-/

namespace Vyakarana

inductive DecisionTree
  | leaf (result : Derivation)
  | node (rule : Rule) (accepted declined : DecisionTree)

namespace Derivation

def withChoices (choices : Choices) (d : Derivation) : Derivation := { d with choices := choices }

-- What can be seen of a derivation besides its choices.
def unchosen (d : Derivation) : Derivation := d.withChoices []

def note (decision : Decision) (d : Derivation) : Derivation :=
  { d with ledger := d.ledger ++ [decision] }

-- Carries a change over to terms, tags, history, recording and table; the change sees the
-- ledger, and neither sees nor touches the choices.
def changeBy (f : Derivation → Derivation) (d : Derivation) : Derivation :=
  { f d.unchosen with choices := d.choices, ledger := d.ledger }

@[simp] theorem withChoices_withChoices (a b : Choices) (d : Derivation) :
    (d.withChoices a).withChoices b = d.withChoices b := rfl

@[simp] theorem text_withChoices (choices : Choices) (d : Derivation) :
    (d.withChoices choices).text = d.text := rfl

@[simp] theorem ledger_withChoices (choices : Choices) (d : Derivation) :
    (d.withChoices choices).ledger = d.ledger := rfl

@[simp] theorem choices_withChoices (choices : Choices) (d : Derivation) :
    (d.withChoices choices).choices = choices := rfl

@[simp] theorem choices_accept (rule : Rule) (d : Derivation) :
    (d.accept rule).choices = d.choices := rfl

@[simp] theorem choices_decline (rule : Rule) (d : Derivation) :
    (d.decline rule).choices = d.choices := rfl

@[simp] theorem ledger_accept (rule : Rule) (d : Derivation) :
    (d.accept rule).ledger = d.ledger ++ [⟨rule, .accepted⟩] := rfl

@[simp] theorem ledger_decline (rule : Rule) (d : Derivation) :
    (d.decline rule).ledger = d.ledger ++ [⟨rule, .declined⟩] := rfl

@[simp] theorem withChoices_start (a b : Choices) (recording : Bool) (table : FeatureTable) :
    (start a recording table).withChoices b = start b recording table := rfl

theorem withChoices_eq_self {choices : Choices} {d : Derivation} (h : d.choices = choices) :
    d.withChoices choices = d := h ▸ rfl

@[simp] theorem choices_record (rule : Rule) (d : Derivation) :
    (d.record rule).choices = d.choices := by
  unfold record
  split <;> rfl

theorem record_withChoices (rule : Rule) (choices : Choices) (d : Derivation) :
    (d.withChoices choices).record rule = (d.record rule).withChoices choices := by
  rcases d with ⟨terms, tags, history, ledger, own, recording, table⟩
  cases recording <;> rfl

end Derivation

namespace DecisionTree

def leaves : DecisionTree → List Derivation
  | .leaf d => [d]
  | .node _ accepted declined => accepted.leaves ++ declined.leaves

-- The way from the root to each leaf, accepted rules before declined ones.
def paths : DecisionTree → List (List Decision)
  | .leaf _ => [[]]
  | .node rule accepted declined =>
    accepted.paths.map (⟨rule, .accepted⟩ :: ·) ++ declined.paths.map (⟨rule, .declined⟩ :: ·)

-- The leaf that the choices lead to.
def follow (choices : Choices) : DecisionTree → Derivation
  | .leaf d => d.withChoices choices
  | .node rule accepted declined =>
    if choices.permits rule then accepted.follow choices else declined.follow choices

-- Each accepted rule is in the ledgers that it leads to.
def Logged : DecisionTree → Prop
  | .leaf _ => True
  | .node rule accepted declined =>
    (∀ d ∈ accepted.leaves, ⟨rule, .accepted⟩ ∈ d.ledger) ∧ accepted.Logged ∧ declined.Logged

-- The rules that the ledger of a leaf can name.
def rules (t : DecisionTree) : List Rule := t.leaves.flatMap fun d => d.ledger.map (·.rule)

theorem follow_eq_leaf (choices : Choices) (t : DecisionTree) :
    ∃ d ∈ t.leaves, t.follow choices = d.withChoices choices := by
  induction t with
  | leaf d => exact ⟨d, List.mem_singleton_self d, rfl⟩
  | node rule accepted declined iha ihd =>
      unfold follow
      split
      · obtain ⟨d, hd, hf⟩ := iha
        exact ⟨d, List.mem_append_left _ hd, hf⟩
      · obtain ⟨d, hd, hf⟩ := ihd
        exact ⟨d, List.mem_append_right _ hd, hf⟩

-- The ledger of a run names no other rules than the ledgers of the leaves.
theorem rule_mem_of_mem_follow {t : DecisionTree} {rules : List Rule}
    (hrules : ∀ l ∈ t.leaves, ∀ x ∈ l.ledger, x.rule ∈ rules) (choices : Choices) :
    ∀ x ∈ (t.follow choices).ledger, x.rule ∈ rules := by
  obtain ⟨d, hd, hf⟩ := follow_eq_leaf choices t
  rw [hf]
  exact hrules d hd

-- A run depends on its choices through the rules they fix and the rules they leave open
-- and find accepted. An open rule is never declined.
theorem follow_congr {t : DecisionTree} {choices : Choices} (target : Choices) (ht : t.Logged)
    (hfixed : choices.CompatibleWith target)
    (hopen : ∀ x ∈ (t.follow choices).ledger, choices.fixes x.rule = false →
      x.verdict = .accepted → target.permits x.rule = true) :
    t.follow target = (t.follow choices).withChoices target := by
  induction t with
  | leaf d => rfl
  | node rule accepted declined iha ihd =>
      obtain ⟨hlogged, hta, htd⟩ := ht
      have hsame : target.permits rule = choices.permits rule := by
        by_cases hf : choices.fixes rule = true
        · exact ((Choices.taken_eq_iff_permits_eq _ _ _).mp (hfixed rule hf)).symm
        · have hf : choices.fixes rule = false := by simpa using hf
          have hp := Choices.permits_of_not_fixes hf
          obtain ⟨d, hd, hfollow⟩ := follow_eq_leaf choices accepted
          have hx : (⟨rule, .accepted⟩ : Decision) ∈
              ((DecisionTree.node rule accepted declined).follow choices).ledger := by
            simpa [follow, hp, hfollow] using hlogged d hd
          rw [hp]
          exact hopen _ hx hf rfl
      by_cases hp : choices.permits rule = true
      · have hleft : (DecisionTree.node rule accepted declined).follow choices =
            accepted.follow choices := by simp [follow, hp]
        rw [hleft] at hopen ⊢
        rw [← iha hta hopen]
        simp [follow, hsame, hp]
      · have hright : (DecisionTree.node rule accepted declined).follow choices =
            declined.follow choices := by simp [follow, hp]
        rw [hright] at hopen ⊢
        rw [← ihd htd hopen]
        simp [follow, hsame, hp]

end DecisionTree

namespace Program

-- The tree of a program in front of what comes after it.
def treeThen : Program → (Derivation → DecisionTree) → Derivation → DecisionTree
  | .halt, next, d => next d
  | .push t rest, next, d => rest.treeThen next (d.push t)
  | .append s rest, next, d => rest.treeThen next (appendToFirst s d)
  | .optional rule s accepted declined rest, next, d =>
    .node rule
      (accepted.treeThen (rest.treeThen next) ((appendToFirst s (d.accept rule)).record rule))
      (declined.treeThen (rest.treeThen next) (d.decline rule))
  | .ifText s same different rest, next, d =>
    if d.text == s then same.treeThen (rest.treeThen next) d
    else different.treeThen (rest.treeThen next) d
  | .step rule rest, next, d => rest.treeThen next (d.record rule)
  | .accept rule rest, next, d => rest.treeThen next (d.accept rule)
  | .decline rule rest, next, d => rest.treeThen next (d.decline rule)

-- The decision tree of a program that is run on a derivation.
def tree (p : Program) (d : Derivation) : DecisionTree := p.treeThen .leaf d

@[simp] theorem choices_appendToFirst (s : Text) (d : Derivation) :
    (appendToFirst s d).choices = d.choices := rfl

@[simp] theorem ledger_appendToFirst (s : Text) (d : Derivation) :
    (appendToFirst s d).ledger = d.ledger := rfl

theorem run_optional (rule : Rule) (s : Text) (accepted declined rest : Program)
    (d : Derivation) :
    (Program.optional rule s accepted declined rest).run d =
      if d.choices.permits rule then
        rest.run (accepted.run ((appendToFirst s (d.accept rule)).record rule))
      else rest.run (declined.run (d.decline rule)) := by
  by_cases hp : d.choices.permits rule = true <;>
    simp [run, Derivation.optionally, Derivation.consult, hp]

@[simp] theorem choices_run (p : Program) (d : Derivation) : (p.run d).choices = d.choices := by
  induction p generalizing d with
  | halt => rfl
  | push t rest ih => exact ih _
  | append s rest ih => exact ih _
  | optional rule s accepted declined rest iha ihd ihr =>
      rw [run_optional]
      split
      · simp [ihr, iha]
      · simp [ihr, ihd]
  | ifText s same different rest ihs ihd ihr =>
      simp only [run]
      split
      · rw [ihr, ihs]
      · rw [ihr, ihd]
  | step rule rest ih => exact (ih _).trans (Derivation.choices_record rule d)
  | accept rule rest ih => exact ih _
  | decline rule rest ih => exact ih _

-- The tree is drawn without regard to the choices of the derivation, and its leaf is where
-- the run with the choices followed arrives.
theorem follow_treeThen (p : Program) (next : Derivation → DecisionTree) (choices : Choices)
    (d : Derivation)
    (hnext : ∀ e, (next e).follow choices = (next (e.withChoices choices)).follow choices) :
    (p.treeThen next d).follow choices =
      (next (p.run (d.withChoices choices))).follow choices := by
  induction p generalizing next d with
  | halt => exact hnext d
  | push t rest ih => exact ih next _ hnext
  | append s rest ih => exact ih next _ hnext
  | optional rule s accepted declined rest iha ihd ihr =>
      have hrest (e : Derivation) : (rest.treeThen next e).follow choices =
          (rest.treeThen next (e.withChoices choices)).follow choices := by
        rw [ihr next e hnext, ihr next (e.withChoices choices) hnext,
          Derivation.withChoices_withChoices]
      simp only [treeThen, DecisionTree.follow, run_optional]
      have hc : (d.withChoices choices).choices = choices := rfl
      rw [hc]
      split
      · have hstep : ((appendToFirst s (d.accept rule)).record rule).withChoices choices =
            (appendToFirst s ((d.withChoices choices).accept rule)).record rule :=
          (Derivation.record_withChoices rule choices _).symm
        rw [iha _ _ hrest, ihr next _ hnext, hstep,
          Derivation.withChoices_eq_self (by simp)]
      · rw [ihd _ _ hrest, ihr next _ hnext, Derivation.withChoices_eq_self (by simp)]
        rfl
  | ifText s same different rest ihs ihd ihr =>
      have hrest (e : Derivation) : (rest.treeThen next e).follow choices =
          (rest.treeThen next (e.withChoices choices)).follow choices := by
        rw [ihr next e hnext, ihr next (e.withChoices choices) hnext,
          Derivation.withChoices_withChoices]
      simp only [treeThen, run]
      by_cases hs : (d.text == s) = true
      · have ht : ((d.withChoices choices).text == s) = true := hs
        rw [if_pos hs, if_pos ht, ihs _ _ hrest, ihr next _ hnext,
          Derivation.withChoices_eq_self (by simp)]
      · have ht : ¬((d.withChoices choices).text == s) = true := hs
        rw [if_neg hs, if_neg ht, ihd _ _ hrest, ihr next _ hnext,
          Derivation.withChoices_eq_self (by simp)]
  | step rule rest ih =>
      exact (ih next _ hnext).trans
        (by rw [← Derivation.record_withChoices]; rfl)
  | accept rule rest ih => exact ih next _ hnext
  | decline rule rest ih => exact ih next _ hnext

theorem follow_tree (p : Program) (choices : Choices) (d : Derivation) :
    (p.tree d).follow choices = p.run (d.withChoices choices) := by
  have h := follow_treeThen p .leaf choices d fun e => rfl
  rw [tree, h]
  exact Derivation.withChoices_eq_self (by simp)

-- A ledger only grows, so what is accepted at a node is in every ledger behind it.
theorem ledger_prefix_treeThen (p : Program) (next : Derivation → DecisionTree)
    (d : Derivation) (hnext : ∀ e, ∀ l ∈ (next e).leaves, e.ledger <+: l.ledger) :
    ∀ l ∈ (p.treeThen next d).leaves, d.ledger <+: l.ledger := by
  induction p generalizing next d with
  | halt => exact hnext d
  | push t rest ih => exact ih next _ hnext
  | append s rest ih => exact ih next _ hnext
  | optional rule s accepted declined rest iha ihd ihr =>
      intro l hl
      rcases List.mem_append.mp hl with hl | hl
      · refine (List.prefix_append d.ledger [⟨rule, .accepted⟩]).trans ?_
        simpa using iha _ _ (fun e => ihr next e hnext) l hl
      · exact (List.prefix_append d.ledger [⟨rule, .declined⟩]).trans
          (ihd _ _ (fun e => ihr next e hnext) l hl)
  | ifText s same different rest ihs ihd ihr =>
      simp only [treeThen]
      split
      · exact ihs _ _ fun e => ihr next e hnext
      · exact ihd _ _ fun e => ihr next e hnext
  | step rule rest ih =>
      intro l hl
      simpa using ih next (d.record rule) hnext l hl
  | accept rule rest ih =>
      intro l hl
      exact (List.prefix_append d.ledger _).trans (ih next _ hnext l hl)
  | decline rule rest ih =>
      intro l hl
      exact (List.prefix_append d.ledger _).trans (ih next _ hnext l hl)

theorem logged_treeThen (p : Program) (next : Derivation → DecisionTree) (d : Derivation)
    (hledger : ∀ e, ∀ l ∈ (next e).leaves, e.ledger <+: l.ledger)
    (hnext : ∀ e, (next e).Logged) : (p.treeThen next d).Logged := by
  induction p generalizing next d with
  | halt => exact hnext d
  | push t rest ih => exact ih next _ hledger hnext
  | append s rest ih => exact ih next _ hledger hnext
  | optional rule s accepted declined rest iha ihd ihr =>
      have hprefix (e : Derivation) : ∀ l ∈ (rest.treeThen next e).leaves,
          e.ledger <+: l.ledger := ledger_prefix_treeThen rest next e hledger
      have hrest (e : Derivation) : (rest.treeThen next e).Logged := ihr next e hledger hnext
      refine ⟨fun l hl => ?_, iha _ _ hprefix hrest, ihd _ _ hprefix hrest⟩
      have hl := ledger_prefix_treeThen accepted _ _ hprefix l hl
      exact hl.subset (by simp)
  | ifText s same different rest ihs ihd ihr =>
      have hprefix (e : Derivation) : ∀ l ∈ (rest.treeThen next e).leaves,
          e.ledger <+: l.ledger := ledger_prefix_treeThen rest next e hledger
      simp only [treeThen]
      split
      · exact ihs _ _ hprefix fun e => ihr next e hledger hnext
      · exact ihd _ _ hprefix fun e => ihr next e hledger hnext
  | step rule rest ih => exact ih next _ hledger hnext
  | accept rule rest ih => exact ih next _ hledger hnext
  | decline rule rest ih => exact ih next _ hledger hnext

theorem logged_tree (p : Program) (d : Derivation) : (p.tree d).Logged := by
  apply logged_treeThen p .leaf d
  · intro e l hl
    obtain rfl : l = e := by simpa [DecisionTree.leaves] using hl
    exact List.prefix_rfl
  · exact fun e => trivial

-- What a ledger of the program names is named by the program.
theorem mem_rules_of_mem_treeThen (p : Program) (next : Derivation → DecisionTree)
    (d : Derivation) (known : List Rule)
    (hd : ∀ x ∈ d.ledger, x.rule ∈ known) (hp : ∀ rule ∈ p.rules, rule ∈ known)
    (hnext : ∀ e, (∀ x ∈ e.ledger, x.rule ∈ known) →
      ∀ l ∈ (next e).leaves, ∀ x ∈ l.ledger, x.rule ∈ known) :
    ∀ l ∈ (p.treeThen next d).leaves, ∀ x ∈ l.ledger, x.rule ∈ known := by
  induction p generalizing next d with
  | halt => exact hnext d hd
  | push t rest ih => exact ih next _ hd hp hnext
  | append s rest ih => exact ih next _ hd hp hnext
  | optional rule s accepted declined rest iha ihd ihr =>
      simp only [rules, List.mem_cons, List.mem_append, forall_eq_or_imp] at hp
      have hrest (e : Derivation) (he : ∀ x ∈ e.ledger, x.rule ∈ known) :=
        ihr next e he (fun r hr => hp.2 r (.inr hr)) hnext
      intro l hl
      rcases List.mem_append.mp hl with hl | hl
      · refine iha _ _ ?_ (fun r hr => hp.2 r (.inl (.inl hr))) hrest l hl
        simpa [or_imp, forall_and] using ⟨hd, hp.1⟩
      · refine ihd _ _ ?_ (fun r hr => hp.2 r (.inl (.inr hr))) hrest l hl
        simpa [or_imp, forall_and] using ⟨hd, hp.1⟩
  | ifText s same different rest ihs ihd ihr =>
      simp only [rules, List.mem_append] at hp
      have hrest (e : Derivation) (he : ∀ x ∈ e.ledger, x.rule ∈ known) :=
        ihr next e he (fun r hr => hp r (.inr hr)) hnext
      simp only [treeThen]
      split
      · exact ihs _ _ hd (fun r hr => hp r (.inl (.inl hr))) hrest
      · exact ihd _ _ hd (fun r hr => hp r (.inl (.inr hr))) hrest
  | step rule rest ih => exact ih next _ (by simpa using hd) hp hnext
  | accept rule rest ih =>
      simp only [rules, List.mem_cons, forall_eq_or_imp] at hp
      refine ih next _ ?_ hp.2 hnext
      simpa [or_imp, forall_and] using ⟨hd, hp.1⟩
  | decline rule rest ih =>
      simp only [rules, List.mem_cons, forall_eq_or_imp] at hp
      refine ih next _ ?_ hp.2 hnext
      simpa [or_imp, forall_and] using ⟨hd, hp.1⟩

theorem rules_tree (p : Program) (choices : Choices) (recording : Bool) (table : FeatureTable) :
    ∀ l ∈ (p.tree (.start choices recording table)).leaves, ∀ x ∈ l.ledger, x.rule ∈ p.rules := by
  apply mem_rules_of_mem_treeThen p .leaf _ p.rules
  · simp [Derivation.start]
  · exact fun rule hr => hr
  · intro e he l hl
    obtain rfl : l = e := by simpa [DecisionTree.leaves] using hl
    exact he

end Program

end Vyakarana
