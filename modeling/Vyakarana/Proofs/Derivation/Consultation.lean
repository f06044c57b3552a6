import Vyakarana.Proofs.Choice.DecisionTree
import Vyakarana.Proofs.Derivation.Retelling

/-!
Steps whose ledger tells all that they have asked.

A step may ask the choices about a rule if it notes the answer, whichever it is. Then other choices
that agree on the rules of the ledger cannot be told from the ones it was made with: the step goes
the same way and leaves the same derivation.
-/

namespace Vyakarana

namespace Retelling

-- The ledger is told as it is, and only by the choices can other choices be told.
structure Candid (φ : Retelling) : Prop where
  ledger : ∀ d, (φ.tell d).ledger = d.ledger
  note : ∀ d x, (φ.tell d).note x = φ.tell (d.note x)
  choices : ∀ {d e : Derivation}, e.choices = d.choices → (φ.tell e).choices = (φ.tell d).choices

-- The rules of the ledger are taken by the retelling as `d` takes them.
def Abides (φ : Retelling) (d : Derivation) (ledger : List Decision) : Prop :=
  ∀ x ∈ ledger, (d.retold φ).choices.permits x.rule = d.choices.permits x.rule

theorem candid_silence : silence.Candid where
  ledger _ := rfl
  note _ _ := rfl
  choices h := h

theorem candid_rechoose (choices : Choices) : (rechoose choices id).Candid where
  ledger _ := rfl
  note _ _ := rfl
  choices _ := rfl

end Retelling

variable {φ : Retelling} {α β : Type}

-- A step with an answer. It adds to the ledger the decisions at the rules that it asks for.
structure Accountable (f : Derivation → α × Derivation) : Prop where
  choices : ∀ d, (f d).2.choices = d.choices
  ledger : ∀ d, ∃ asked : List Rule, (f d).2.ledger = d.ledger ++ asked.map d.choices.decide
  replays : ∀ {φ : Retelling}, φ.Candid → ∀ d, φ.Abides d (f d).2.ledger →
    f (d.retold φ) = ((f d).1, (f d).2.retold φ)

namespace Accountable

-- A step that does not look at the choices can neither exchange them nor add to the ledger.
theorem of_impartial {f : Derivation → α × Derivation}
    (h : ∀ φ d, f (d.retold φ) = ((f d).1, (f d).2.retold φ)) : Accountable f := by
  have hkept (d : Derivation) : (f d).2.choices = d.choices ∧ (f d).2.ledger = d.ledger := by
    have hself : f d = ((f d).1, (f d).2.retold (.rechoose d.choices fun _ => d.ledger)) :=
      h (.rechoose d.choices fun _ => d.ledger) d
    rw [hself]
    exact ⟨rfl, rfl⟩
  exact ⟨fun d => (hkept d).1, fun d => ⟨[], by simpa using (hkept d).2⟩, fun _ d _ => h _ d⟩

theorem bind {f : Derivation → α × Derivation} {g : α → Derivation → β × Derivation}
    (hf : Accountable f) (hg : ∀ a, Accountable (g a)) :
    Accountable fun d => g (f d).1 (f d).2 where
  choices d := ((hg _).choices _).trans (hf.choices d)
  ledger d := by
    obtain ⟨first, hfirst⟩ := hf.ledger d
    obtain ⟨second, hsecond⟩ := (hg (f d).1).ledger (f d).2
    exact ⟨first ++ second, by rw [hsecond, hf.choices, hfirst, List.map_append, List.append_assoc]⟩
  replays {φ} hφ d habides := by
    have hstep : f (d.retold φ) = ((f d).1, (f d).2.retold φ) := by
      refine hf.replays hφ d fun x hx => habides x ?_
      obtain ⟨second, hsecond⟩ := (hg (f d).1).ledger (f d).2
      rw [hsecond]
      exact List.mem_append_left _ hx
    have hsame : ((f d).2.retold φ).choices = (d.retold φ).choices := hφ.choices (hf.choices d)
    simp only [hstep]
    refine (hg _).replays hφ _ fun x hx => ?_
    rw [hsame, hf.choices]
    exact habides x hx

-- What a step does may hang on anything that all retellings have in common.
theorem of_retold {f : Derivation → α × Derivation}
    (h : ∀ d : Derivation, ∃ g, Accountable g ∧ ∀ φ, f (d.retold φ) = g (d.retold φ)) :
    Accountable f := by
  have hself (d : Derivation) : ∃ g, Accountable g ∧ f d = g d ∧
      ∀ φ, f (d.retold φ) = g (d.retold φ) := by
    obtain ⟨g, hg, heq⟩ := h d
    exact ⟨g, hg, heq (.rechoose d.choices fun _ => d.ledger), heq⟩
  refine ⟨fun d => ?_, fun d => ?_, fun hφ d habides => ?_⟩
  all_goals obtain ⟨g, hg, heq, hretold⟩ := hself d
  · rw [heq, hg.choices]
  · rw [heq]
    exact hg.ledger d
  · rw [heq] at habides ⊢
    rw [hretold, hg.replays hφ d habides]

end Accountable

namespace Derivation

-- The choices are asked, and the answer is noted.
def ask (rule : Rule) (d : Derivation) : Bool × Derivation :=
  (d.choices.permits rule, d.note (d.choices.decide rule))

theorem accountable_ask (rule : Rule) : Accountable (ask rule) where
  choices _ := rfl
  ledger _ := ⟨[rule], rfl⟩
  replays {φ} hφ d habides := by
    have hsame : (d.retold φ).choices.permits rule = d.choices.permits rule :=
      habides (d.choices.decide rule) (by simp [ask, note])
    have hnote : (d.retold φ).note (d.choices.decide rule) =
        (d.note (d.choices.decide rule)).retold φ := hφ.note d _
    rw [ask, ask, Choices.decide, hsame, ← hnote, Choices.decide]

-- A rule is consulted, and if it is refused that is noted.
theorem accountable_consult (rule : Rule) {a b : Derivation → α × Derivation} (ha : Accountable a)
    (hb : Accountable b) :
    Accountable fun d =>
      match d.consult rule with
      | (true, d) => a d
      | (false, d) => b (d.decline rule) := by
  have hasked : ∀ d : Derivation, (match d.consult rule with
      | (true, d) => a d
      | (false, d) => b (d.decline rule)) = (d.ask rule).1.casesOn b a (d.ask rule).2 := by
    intro d
    rcases consult_cases rule d with ⟨hpermits, heq⟩ | ⟨hpermits, heq⟩
    · rw [heq, ask, Choices.decide, hpermits]
      rfl
    · rw [heq, ask, Choices.decide, hpermits]
      rfl
  rw [funext hasked]
  refine (accountable_ask rule).bind fun permitted => ?_
  cases permitted with
  | false => exact hb
  | true => exact ha

theorem accountable_optionally (rule : Rule) {f : Derivation → Derivation}
    (hf : ∀ φ d, f (d.retold φ) = (f d).retold φ) : Accountable (optionally rule f) :=
  accountable_consult rule (a := fun d => (true, (f d).record rule)) (b := fun d => (false, d))
    (.of_impartial fun φ d => by rw [hf, record_retold]) (.of_impartial fun _ _ => rfl)

end Derivation

namespace Outcome

def fault? : Outcome → Option Fault
  | .done _ => none
  | .failed fault _ => some fault

-- The derivation that a rule has left, whole or cut short.
def left : Outcome → Derivation
  | .done d => d
  | .failed _ d => d

def report (o : Outcome) : Option Fault × Derivation := (o.fault?, o.left)

theorem report_retold (o : Outcome) : (o.retold φ).report = (o.fault?, o.left.retold φ) := by
  cases o <;> rfl

theorem eq_of_report {o o' : Outcome} (h : o.report = o'.report) : o = o' := by
  obtain ⟨hfault, hleft⟩ := Prod.mk.inj h
  cases o with
  | done d =>
      cases o' with
      | done e => exact congrArg done hleft
      | failed fault e => cases hfault
  | failed fault d =>
      cases o' with
      | done e => cases hfault
      | failed fault' e => rw [Option.some.inj hfault, show d = e from hleft]

-- After a fault nothing follows.
def reportNext (next : Derivation → Outcome) : Option Fault → Derivation → Option Fault × Derivation
  | none, d => (next d).report
  | some fault, d => (some fault, d)

theorem report_andThen (o : Outcome) (next : Derivation → Outcome) :
    (o.andThen next).report = reportNext next o.fault? o.left := by
  cases o <;> rfl

end Outcome

-- A rule that may fail, taken as a step whose answer is the fault.
def AccountableRule (f : Derivation → Outcome) : Prop := Accountable fun d => (f d).report

namespace AccountableRule

theorem of_impartial {f : Derivation → Outcome} (h : ∀ φ d, f (d.retold φ) = (f d).retold φ) :
    AccountableRule f := by
  refine Accountable.of_impartial fun φ d => ?_
  rw [h]
  exact Outcome.report_retold (f d)

theorem done {f : Derivation → Derivation} (h : ∀ φ d, f (d.retold φ) = (f d).retold φ) :
    AccountableRule fun d => .done (f d) :=
  of_impartial fun φ d => by rw [h, Outcome.retold_done]

theorem andThen {f g : Derivation → Outcome} (hf : AccountableRule f) (hg : AccountableRule g) :
    AccountableRule fun d => (f d).andThen g := by
  rw [AccountableRule, funext fun d => Outcome.report_andThen (f d) g]
  refine Accountable.bind hf fun fault? => ?_
  cases fault? with
  | none => exact hg
  | some fault => exact .of_impartial fun _ _ => rfl

theorem map {f : Derivation → Outcome} {g : Derivation → Derivation} (hf : AccountableRule f)
    (hg : AccountableRule fun d => .done (g d)) : AccountableRule fun d => (f d).map g :=
  hf.andThen hg

theorem of_retold {f : Derivation → Outcome}
    (h : ∀ d : Derivation, ∃ g, AccountableRule g ∧ ∀ φ, f (d.retold φ) = g (d.retold φ)) :
    AccountableRule f := by
  refine Accountable.of_retold fun d => ?_
  obtain ⟨g, hg, heq⟩ := h d
  exact ⟨_, hg, fun φ => congrArg Outcome.report (heq φ)⟩

theorem self : AccountableRule .done := of_impartial fun _ _ => rfl

-- The answer of a step says which rule follows.
theorem bind {f : Derivation → α × Derivation} {g : α → Derivation → Outcome} (hf : Accountable f)
    (hg : ∀ a, AccountableRule (g a)) : AccountableRule fun d => g (f d).1 (f d).2 :=
  Accountable.bind hf hg

theorem branch {f : Derivation → Bool × Derivation} {a b : Derivation → Outcome}
    (hf : Accountable f) (ha : AccountableRule a) (hb : AccountableRule b) :
    AccountableRule fun d => if (f d).1 then a (f d).2 else b (f d).2 := by
  refine bind (g := fun answer d => if answer then a d else b d) hf fun answer => ?_
  cases answer with
  | false => exact hb
  | true => exact ha

theorem replays {f : Derivation → Outcome} (hf : AccountableRule f) (hφ : φ.Candid)
    (d : Derivation) (habides : φ.Abides d (f d).left.ledger) :
    f (d.retold φ) = (f d).retold φ := by
  apply Outcome.eq_of_report
  exact (Accountable.replays hf hφ d habides).trans (Outcome.report_retold (f d)).symm

end AccountableRule

end Vyakarana
