import Vyakarana.Grammar.Forms
import Vyakarana.Proofs.Choice.Completeness
import Vyakarana.Proofs.Grammar.Consultation

/-!
Whether steps are noted makes no difference to anything but the history.

A derivation goes the same way in silence, so its ledger is the same, and since the search sees of
a run its ledger only, the same runs are made in the same order, and the same of them are kept.
-/

namespace Vyakarana

-- Something else is told of the derivation, whether it is whole or cut short.
def Outcome.told (tell : Derivation → Derivation) : Outcome → Outcome
  | .done d => .done (tell d)
  | .failed fault d => .failed fault (tell d)

theorem Outcome.retold_eq_told (φ : Retelling) (o : Outcome) : o.retold φ = o.told φ.tell := by
  cases o <;> rfl

-- A search whose runs are told otherwise finds the same derivations, told otherwise.
theorem Run.explore_told (tell : Derivation → Derivation)
    (hledger : ∀ d, (tell d).ledger = d.ledger) {run other : Run}
    (h : ∀ choices, other choices = (run choices).told tell) (limit : Nat) (a : Agenda) :
    other.explore limit a = (run.explore limit a).map (List.map tell) := by
  induction limit generalizing a with
  | zero => rcases a with ⟨_ | ⟨choices, rest⟩, known⟩ <;> rfl
  | succ limit ih =>
      rcases a with ⟨_ | ⟨choices, rest⟩, known⟩
      · rfl
      · have hrun := h choices
        rcases hd : run choices with d | ⟨fault, d⟩
        · rw [hd, Outcome.told] at hrun
          simp only [explore, hd, hrun, hledger, ih]
          cases run.explore limit
            (Agenda.enlistAll ⟨rest, known⟩ (choices.branches d.ledger)) <;> rfl
        · rw [hd, Outcome.told] at hrun
          simp only [explore, hd, hrun]
          rfl

-- The same forms are found and kept, and told otherwise.
theorem verbForms_told (tell : Derivation → Derivation)
    (hledger : ∀ d, (tell d).ledger = d.ledger) (htext : ∀ d, (tell d).text = d.text)
    {root root' : Root} {form form' : VerbForm} {recording recording' : Bool}
    {table : FeatureTable} (hgana : root'.gana = root.gana) (hlakara : form'.lakara = form.lakara)
    (h : ∀ choices, conjugationRun root' form' recording' table choices =
      (conjugationRun root form recording table choices).told tell) :
    verbForms root' form' recording' table =
      (verbForms root form recording table).map (List.map tell) := by
  have hruns : (conjugationRun root' form' recording' table).all optionalRules =
      ((conjugationRun root form recording table).all optionalRules).map (List.map tell) :=
    Run.explore_told tell hledger h _ _
  have hsupported : unsupported? root' form'.lakara = unsupported? root form.lakara := by
    rw [unsupported?, hgana, hlakara, unsupported?]
  unfold verbForms
  rw [hruns, hsupported]
  rcases unsupported? root form.lakara with _ | reason
  · rcases (conjugationRun root form recording table).all optionalRules with fault | ds
    · rfl
    · exact congrArg Except.ok (firstOfTextFrom_map htext [] ds).symm
  · rfl

theorem firstOfEachText_retold (φ : Retelling) (ds : List Derivation) :
    firstOfEachText (ds.map (·.retold φ)) = (firstOfEachText ds).map (·.retold φ) :=
  (firstOfTextFrom_map (fun d => d.text_retold φ) [] ds).symm

-- The choices do not change, so whatever accounts for them goes the same way in silence.
theorem AccountableRule.silenced {f : Derivation → Outcome} (hf : AccountableRule f)
    (d : Derivation) : f d.silenced = (f d).retold .silence :=
  hf.replays Retelling.candid_silence d fun _ _ => rfl

namespace Program

@[simp] theorem appendToFirst_retold (φ : Retelling) (s : Text) (d : Derivation) :
    appendToFirst s (d.retold φ) = (appendToFirst s d).retold φ :=
  d.update_retold φ 0 _

theorem accountable_optionally (rule : Rule) (s : Text) :
    Accountable (Derivation.optionally rule (appendToFirst s)) :=
  Derivation.accountable_optionally rule fun φ d => appendToFirst_retold φ s d

theorem run_silenced (p : Program) (d : Derivation) :
    p.run d.silenced = (p.run d).silenced := by
  induction p generalizing d with
  | halt => rfl
  | push t rest ih => exact (congrArg rest.run (d.push_retold .silence t)).trans (ih _)
  | append s rest ih => exact (congrArg rest.run (appendToFirst_retold .silence s d)).trans (ih _)
  | optional rule s accepted declined rest iha ihd ihr =>
      have hstep : d.silenced.optionally rule (appendToFirst s) =
          ((d.optionally rule (appendToFirst s)).1,
            (d.optionally rule (appendToFirst s)).2.silenced) :=
        (accountable_optionally rule s).replays Retelling.candid_silence d fun _ _ => rfl
      simp only [run, hstep]
      rcases d.optionally rule (appendToFirst s) with ⟨_ | _, e⟩
      · exact (congrArg rest.run (ihd e)).trans (ihr _)
      · exact (congrArg rest.run (iha e)).trans (ihr _)
  | ifText s same different rest ihs ihd ihr =>
      have htext : d.silenced.text = d.text := rfl
      simp only [run, htext]
      split
      · rw [ihs, ihr]
      · rw [ihd, ihr]
  | step rule rest ih => exact (congrArg rest.run (d.record_retold .silence rule)).trans (ih _)
  | accept rule rest ih => exact ih (d.accept rule)
  | decline rule rest ih => exact ih (d.decline rule)

theorem runs_silenced (p : Program) (table : FeatureTable) :
    p.runs false table = (p.runs true table).map (List.map (·.silenced)) :=
  Run.explore_told Derivation.silenced (fun _ => rfl)
    (fun choices => congrArg Outcome.done (p.run_silenced (.start choices true table))) _ _

end Program

theorem verbForms_silenced (root : Root) (form : VerbForm) (table : FeatureTable) :
    verbForms root form false table =
      (verbForms root form true table).map (List.map (·.silenced)) := by
  refine verbForms_told Derivation.silenced (fun _ => rfl) (fun _ => rfl) rfl rfl fun choices => ?_
  exact ((Derivation.accountable_conjugate root form).silenced (.start choices true table)).trans
    (Outcome.retold_eq_told _ _)

-- Whether steps are noted or not, there is the same error or there are as many results, and each is
-- the same but for its history, which is empty when they are not. So it is with all runs of a
-- program and with those of them that are kept.
theorem recording_does_not_interfere (table : FeatureTable) :
    (∀ root form, verbForms root form false table =
      (verbForms root form true table).map (List.map (·.silenced))) ∧
    ∀ p : Program,
      p.runs false table = (p.runs true table).map (List.map (·.silenced)) ∧
      (p.runs false table).map firstOfEachText =
        ((p.runs true table).map firstOfEachText).map (List.map (·.silenced)) := by
  refine ⟨fun root form => verbForms_silenced root form table, fun p => ?_⟩
  refine ⟨p.runs_silenced table, ?_⟩
  rw [p.runs_silenced]
  rcases p.runs true table with fault | ds
  · rfl
  · exact congrArg Except.ok (firstOfEachText_retold .silence ds)

end Vyakarana
