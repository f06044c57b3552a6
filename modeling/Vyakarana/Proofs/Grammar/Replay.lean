import Vyakarana.Proofs.Choice.Traversal
import Vyakarana.Proofs.Choice.Visits
import Vyakarana.Proofs.Grammar.Ledger
import Vyakarana.Proofs.Grammar.Recording

/-!
A ledger determines its run.

Choices that agree on the rules of the ledger lead to the same derivation, since nothing has been
asked that the ledger does not tell. The choices that are read off the ledger are such.
-/

namespace Vyakarana

namespace Choices

-- The choices that have led to the decisions of a ledger.
def ofLedger (ledger : List Decision) : Choices :=
  ledger.map fun x => (x.rule, x.verdict.permission)

theorem permission_decide (choices : Choices) (rule : Rule) :
    (choices.decide rule).verdict.permission = choices.taken rule := by
  have hpermits : choices.permits rule = (choices.taken rule == .allow) := rfl
  rw [decide, hpermits]
  cases choices.taken rule <;> rfl

-- A rule that has been asked several times has several entries, which are all the same.
theorem taken_ofLedger (choices : Choices) {asked : List Rule} {rule : Rule} (h : rule ∈ asked) :
    (ofLedger (asked.map choices.decide)).taken rule = choices.taken rule := by
  induction asked with
  | nil => cases h
  | cons first rest ih =>
      by_cases hfirst : rule = first
      · subst hfirst
        have hlookup : (ofLedger ((rule :: rest).map choices.decide)).lookup rule =
            some (choices.decide rule).verdict.permission := by
          simp [ofLedger, Choices.decide]
        rw [taken, hlookup, Option.getD_some, permission_decide]
      · have hlookup : (ofLedger ((first :: rest).map choices.decide)).lookup rule =
            (ofLedger (rest.map choices.decide)).lookup rule := by
          simp [ofLedger, Choices.decide, List.lookup_cons, beq_eq_false_iff_ne.mpr hfirst]
        rw [taken, hlookup]
        exact ih ((List.mem_cons.mp h).resolve_left hfirst)

end Choices

namespace AccountableRule

variable {f : Derivation → Outcome} (hf : AccountableRule f) (recording : Bool)
  (table : FeatureTable)
include hf

theorem run_eq_of_taken {choices others : Choices}
    (h : ∀ x ∈ (f (.start choices recording table)).left.ledger,
      others.taken x.rule = choices.taken x.rule) :
    f (.start others recording table) =
      (f (.start choices recording table)).retold (.rechoose others id) :=
  hf.replays (Retelling.candid_rechoose others) _ fun x hx =>
    (Choices.taken_eq_iff_permits_eq others choices x.rule).mp (h x hx)

theorem run_ofLedger {choices : Choices} {d : Derivation}
    (h : f (.start choices recording table) = .done d) :
    f (.start (.ofLedger d.ledger) recording table) =
      .done (d.withChoices (.ofLedger d.ledger)) := by
  obtain ⟨asked, hasked⟩ := hf.ledger (.start choices recording table)
  rw [h] at hasked
  have hledger : d.ledger = asked.map choices.decide := hasked
  have htaken : ∀ x ∈ (f (.start choices recording table)).left.ledger,
      (Choices.ofLedger d.ledger).taken x.rule = choices.taken x.rule := by
    intro x hx
    rw [h, Outcome.left, hledger] at hx
    obtain ⟨rule, hrule, rfl⟩ := List.mem_map.mp hx
    rw [hledger]
    exact choices.taken_ofLedger hrule
  rw [hf.run_eq_of_taken recording table htaken, h]
  rfl

end AccountableRule

theorem Program.accountable_run {p : Program} (hp : p.WritesNoDecision) :
    AccountableRule fun d => .done (p.run d) := by
  induction p with
  | halt => exact .self
  | push t rest ih => exact (AccountableRule.done (Derivation.push_retold · · t)).andThen (ih hp)
  | append s rest ih => exact (AccountableRule.done (appendToFirst_retold · s ·)).andThen (ih hp)
  | optional rule s accepted declined rest iha ihd ihr =>
      obtain ⟨ha, hd, hr⟩ := hp
      have hbranch := AccountableRule.branch (accountable_optionally rule s)
        ((iha ha).andThen (ihr hr)) ((ihd hd).andThen (ihr hr))
      convert hbranch using 2 with d
      rw [run]
      rcases d.optionally rule (appendToFirst s) with ⟨_ | _, e⟩ <;> rfl
  | ifText s same different rest ihs ihd ihr =>
      obtain ⟨hs, hd, hr⟩ := hp
      refine .of_retold fun d => ?_
      by_cases htext : d.text = s
      · exact ⟨_, (ihs hs).andThen (ihr hr), fun φ => by simp [run, htext]⟩
      · exact ⟨_, (ihd hd).andThen (ihr hr), fun φ => by simp [run, htext]⟩
  | step rule rest ih =>
      exact (AccountableRule.done (Derivation.record_retold · · rule)).andThen (ih hp)
  | accept rule rest ih => exact hp.elim
  | decline rule rest ih => exact hp.elim

-- Other choices that take the rules of the ledger as they were taken lead to the same derivation,
-- or to the same fault, with the same ledger and history. In particular each result can be had
-- again with the choices that are read off its ledger. A program has this property as long as it
-- writes no decision of its own.
theorem ledger_determines_run (recording : Bool) (table : FeatureTable) :
    (∀ root form choices others,
      (∀ x ∈ (conjugationRun root form recording table choices).left.ledger,
        Choices.taken others x.rule = Choices.taken choices x.rule) →
      (conjugationRun root form recording table others).fault? =
          (conjugationRun root form recording table choices).fault? ∧
        (conjugationRun root form recording table others).left =
          (conjugationRun root form recording table choices).left.withChoices others) ∧
    (∀ root form forms, verbForms root form recording table = .ok forms → ∀ d ∈ forms,
      conjugationRun root form recording table (.ofLedger d.ledger) =
        .done (d.withChoices (.ofLedger d.ledger))) ∧
    ∀ p : Program, p.WritesNoDecision →
      (∀ choices others,
        (∀ x ∈ (p.run (.start choices recording table)).ledger,
          Choices.taken others x.rule = Choices.taken choices x.rule) →
        p.run (.start others recording table) =
          (p.run (.start choices recording table)).withChoices others) ∧
      ∀ ds, p.runs recording table = .ok ds → ∀ d ∈ ds,
        p.run (.start (.ofLedger d.ledger) recording table) =
          d.withChoices (.ofLedger d.ledger) := by
  refine ⟨fun root form choices others h => ?_, fun root form forms hforms d hd => ?_, ?_⟩
  · have hrun : conjugationRun root form recording table others =
        (conjugationRun root form recording table choices).retold (.rechoose others id) :=
      (Derivation.accountable_conjugate root form).run_eq_of_taken recording table h
    rw [hrun]
    cases conjugationRun root form recording table choices <;> exact ⟨rfl, rfl⟩
  · obtain ⟨choices, hrun⟩ := run_of_mem_verbForms hforms hd
    exact (Derivation.accountable_conjugate root form).run_ofLedger recording table hrun
  · intro p hp
    have haccountable := Program.accountable_run hp
    refine ⟨fun choices others h => ?_, fun ds hds d hd => ?_⟩
    · exact Outcome.done.inj (haccountable.run_eq_of_taken recording table h)
    · obtain ⟨choices, hrun⟩ := (Run.explores_of_explore hds).sound d hd
      exact Outcome.done.inj (haccountable.run_ofLedger recording table hrun)

def rootNi : Root := ⟨"RI\\Y".toList, 1, none, some 1049⟩

def talForm : VerbForm := ⟨.lit, .madhyama, .eka, .kartari⟩

-- The root may take either set of endings. With the atmanepada endings the augment before Tal is
-- not asked about, so that it makes no difference how 7.2.63 would be taken.
theorem replay_of_ni :
    (∃ d, conjugationRun rootNi talForm true .standard [] = .done d ∧
      d.ledger = [⟨"1.3.72", .accepted⟩] ∧
      (conjugationRun rootNi talForm true .standard [("7.2.63", .ignore)]).left =
        d.withChoices [("7.2.63", .ignore)]) ∧
    (∃ forms, verbForms rootNi talForm true .standard = .ok forms ∧ forms ≠ [] ∧
      ∀ d ∈ forms, conjugationRun rootNi talForm true .standard (.ofLedger d.ledger) =
        .done (d.withChoices (.ofLedger d.ledger))) ∧
    pairOfRules.WritesNoDecision ∧
      pairOfRules.run (.start [("A", .allow), ("C", .ignore)] true .standard) =
        (pairOfRules.run (.start [] true .standard)).withChoices [("A", .allow), ("C", .ignore)] ∧
      ∃ ds, pairOfRules.runs true .standard = .ok ds ∧ ds ≠ [] ∧ ∀ d ∈ ds,
        pairOfRules.run (.start (.ofLedger d.ledger) true .standard) =
          d.withChoices (.ofLedger d.ledger) := by
  have hwrites : pairOfRules.WritesNoDecision := by simp [pairOfRules, Program.WritesNoDecision]
  obtain ⟨hruns, hforms, hprograms⟩ := ledger_determines_run true .standard
  obtain ⟨hprogram, hresults⟩ := hprograms pairOfRules hwrites
  refine ⟨?_, ?_, hwrites, ?_, ?_⟩
  · have hclear : ∀ c ∈ markless, ¬[c, '~'] <:+: rootNi.upadesha.beforeIr := by decide
    obtain ⟨d, hd, -⟩ := conjugation_names hclear talForm true []
    have hledger : d.ledger = [⟨"1.3.72", .accepted⟩] :=
      (run_decides (by decide) (by decide) hd).1.trans (by decide +kernel)
    have hleft := (hruns rootNi talForm [] [("7.2.63", .ignore)] fun x hx => by
      rw [hd, Outcome.left, hledger] at hx
      rw [List.mem_singleton.mp hx]
      rfl).2
    rw [hd] at hleft
    exact ⟨d, hd, hledger, hleft⟩
  · obtain ⟨forms, hok, hne⟩ := @exists_verbForms rootNi talForm (by decide) (by decide)
      (by decide) true
    exact ⟨forms, hok, hne, hforms rootNi talForm forms hok⟩
  · refine hprogram [] _ fun x hx => ?_
    have hledger : (pairOfRules.run (.start [] true .standard)).ledger =
        [⟨"A", .accepted⟩, ⟨"B", .accepted⟩] := by decide +kernel
    rw [hledger] at hx
    revert x
    decide
  · obtain ⟨ds, hds⟩ := Run.all_ok (pairOfRules.names_run true .standard)
    obtain ⟨d, later, hcons, -⟩ := Run.all_head hds
    exact ⟨ds, hds, hcons ▸ List.cons_ne_nil d later, hresults ds hds⟩

end Vyakarana
