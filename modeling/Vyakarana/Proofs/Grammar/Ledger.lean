import Vyakarana.Proofs.Choice.Traversal
import Vyakarana.Proofs.Grammar.OptionalRules

/-!
The ledger of a verb form, and how many forms there are.

The optional rules of a form are those of a decision tree with three leaves at the most: the set of
endings is settled first, and only the parasmaipada endings leave another choice. The search makes
one run along each path of the tree.
-/

namespace Vyakarana

namespace DecisionTree

-- A leaf that tells how it was reached, and a last choice before it.
def report (way : List Decision) : DecisionTree :=
  .leaf { Derivation.start [] false .standard with ledger := way }

def reportAfter (way : List Decision) : Option Rule → DecisionTree
  | none => report way
  | some rule =>
    .node rule (report (way ++ [⟨rule, .accepted⟩])) (report (way ++ [⟨rule, .declined⟩]))

variable (way : List Decision) (rule? : Option Rule)

theorem reports_reportAfter : (reportAfter way rule?).Reports way := by
  cases rule? with
  | none => exact rfl
  | some rule => exact ⟨rfl, rfl⟩

theorem ledger_follow_reportAfter (choices : Choices) :
    ((reportAfter way rule?).follow choices).ledger =
      way ++ (rule?.map choices.decide).toList := by
  cases rule? with
  | none => exact (List.append_nil way).symm
  | some rule =>
      simp only [reportAfter, report, follow, Option.map_some, Option.toList_some, Choices.decide]
      split <;> rfl

end DecisionTree

-- The choices that a form leaves.
def Root.decisionTree (root : Root) (form : VerbForm) : DecisionTree :=
  match root.padaChoice form.prayoga with
  | .settled pada => .reportAfter [] (root.endingRule? form pada)
  | .optional rule =>
    .node rule (.reportAfter [⟨rule, .accepted⟩] (root.endingRule? form .atmanepada))
      (.reportAfter [⟨rule, .declined⟩] (root.endingRule? form .parasmaipada))

-- The optional rules of the set of endings, and of the ending Tal.
def padaRules : List Rule := ["1.3.72", "1.3.74"]
def talRules : List Rule := ["7.2.62", "7.2.63", "7.2.65"]

theorem Term.mem_talRules {root : Term} {rule : Rule} (h : root.talRule? = some rule) :
    rule ∈ talRules := by
  unfold Term.talRule? at h
  repeat' split at h
  all_goals cases h
  all_goals decide

namespace Root

variable {root : Root} {form : VerbForm} {choices : Choices} {pada : Pada} {rule : Rule}

theorem mem_padaRules {prayoga : Prayoga} (h : root.padaChoice prayoga = .optional rule) :
    rule ∈ padaRules := by
  unfold padaChoice at h
  repeat' split at h
  all_goals cases h
  all_goals decide

-- When an ending has an optional rule, and which.
theorem endingRule?_eq_some (h : root.endingRule? form pada = some rule) :
    form.lakara = .lit ∧ pada = .parasmaipada ∧ form.vacana = .eka ∧
      (form.purusha = .madhyama ∧ rule ∈ talRules ∨ form.purusha = .uttama ∧ rule = "7.1.91") := by
  unfold endingRule? at h
  split at h
  · rename_i heka
    refine ⟨heka.1, heka.2.1, heka.2.2, ?_⟩
    split at h
    · cases h
    · rename_i hpurusha
      exact .inl ⟨hpurusha, Term.mem_talRules h⟩
    · rename_i hpurusha
      cases h
      exact .inr ⟨hpurusha, rfl⟩
  · cases h

theorem endingRule?_atmanepada (root : Root) (form : VerbForm) :
    root.endingRule? form .atmanepada = none := by
  simp [endingRule?]

theorem reports_decisionTree (root : Root) (form : VerbForm) :
    (root.decisionTree form).Reports [] := by
  unfold decisionTree
  split
  · exact DecisionTree.reports_reportAfter _ _
  · exact ⟨DecisionTree.reports_reportAfter _ _, DecisionTree.reports_reportAfter _ _⟩

-- The choices lead through the tree as they do through the derivation.
theorem ledger_follow_decisionTree (root : Root) (form : VerbForm) (choices : Choices) :
    ((root.decisionTree form).follow choices).ledger = root.decisions form choices := by
  unfold decisionTree decisions
  split
  · rename_i pada hsettled
    rw [hsettled, DecisionTree.ledger_follow_reportAfter]
    rfl
  · rename_i rule hoptional
    rw [hoptional, DecisionTree.follow, PadaChoice.resolve]
    split
    · exact DecisionTree.ledger_follow_reportAfter _ _ choices
    · exact DecisionTree.ledger_follow_reportAfter _ _ choices

end Root

namespace DecisionTree

theorem paths_reportAfter (way : List Decision) (rule? : Option Rule) :
    (reportAfter way rule?).paths =
      rule?.elim [[]] fun rule => [[⟨rule, .accepted⟩], [⟨rule, .declined⟩]] := by
  cases rule? <;> rfl

end DecisionTree

namespace Root

variable (root : Root) (form : VerbForm)

-- The paths of the tree, with the optional rule of the set of endings and without.
theorem paths_decisionTree :
    (∃ pada, (root.decisionTree form).paths =
        (root.endingRule? form pada).elim [[]] fun rule =>
          [[⟨rule, .accepted⟩], [⟨rule, .declined⟩]]) ∨
      ∃ first ∈ padaRules, (root.decisionTree form).paths =
        [⟨first, .accepted⟩] :: (root.endingRule? form .parasmaipada).elim [[⟨first, .declined⟩]]
          fun rule => [[⟨first, .declined⟩, ⟨rule, .accepted⟩],
            [⟨first, .declined⟩, ⟨rule, .declined⟩]] := by
  unfold decisionTree
  split
  · rename_i pada hsettled
    exact .inl ⟨pada, DecisionTree.paths_reportAfter _ _⟩
  · rename_i first hoptional
    refine .inr ⟨first, mem_padaRules hoptional, ?_⟩
    simp only [DecisionTree.paths, DecisionTree.paths_reportAfter, endingRule?_atmanepada,
      Option.elim_none, List.map_cons, List.map_nil, List.singleton_append]
    cases root.endingRule? form .parasmaipada <;> rfl

-- The rules of the endings are not those of the set of endings.
theorem ne_of_rules {first rule : Rule} {pada : Pada} (hfirst : first ∈ padaRules)
    (hrule : root.endingRule? form pada = some rule) : first ≠ rule := by
  have hdisjoint : ∀ first ∈ padaRules, first ∉ talRules ∧ first ≠ "7.1.91" := by decide
  obtain ⟨-, -, -, ⟨-, hmem⟩ | ⟨-, rfl⟩⟩ := endingRule?_eq_some hrule
  · rintro rfl
    exact (hdisjoint first hfirst).1 hmem
  · exact (hdisjoint first hfirst).2

theorem nodup_rules_of_path :
    ∀ path ∈ (root.decisionTree form).paths, (path.map (·.rule)).Nodup := by
  rcases root.paths_decisionTree form with ⟨pada, hpaths⟩ | ⟨first, hfirst, hpaths⟩
  · rw [hpaths]
    cases root.endingRule? form pada <;> simp
  · rw [hpaths]
    rcases hrule : root.endingRule? form .parasmaipada with _ | rule
    · simp
    · simp [root.ne_of_rules form hfirst hrule]

theorem length_paths_le : (root.decisionTree form).paths.length ≤ 3 := by
  rcases root.paths_decisionTree form with ⟨pada, hpaths⟩ | ⟨first, -, hpaths⟩
  · rw [hpaths]
    cases root.endingRule? form pada <;> simp
  · rw [hpaths]
    cases root.endingRule? form .parasmaipada <;> simp

end Root

-- The ledger of a form: at most one decision on the set of endings, and unless it is accepted at most
-- one on an ending of the perfect.
structure LedgerOf (form : VerbForm) (parasmaipada : Bool) (ledger : List Decision) : Prop where
  distinct : (ledger.map (·.rule)).Nodup
  short : ledger.length ≤ 2
  parts : ∃ pada ending : Option Decision, ledger = pada.toList ++ ending.toList ∧
    (∀ x ∈ pada, x.rule ∈ padaRules ∧ (x.verdict = .accepted → ending = none)) ∧
    ∀ x ∈ ending, form.lakara = .lit ∧ form.vacana = .eka ∧ parasmaipada = true ∧
      (form.purusha = .madhyama ∧ x.rule ∈ talRules ∨ form.purusha = .uttama ∧ x.rule = "7.1.91")
  noDevoicing : "8.4.56" ∉ ledger.map (·.rule)

namespace Root

variable {root : Root} {form : VerbForm} {pada : Pada}

theorem ledgerOf_append (first : Option Decision) {choices : Choices}
    (hfirst : ∀ x ∈ first, x.rule ∈ padaRules)
    (haccepted : ∀ x ∈ first, x.verdict = .accepted → root.endingRule? form pada = none) :
    LedgerOf form (pada == .parasmaipada)
      (first.toList ++ ((root.endingRule? form pada).map choices.decide).toList) := by
  have hpada : "8.4.56" ∉ padaRules := by decide
  have hending : ∀ rule, root.endingRule? form pada = some rule → rule ≠ "8.4.56" := by
    rintro rule hrule rfl
    obtain ⟨-, -, -, ⟨-, hmem⟩ | ⟨-, hral⟩⟩ := endingRule?_eq_some hrule
    · exact absurd hmem (by decide)
    · exact absurd hral (by decide)
  refine ⟨?_, ?_, ⟨first, _, rfl, fun x hx => ⟨hfirst x hx, fun hyes => ?_⟩, fun x hx => ?_⟩, ?_⟩
  · rcases first with _ | x <;> rcases hrule : root.endingRule? form pada with _ | rule
    · simp
    · simp
    · simp
    · simpa [Choices.decide] using root.ne_of_rules form (hfirst x rfl) hrule
  · rcases first with _ | x <;> cases root.endingRule? form pada <;> simp
  · rw [haccepted x hx hyes]
    rfl
  · obtain ⟨rule, hrule, rfl⟩ := Option.map_eq_some_iff.mp hx
    obtain ⟨hlit, hparasmai, heka, hpurusha⟩ := endingRule?_eq_some hrule
    exact ⟨hlit, heka, by rw [hparasmai]; rfl, hpurusha⟩
  · simp only [List.map_append, List.mem_append, List.mem_map, Option.mem_toList,
      Option.map_eq_some_iff, not_or, not_exists, not_and]
    refine ⟨fun x hx heq => hpada (heq ▸ hfirst x hx), ?_⟩
    rintro x ⟨rule, hrule, rfl⟩ heq
    exact hending rule hrule heq

theorem ledgerOf_decisions (root : Root) (form : VerbForm) (choices : Choices) :
    LedgerOf form (((root.padaChoice form.prayoga).resolve choices).1 == .parasmaipada)
      (root.decisions form choices) := by
  unfold decisions
  rcases hchoice : root.padaChoice form.prayoga with pada | rule
  · exact ledgerOf_append none (by simp) (by simp)
  · rw [PadaChoice.resolve]
    split
    · refine ledgerOf_append (some ⟨rule, .accepted⟩) ?_ ?_
      · simpa using mem_padaRules hchoice
      · exact fun _ _ _ => root.endingRule?_atmanepada form
    · refine ledgerOf_append (some ⟨rule, .declined⟩) ?_ ?_
      · simpa using mem_padaRules hchoice
      · intro x hx hyes
        cases hx
        cases hyes

end Root

section

variable {root : Root} {form : VerbForm}

theorem run_decides (hroot : root.gana ∈ supportedGanas) (hform : form.lakara ∈ supportedLakaras)
    {recording : Bool} {choices : Choices} {d : Derivation}
    (h : conjugationRun root form recording .standard choices = .done d) :
    d.ledger = root.decisions form choices ∧
      d.lastEnding?.any (·.hasTag (.pada .parasmaipada)) =
        (((root.padaChoice form.prayoga).resolve choices).1 == .parasmaipada) :=
  of_run_done h (Derivation.conjugate_decides hroot hform rfl rfl rfl rfl)

-- A run that fails does so before any choice.
theorem ledger_of_failed {recording : Bool} {choices : Choices} {fault : Fault} {d : Derivation}
    (h : conjugationRun root form recording .standard choices = .failed fault d) :
    d.ledger = [] := by
  let tagged := (Derivation.start choices recording .standard).taggedFor form
  have hrun : (Derivation.start choices recording .standard).conjugate root form =
      .failed fault d := h
  rcases Derivation.enterRoot_cases root tagged with ⟨hclear, -⟩ | ⟨c, -, -, e, hfail⟩
  · obtain ⟨e, hdone, -⟩ := conjugation_names hclear form recording choices
    cases h.symm.trans hdone
  · have hleaves := Derivation.enterRoot_leaves root tagged
    have hfirst : (Derivation.start choices recording .standard).conjugate root form =
        .failed (.notMarker [c]) e := by
      unfold Derivation.conjugate
      rw [show (Derivation.start choices recording .standard).addTags [.prayoga form.prayoga,
        .purusha form.purusha, .vacana form.vacana] = tagged from rfl, hfail]
      rfl
    cases hfirst.symm.trans hrun
    rw [hfail] at hleaves
    exact Derivation.ledger_eq_of_background (hleaves.trans (Derivation.background_addTags _ _))

-- The runs are those of the tree, path by path.
theorem ledgers_of_runs (hroot : root.gana ∈ supportedGanas)
    (hform : form.lakara ∈ supportedLakaras) {recording : Bool} {ds : List Derivation}
    (h : (conjugationRun root form recording .standard).all optionalRules = .ok ds) :
    ds.map (·.ledger) = (root.decisionTree form).paths :=
  DecisionTree.ledgers_of_all (root.nodup_rules_of_path form) (root.reports_decisionTree form)
    (fun choices _ hd => (run_decides hroot hform hd).1.trans
      (root.ledger_follow_decisionTree form choices).symm) h

end

-- A verb form leaves at most two choices, on the set of endings and on an ending of the perfect, and
-- never one on its last sound. So there are three runs and three forms at the most. A run that fails
-- does so before any choice, and it is the first.
theorem verbForms_leave_two_choices {root : Root} {form : VerbForm}
    (hroot : root.gana ∈ supportedGanas) (hform : form.lakara ∈ supportedLakaras)
    (recording : Bool) :
    (∀ choices d, conjugationRun root form recording .standard choices = .done d →
      LedgerOf form (d.lastEnding?.any (·.hasTag (.pada .parasmaipada))) d.ledger) ∧
    (∀ choices fault d, conjugationRun root form recording .standard choices = .failed fault d →
      d.ledger = []) ∧
    (∀ ds, (conjugationRun root form recording .standard).all optionalRules = .ok ds →
      ds.length ≤ 3) ∧
    (∀ fault, (conjugationRun root form recording .standard).all optionalRules = .error fault →
      ∃ d, conjugationRun root form recording .standard [] = .failed fault d) ∧
    ∀ forms, verbForms root form recording .standard = .ok forms → forms.length ≤ 3 := by
  have hlength : ∀ ds, (conjugationRun root form recording .standard).all optionalRules = .ok ds →
      ds.length ≤ 3 := by
    intro ds hds
    rw [← List.length_map (·.ledger), ledgers_of_runs hroot hform hds]
    exact root.length_paths_le form
  refine ⟨fun choices d hd => ?_, fun choices fault d hd => ledger_of_failed hd, hlength,
    fun fault hfault => ?_, fun forms hforms => ?_⟩
  · obtain ⟨hledger, hpada⟩ := run_decides hroot hform hd
    rw [hledger, hpada]
    exact root.ledgerOf_decisions form choices
  · rcases hfirst : conjugationRun root form recording .standard [] with d | ⟨fault', d⟩
    · rcases Derivation.conjugate_cases root form (d := .start [] recording .standard) rfl with
        ⟨hclear, -⟩ | ⟨c, -, -, e, hfail⟩
      · obtain ⟨ds, hds⟩ := Run.all_ok (conjugation_names hclear form recording)
        cases hds.symm.trans hfault
      · cases hfirst.symm.trans hfail
    · cases (Run.all_error hfirst).symm.trans hfault
      exact ⟨d, rfl⟩
  · unfold verbForms at hforms
    split at hforms
    · cases hforms
    · split at hforms
      · rename_i ds hds
        cases hforms
        exact (firstOfTextFrom_sublist [] ds).length_le.trans (hlength ds hds)
      · cases hforms

-- The perfect of RI takes either set of endings and, before Tal, the augment or not.
theorem perfect_of_ni_leaves_two_choices :
    ∃ ds, (conjugationRun ⟨"RI\\Y".toList, 1, none, some 1049⟩ ⟨.lit, .madhyama, .eka, .kartari⟩
        true .standard).all optionalRules = .ok ds ∧
      ds.length = 3 ∧ ∀ d ∈ ds, LedgerOf ⟨.lit, .madhyama, .eka, .kartari⟩
        (d.lastEnding?.any (·.hasTag (.pada .parasmaipada))) d.ledger := by
  have hclear : ∀ c ∈ markless, ¬[c, '~'] <:+: Text.beforeIr "RI\\Y".toList := by decide
  have hnames : (conjugationRun ⟨"RI\\Y".toList, 1, none, some 1049⟩
      ⟨.lit, .madhyama, .eka, .kartari⟩ true .standard).Names optionalRules :=
    conjugation_names hclear _ _
  obtain ⟨ds, hds⟩ := Run.all_ok hnames
  refine ⟨ds, hds, ?_, fun d hd => ?_⟩
  · have hpaths : ((⟨"RI\\Y".toList, 1, none, some 1049⟩ : Root).decisionTree
        ⟨.lit, .madhyama, .eka, .kartari⟩).paths.length = 3 := by decide +kernel
    rw [← List.length_map (·.ledger), ledgers_of_runs (by decide) (by decide) hds, hpaths]
  · obtain ⟨choices, hrun⟩ := (Run.explores_of_explore hds).sound d hd
    exact (verbForms_leave_two_choices (by decide) (by decide) true).1 choices d hrun

end Vyakarana
