import Vyakarana.Proofs.Choice.Completeness

/-!
Which choices the search runs.

It begins with no choice made. All other choices that it runs come from a run made before: they keep
every choice of that run and make one more. None are run twice, so that n rules make 3^n runs at the
most, whatever the ledgers say of them.
-/

namespace Vyakarana

namespace Choices

-- `more` takes every rule that `choices` fix as they do.
def Keeps (more choices : Choices) : Prop :=
  ∀ rule, choices.fixes rule = true → more.lookup rule = choices.lookup rule

-- Besides, `more` fix a rule that `choices` leave open.
structure StrictlyExtends (more choices : Choices) : Prop where
  keeps : more.Keeps choices
  further : ∃ rule, choices.fixes rule = false ∧ more.fixes rule = true

variable {choices made branch : Choices} {rule : Rule}

theorem Keeps.fix (h : made.Keeps choices) (hopen : choices.fixes rule = false)
    (permission : Permission) : (made.fix rule permission).Keeps choices := by
  intro other hother
  have hne : other ≠ rule := by
    rintro rfl
    cases hopen.symm.trans hother
  rw [lookup_fix_ne made permission hne]
  exact h other hother

theorem Keeps.fixIfOpen (h : made.Keeps choices) (rule : Rule) (permission : Permission) :
    (made.fixIfOpen rule permission).Keeps choices := by
  intro other hother
  by_cases hsame : other = rule
  · subst hsame
    have hfixed : made.fixes other = true := by rwa [fixes, h other hother]
    rw [fixIfOpen_of_fixes hfixed]
    exact h other hother
  · rw [lookup_fixIfOpen_ne made permission hsame]
    exact h other hother

-- The decisions that have been passed may have overwritten each other, but not what was chosen.
theorem strictlyExtends_of_mem_branchesFrom {ledger : List Decision} (hmade : made.Keeps choices)
    (hb : branch ∈ choices.branchesFrom made ledger) : branch.StrictlyExtends choices := by
  induction ledger generalizing made with
  | nil => cases hb
  | cons x rest ih =>
      have hrest := ih (hmade.fixIfOpen x.rule x.verdict.permission)
      unfold branchesFrom at hb
      split at hb
      · exact hrest hb
      · rename_i hopen
        have hopen : choices.fixes x.rule = false := by simpa using hopen
        rcases List.mem_cons.mp hb with rfl | hb
        · exact ⟨hmade.fix hopen _, x.rule, hopen, by simp [fixes_fix]⟩
        · exact hrest hb

theorem strictlyExtends_of_mem_branches {ledger : List Decision}
    (hb : branch ∈ choices.branches ledger) : branch.StrictlyExtends choices :=
  strictlyExtends_of_mem_branchesFrom (fun _ _ => rfl) hb

theorem agreesWith_comm (a b : Choices) : a.agreesWith b = b.agreesWith a :=
  Bool.and_comm _ _

end Choices

namespace Agenda

-- What is pending stands in the order in which it was enlisted.
structure Orderly (rules : List Rule) (a : Agenda) : Prop extends a.Valid rules where
  sublist : a.pending.Sublist a.known

theorem orderly_start (rules : List Rule) : Orderly rules start :=
  ⟨valid_start rules, List.Sublist.refl _⟩

theorem sublist_enlistAll {a : Agenda} (h : a.pending.Sublist a.known) (branches : List Choices) :
    (a.enlistAll branches).pending.Sublist (a.enlistAll branches).known := by
  induction branches generalizing a with
  | nil => exact h
  | cons b rest ih =>
      refine ih ?_
      rcases enlist_known a b with ⟨hk, hp⟩ | ⟨-, hk, hp⟩
      · rwa [hk, hp]
      · rw [hk, hp]
        exact h.cons_cons b

-- What is pending after a run was pending before, or it is a branch that was not known.
theorem mem_pending_enlistAll {a : Agenda} {branches : List Choices} {c : Choices}
    (h : c ∈ (a.enlistAll branches).pending) :
    c ∈ a.pending ∨ c ∈ branches ∧ ∀ k ∈ a.known, c.agreesWith k = false := by
  induction branches generalizing a with
  | nil => exact .inl h
  | cons b rest ih =>
      have hext := extends_enlist a b
      rcases ih h with hc | ⟨hc, hnew⟩
      · rcases enlist_known a b with ⟨-, hp⟩ | ⟨hnew, -, hp⟩
        · exact .inl (hp ▸ hc)
        · rw [hp] at hc
          rcases List.mem_cons.mp hc with rfl | hc
          · exact .inr ⟨List.mem_cons_self, hnew⟩
          · exact .inl hc
      · exact .inr ⟨List.mem_cons_of_mem _ hc, fun k hk => hnew k (hext.known k hk)⟩

theorem Orderly.turn {rules : List Rule} {choices : Choices} {rest known : List Choices}
    (h : Orderly rules ⟨choices :: rest, known⟩) {ledger : List Decision}
    (hledger : ∀ x ∈ ledger, x.rule ∈ rules) :
    Orderly rules (enlistAll ⟨rest, known⟩ (choices.branches ledger)) := by
  refine ⟨h.toValid.drop_first.enlistAll fun b hb => ?_, sublist_enlistAll ?_ _⟩
  · exact (h.proper choices (h.pending choices List.mem_cons_self)).branchesFrom hledger hb
  · exact (List.sublist_cons_self choices rest).trans h.sublist

end Agenda

namespace Run

variable {run : Run} {rules : List Rule} {a : Agenda} {ds : List Derivation}

-- The derivations of a run tell the choices that it was made with.
def Tells (run : Run) : Prop := ∀ choices d, run choices = .done d → d.choices = choices

theorem Names.ledger (h : run.Names rules) {choices : Choices} {d : Derivation}
    (hd : run choices = .done d) : ∀ x ∈ d.ledger, x.rule ∈ rules := by
  obtain ⟨e, he, hx⟩ := h choices
  cases hd.symm.trans he
  exact hx

theorem Explores.proper (hrun : run.Names rules) (htells : run.Tells) (h : run.Explores a ds)
    (ha : a.Orderly rules) : ∀ d ∈ ds, d.choices.Proper rules := by
  induction h with
  | done known => simp
  | @turn choices rest known d later hd _ ih =>
      refine List.forall_mem_cons.mpr ⟨?_, ih (ha.turn (hrun.ledger hd))⟩
      rw [htells choices d hd]
      exact ha.proper choices (ha.pending choices List.mem_cons_self)

-- What is run was pending from the beginning, or was not even known then.
theorem Explores.fresh (htells : run.Tells) (h : run.Explores a ds) :
    ∀ d ∈ ds, d.choices ∈ a.pending ∨ ∀ k ∈ a.known, d.choices.agreesWith k = false := by
  induction h with
  | done known => simp
  | @turn choices rest known d later hd _ ih =>
      have hext := Agenda.extends_enlistAll ⟨rest, known⟩ (choices.branches d.ledger)
      refine List.forall_mem_cons.mpr ⟨.inl ?_, fun e he => ?_⟩
      · rw [htells choices d hd]
        exact List.mem_cons_self
      · rcases ih e he with hpending | hnew
        · rcases Agenda.mem_pending_enlistAll hpending with hrest | ⟨-, hnew⟩
          · exact .inl (List.mem_cons_of_mem _ hrest)
          · exact .inr hnew
        · exact .inr fun k hk => hnew k (hext.known k hk)

-- No choices are run twice.
theorem Explores.distinct (hrun : run.Names rules) (htells : run.Tells) (h : run.Explores a ds)
    (ha : a.Orderly rules) :
    ds.Pairwise fun d e => d.choices.agreesWith e.choices = false := by
  induction h with
  | done known => exact List.Pairwise.nil
  | @turn choices rest known d later hd hlater ih =>
      refine List.pairwise_cons.mpr ⟨fun e he => ?_, ih (ha.turn (hrun.ledger hd))⟩
      have hknown : choices ∈ known := ha.pending choices List.mem_cons_self
      have hext := Agenda.extends_enlistAll ⟨rest, known⟩ (choices.branches d.ledger)
      rw [htells choices d hd]
      -- The later choices are still pending, or have been enlisted beside these ones.
      rcases hlater.fresh htells e he with hpending | hnew
      · rcases Agenda.mem_pending_enlistAll hpending with hrest | ⟨-, hnew⟩
        · exact (List.pairwise_cons.mp (ha.distinct.sublist ha.sublist)).1 _ hrest
        · exact (Choices.agreesWith_comm _ _).trans (hnew choices hknown)
      · exact (Choices.agreesWith_comm _ _).trans (hnew choices (hext.known choices hknown))

-- What is run was pending from the beginning, or it extends what was run before.
theorem Explores.descends (htells : run.Tells) (h : run.Explores a ds) :
    ∀ before d after, ds = before ++ d :: after →
      d.choices ∈ a.pending ∨ ∃ e ∈ before, d.choices.StrictlyExtends e.choices := by
  induction h with
  | done known => simp
  | @turn choices rest known d later hd _ ih =>
      rintro (_ | ⟨first, before⟩) e after heq
      · obtain ⟨rfl, -⟩ := List.cons.inj heq
        exact .inl (htells choices d hd ▸ List.mem_cons_self)
      · obtain ⟨rfl, rfl⟩ := List.cons.inj heq
        rcases ih before e after rfl with hpending | ⟨f, hf, hextends⟩
        · rcases Agenda.mem_pending_enlistAll hpending with hrest | ⟨hbranch, -⟩
          · exact .inl (List.mem_cons_of_mem _ hrest)
          · refine .inr ⟨d, List.mem_cons_self, ?_⟩
            rw [htells choices d hd]
            exact Choices.strictlyExtends_of_mem_branches hbranch
        · exact .inr ⟨f, List.mem_cons_of_mem _ hf, hextends⟩

-- A limit that leaves room for all runs does not show.
theorem Explores.explore (h : run.Explores a ds) {limit : Nat} (hlimit : ds.length ≤ limit) :
    run.explore limit a = .ok ds := by
  induction h generalizing limit with
  | done known => cases limit <;> rfl
  | @turn choices rest known d later hd _ ih =>
      obtain ⟨limit, rfl⟩ : ∃ n, limit = n + 1 := ⟨limit - 1, by simp at hlimit; omega⟩
      simp only [List.length_cons, Nat.add_le_add_iff_right] at hlimit
      simp [Run.explore, hd, ih hlimit, Except.map]

-- A search that has come to an end: the choices that it has run, in their order.
structure Visits (rules : List Rule) (ds : List Derivation) : Prop where
  bounded : ds.length ≤ 3 ^ rules.eraseDups.length
  distinct : ds.Pairwise fun d e => d.choices.agreesWith e.choices = false
  first : ds.head?.map (·.choices) = some []
  descends : ∀ before d after, ds = before ++ d :: after → before ≠ [] →
    ∃ e ∈ before, d.choices.StrictlyExtends e.choices

theorem Explores.visits (hrun : run.Names rules) (htells : run.Tells)
    (h : run.Explores .start ds) : Visits rules ds := by
  have ha := Agenda.orderly_start rules
  have hdistinct := h.distinct hrun htells ha
  have hproper := h.proper hrun htells ha
  refine ⟨?_, hdistinct, ?_, fun before d after heq hbefore => ?_⟩
  · rw [← List.length_map (·.choices)]
    refine Choices.length_le_of_pairwise_disagree ?_ (List.pairwise_map.mpr hdistinct)
    exact List.forall_mem_map.mpr hproper
  · cases h with
    | turn hd _ => simp [htells [] _ hd]
  · refine (h.descends htells before d after heq).resolve_left fun hstart => ?_
    -- Only the first run has no choice made.
    obtain ⟨first, before, rfl⟩ := List.exists_cons_of_ne_nil hbefore
    subst heq
    have hfirst : first.choices = [] := by
      cases h with
      | turn hd _ => exact htells [] _ hd
    have hnil : d.choices = [] := List.mem_singleton.mp hstart
    have hne := (List.pairwise_cons.mp hdistinct).1 d (by simp)
    rw [hfirst, hnil] at hne
    cases hne

theorem visits_of_names (hrun : run.Names rules) (htells : run.Tells) :
    ∃ ds, run.Explores .start ds ∧ Visits rules ds ∧
      ∀ limit, 3 ^ rules.eraseDups.length ≤ limit → run.explore limit .start = .ok ds := by
  obtain ⟨ds, hds⟩ := all_ok hrun
  have h := explores_of_explore hds
  have hvisits := h.visits hrun htells
  exact ⟨ds, h, hvisits, fun limit hlimit => h.explore (hvisits.bounded.trans hlimit)⟩

end Run

namespace Program

theorem tells_run (p : Program) (recording : Bool) (table : FeatureTable) :
    Run.Tells fun choices => .done (p.run (.start choices recording table)) := by
  intro choices d hd
  cases hd
  exact choices_run p _

theorem names_run (p : Program) (recording : Bool) (table : FeatureTable) :
    Run.Names (fun choices => .done (p.run (.start choices recording table))) p.rules := by
  simp only [run_start_eq_follow]
  exact DecisionTree.names_follow (rules_tree p [] recording table)

end Program

-- The search ends for every way to derive whose ledgers name no other rules than these, with
-- as many runs as there are choices of them, or fewer. The choices it runs are all different, the
-- first are none, and any others extend some that it has run before. A program may consult a rule
-- again and again, and write what it likes into the ledger.
theorem search_runs_no_choices_twice (rules : List Rule) :
    (∀ run : Run, run.Names rules → run.Tells →
      ∃ ds, Run.Visits rules ds ∧
        ∀ limit, 3 ^ rules.eraseDups.length ≤ limit → run.explore limit .start = .ok ds) ∧
    ∀ (p : Program) (recording : Bool) (table : FeatureTable),
      (∀ choices, ∀ x ∈ (p.run (.start choices recording table)).ledger, x.rule ∈ rules) →
      ∃ ds, p.runs recording table = .ok ds ∧ Run.Visits rules ds := by
  refine ⟨fun run hrun htells => ?_, fun p recording table hledger => ?_⟩
  · obtain ⟨ds, -, hvisits, hexplore⟩ := Run.visits_of_names hrun htells
    exact ⟨ds, hvisits, hexplore⟩
  · have htells := p.tells_run recording table
    -- The rules that the program names are those that set the limit of its search.
    obtain ⟨ds, h, -, hexplore⟩ :=
      Run.visits_of_names (p.names_run recording table) htells
    have hvisits := h.visits (fun choices => ⟨_, rfl, hledger choices⟩) htells
    exact ⟨ds, hexplore _ (Nat.le_refl _), hvisits⟩

-- One rule that is consulted twice, and then noted as accepted and as declined whatever was chosen.
def unsteadyRule : Program :=
  .optional "A" "a".toList .halt .halt
    (.optional "A" "b".toList .halt .halt (.accept "A" (.decline "A" .halt)))

def unsteadyRun : Run := fun choices => .done (unsteadyRule.run (.start choices true .standard))

-- All choices that there are for one rule are run.
theorem search_of_unsteadyRule :
    (unsteadyRun.Names ["A"] ∧ unsteadyRun.Tells ∧
      ∃ ds, Run.Visits ["A"] ds ∧ ∀ limit, 3 ≤ limit → unsteadyRun.explore limit .start = .ok ds) ∧
    (∀ choices, ∀ x ∈ (unsteadyRule.run (.start choices true .standard)).ledger, x.rule ∈ ["A"]) ∧
    ∃ ds, unsteadyRule.runs true .standard = .ok ds ∧ Run.Visits ["A"] ds ∧
      ds.map (·.choices) = [[], [("A", .allow)], [("A", .ignore)]] := by
  have hledger (choices : Choices) :
      ∀ x ∈ (unsteadyRule.run (.start choices true .standard)).ledger, x.rule ∈ ["A"] := by
    obtain ⟨d, hd, hrules⟩ := unsteadyRule.names_run true .standard choices
    cases hd
    simpa [unsteadyRule, Program.rules] using hrules
  have hnames : unsteadyRun.Names ["A"] := fun choices => ⟨_, rfl, hledger choices⟩
  have htells : unsteadyRun.Tells := unsteadyRule.tells_run true .standard
  obtain ⟨hruns, hprograms⟩ := search_runs_no_choices_twice ["A"]
  obtain ⟨ds, hds, hvisits⟩ := hprograms unsteadyRule true .standard hledger
  have hchoices : (unsteadyRule.runs true .standard).map (List.map (·.choices)) =
      .ok [[], [("A", .allow)], [("A", .ignore)]] := by rfl
  rw [hds] at hchoices
  refine ⟨⟨hnames, htells, ?_⟩, hledger, ds, hds, hvisits, Except.ok.inj hchoices⟩
  exact hruns unsteadyRun hnames htells

end Vyakarana
