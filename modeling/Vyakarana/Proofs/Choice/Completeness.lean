import Vyakarana.Proofs.Choice.Exploration
import Vyakarana.Proofs.Choice.Script

/-!
The search finds all forms.

Whatever the choices, the search has made a run with the same result: among the choices that
it has tried there are some that are compatible with the given ones and that leave open only
what the run found as the given choices would have it.
-/

namespace Vyakarana

theorem mem_firstOfTextFrom {known : List Text} {ds : List Derivation} {d : Derivation}
    (h : d ∈ firstOfTextFrom known ds) : d ∈ ds ∧ d.text ∉ known := by
  induction ds generalizing known with
  | nil => simp [firstOfTextFrom] at h
  | cons e rest ih =>
      unfold firstOfTextFrom at h
      split at h
      · exact ⟨List.mem_cons_of_mem _ (ih h).1, (ih h).2⟩
      · rename_i he
        rcases List.mem_cons.mp h with rfl | h
        · exact ⟨List.mem_cons_self, by simpa using he⟩
        · have hr := ih h
          exact ⟨List.mem_cons_of_mem _ hr.1, fun hm => hr.2 (List.mem_cons_of_mem _ hm)⟩

theorem firstOfTextFrom_sublist (known : List Text) (ds : List Derivation) :
    (firstOfTextFrom known ds).Sublist ds := by
  induction ds generalizing known with
  | nil => exact List.Sublist.refl []
  | cons d rest ih =>
      unfold firstOfTextFrom
      split
      · exact (ih known).cons d
      · exact (ih _).cons_cons d

theorem nodup_text_firstOfTextFrom (known : List Text) (ds : List Derivation) :
    ((firstOfTextFrom known ds).map (·.text)).Nodup := by
  induction ds generalizing known with
  | nil => exact List.nodup_nil
  | cons e rest ih =>
      unfold firstOfTextFrom
      split
      · exact ih known
      · refine List.nodup_cons.mpr ⟨fun hm => ?_, ih _⟩
        obtain ⟨d, hd, ht⟩ := List.mem_map.mp hm
        exact (mem_firstOfTextFrom hd).2 (ht ▸ List.mem_cons_self)

-- Nothing but the texts of the derivations says which of them are kept.
theorem firstOfTextFrom_map {f : Derivation → Derivation} (hf : ∀ d, (f d).text = d.text)
    (known : List Text) (ds : List Derivation) :
    (firstOfTextFrom known ds).map f = firstOfTextFrom known (ds.map f) := by
  induction ds generalizing known with
  | nil => rfl
  | cons d rest ih =>
      simp only [List.map_cons, firstOfTextFrom, hf]
      split
      · exact ih known
      · rw [List.map_cons, ih]

theorem exists_firstOfTextFrom (known : List Text) {ds : List Derivation} {d : Derivation}
    (hd : d ∈ ds) : d.text ∈ known ∨ ∃ e ∈ firstOfTextFrom known ds, e.text = d.text := by
  induction ds generalizing known with
  | nil => simp at hd
  | cons e rest ih =>
      unfold firstOfTextFrom
      split
      · rename_i he
        rcases List.mem_cons.mp hd with rfl | hd
        · exact .inl (by simpa using he)
        · exact ih known hd
      · rcases List.mem_cons.mp hd with rfl | hd
        · exact .inr ⟨d, List.mem_cons_self, rfl⟩
        · rcases ih (e.text :: known) hd with hk | ⟨f, hf, ht⟩
          · rcases List.mem_cons.mp hk with he | hk
            · exact .inr ⟨e, List.mem_cons_self, he.symm⟩
            · exact .inl hk
          · exact .inr ⟨f, List.mem_cons_of_mem _ hf, ht⟩

-- What the forms of a derivation with choices are: one for each text that some choices lead
-- to, the one without any choice made coming first.
structure CoversChoices (derive : Choices → Derivation) (forms : List Derivation) : Prop where
  complete : ∀ choices, ∃ d ∈ forms, d.text = (derive choices).text
  sound : ∀ d ∈ forms, ∃ choices, d = derive choices
  distinct : (forms.map (·.text)).Nodup
  first : forms.head? = some (derive [])

namespace DecisionTree

variable {t : DecisionTree} {rules : List Rule}

theorem names_follow (hrules : ∀ l ∈ t.leaves, ∀ x ∈ l.ledger, x.rule ∈ rules) :
    Run.Names (fun choices => .done (t.follow choices)) rules := by
  intro choices
  exact ⟨_, rfl, rule_mem_of_mem_follow hrules choices⟩

-- The rules that the choices leave open.
def openRules (rules : List Rule) (choices : Choices) : Finset Rule :=
  rules.toFinset.filter fun rule => choices.fixes rule = false

theorem mem_openRules {choices : Choices} {rule : Rule} :
    rule ∈ openRules rules choices ↔ rule ∈ rules ∧ choices.fixes rule = false := by
  rw [openRules, Finset.mem_filter, List.mem_toFinset]

-- Choices that fix what others fix, and one rule more, leave fewer rules open.
theorem openRules_ssubset {choices next : Choices} {rule : Rule} (hr : rule ∈ rules)
    (hmore : ∀ other, choices.fixes other = true → next.fixes other = true)
    (hopen : choices.fixes rule = false) (hfixed : next.fixes rule = true) :
    openRules rules next ⊂ openRules rules choices := by
  refine Finset.ssubset_iff_subset_ne.mpr ⟨fun other ho => ?_, fun he => ?_⟩
  · obtain ⟨hor, hof⟩ := mem_openRules.mp ho
    refine mem_openRules.mpr ⟨hor, ?_⟩
    by_contra hc
    have hn := hmore other (by simpa using hc)
    rw [hof] at hn
    cases hn
  · have hmem := mem_openRules.mpr ⟨hr, hopen⟩
    rw [← he] at hmem
    have hn := (mem_openRules.mp hmem).2
    rw [hfixed] at hn
    cases hn

-- From choices compatible with the target the search goes on to others that fix more rules,
-- until the run takes every open rule as the target does.
theorem exists_run_towards {ds : List Derivation} {known : List Choices} (target : Choices)
    (hrules : ∀ l ∈ t.leaves, ∀ x ∈ l.ledger, x.rule ∈ rules)
    (hproper : ∀ c ∈ known, c.Proper rules)
    (hsettled : ∀ c ∈ known,
      Run.Settled (fun choices => .done (t.follow choices)) ds known c)
    (choices : Choices) (hk : choices ∈ known) (hc : choices.CompatibleWith target) :
    ∃ c ∈ known, c.CompatibleWith target ∧
      ∀ x ∈ (t.follow c).ledger, c.fixes x.rule = false →
        x.verdict.permission = target.taken x.rule := by
  induction hn : (openRules rules choices).card using Nat.strong_induction_on
    generalizing choices with
  | _ n ih =>
      by_cases hx : ∃ x ∈ (t.follow choices).ledger, choices.fixes x.rule = false ∧
          x.verdict.permission ≠ target.taken x.rule
      · obtain ⟨d, -, hd, hbranches⟩ := hsettled choices hk
        obtain rfl : t.follow choices = d := by simpa using hd
        obtain ⟨branch, hb, hbc, hmore, x, hxm, hxo, hxf⟩ :=
          Choices.exists_branch_towards hc (fun _ h => h) hx
        obtain ⟨next, hnk, hagree⟩ := hbranches branch hb
        have hledger := rule_mem_of_mem_follow hrules choices
        have hpb : branch.Proper rules := (hproper choices hk).branchesFrom hledger hb
        have hl := (Choices.agreesWith_iff_lookup hpb (hproper next hnk)).mp hagree
        have hfixes (rule : Rule) : next.fixes rule = branch.fixes rule := by
          simp [Choices.fixes, hl]
        have htaken (rule : Rule) : next.taken rule = branch.taken rule := by
          simp [Choices.taken, hl]
        have hnc : next.CompatibleWith target := fun rule h => by
          rw [htaken]
          exact hbc rule (by rwa [hfixes] at h)
        have hless : openRules rules next ⊂ openRules rules choices :=
          openRules_ssubset (hledger x hxm) (fun rule h => (hfixes rule).trans (hmore rule h))
            hxo ((hfixes x.rule).trans hxf)
        exact ih _ (hn ▸ Finset.card_lt_card hless) next hnk hnc rfl
      · refine ⟨choices, hk, hc, fun x hm ho => ?_⟩
        by_contra hne
        exact hx ⟨x, hm, ho, hne⟩

theorem covers_firstOfEachText (ht : t.Logged)
    (hrules : ∀ l ∈ t.leaves, ∀ x ∈ l.ledger, x.rule ∈ rules) :
    ∃ ds, Run.all (fun choices => .done (t.follow choices)) rules = .ok ds ∧
      CoversChoices (fun choices => t.follow choices) (firstOfEachText ds) := by
  obtain ⟨ds, hds⟩ := Run.all_ok (names_follow hrules)
  refine ⟨ds, hds, ?_, ?_, nodup_text_firstOfTextFrom [] ds, ?_⟩
  · intro target
    obtain ⟨known, hproper, hempty, hsettled⟩ := Run.all_settles (names_follow hrules) hds
    obtain ⟨c, hck, hcc, htaken⟩ := exists_run_towards target hrules hproper hsettled []
      hempty (Choices.compatibleWith_nil target)
    obtain ⟨d, hd, hrun, -⟩ := hsettled c hck
    obtain rfl : t.follow c = d := by simpa using hrun
    have hsame : t.follow target = (t.follow c).withChoices target :=
      follow_congr target ht hcc fun x hx ho hv => by
        have hallow : target.taken x.rule = .allow := by rw [← htaken x hx ho, hv]; rfl
        simpa [Choices.permits, Choices.taken] using hallow
    obtain ⟨e, he, hte⟩ := (exists_firstOfTextFrom [] hd).resolve_left (by simp)
    exact ⟨e, he, by rw [hsame, Derivation.text_withChoices, hte]⟩
  · intro d hd
    obtain ⟨choices, hc⟩ := (Run.explores_of_explore hds).sound d (mem_firstOfTextFrom hd).1
    exact ⟨choices, by simpa using hc.symm⟩
  · obtain ⟨d, later, rfl, hd⟩ := Run.all_head hds
    obtain rfl : t.follow [] = d := by simpa using hd
    simp [firstOfEachText, firstOfTextFrom]

end DecisionTree

namespace Program

theorem run_start_eq_follow (p : Program) (recording : Bool) (table : FeatureTable)
    (choices : Choices) :
    p.run (.start choices recording table) =
      (p.tree (.start [] recording table)).follow choices := by
  rw [follow_tree, Derivation.withChoices_start]

theorem runs_eq (p : Program) (recording : Bool) (table : FeatureTable) :
    p.runs recording table =
      Run.all (fun choices => .done ((p.tree (.start [] recording table)).follow choices))
        p.rules := by
  simp only [runs, run_start_eq_follow]

end Program

-- Programs and scripts may consult a rule more than once, and write entries of their own
-- into the ledger, accepted or declined.
theorem search_covers_choices (recording : Bool) (table : FeatureTable) :
    (∀ p : Program, ∃ ds, p.runs recording table = .ok ds ∧
      CoversChoices (fun choices => p.run (.start choices recording table))
        (firstOfEachText ds)) ∧
    ∀ s : Script, ∃ ds, s.runs recording table = .ok ds ∧
      CoversChoices (fun choices => s.run (.start choices recording table))
        (firstOfEachText ds) := by
  constructor
  · intro p
    rw [Program.runs_eq]
    simp only [Program.run_start_eq_follow]
    exact DecisionTree.covers_firstOfEachText (Program.logged_tree p _)
      (Program.rules_tree p [] recording table)
  · intro s
    have hrun (choices : Choices) : s.run (.start choices recording table) =
        (s.tree (.start [] recording table)).follow choices := by
      rw [Script.follow_tree, Derivation.withChoices_start]
    unfold Script.runs
    simp only [hrun]
    refine DecisionTree.covers_firstOfEachText (Script.logged_tree s _) fun l hl x hx => ?_
    exact List.mem_flatMap.mpr ⟨l, hl, List.mem_map.mpr ⟨x, hx, rfl⟩⟩

end Vyakarana
