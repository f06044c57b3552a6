import Vyakarana.Proofs.Choice.Completeness
import Vyakarana.Proofs.Grammar.Stem
import Vyakarana.Proofs.Grammar.VowelSandhi

/-!
A root of a supported class has forms in every supported tense or mood, unless it has a nasal
vowel that marks nothing.

Over the standard table no rule after the entry of the root can fail, and every sound that a rule
looks up a grade or a substitute for has one.
-/

namespace Vyakarana

namespace Derivation

@[simp] theorem background_replaceInitial (i : Int) (d : Derivation) :
    (d.replaceInitial i).background = d.background := by
  unfold replaceInitial
  repeat' split
  all_goals simp

@[simp] theorem background_nasalizeRoot (i : Int) (d : Derivation) :
    (d.nasalizeRoot i).background = d.background :=
  background_alterIf _ _ _ _ d

@[simp] theorem background_markAkusmiya (root : Root) (d : Derivation) :
    (d.markAkusmiya root).background = d.background := by
  unfold markAkusmiya
  split <;> simp

-- The root stands at the end of the row, as it was taught.
def pushRoot (root : Root) (d : Derivation) : Derivation :=
  ((d.push (.ofRoot root.upadesha root.gana root.number)).record "start").alter "1.3.1"
    (d.terms.length : Int) (·.addTag .dhatu)

theorem term?_pushRoot (root : Root) (d : Derivation) :
    (d.pushRoot root).term? (d.terms.length : Int) =
      some ((Term.ofRoot root.upadesha root.gana root.number).addTag .dhatu) := by
  rw [pushRoot, term?_alter, term?_record, term?_push]
  rfl

theorem background_pushRoot (root : Root) (d : Derivation) :
    (d.pushRoot root).background = d.background := by
  unfold pushRoot
  rw [background_alter, background_record, background_push]

theorem enterRoot_eq_replay (root : Root) (d : Derivation) :
    d.enterRoot root = ((d.pushRoot root).replay (d.terms.length : Int)
      (Stripping.run ((Term.ofRoot root.upadesha root.gana root.number).addTag .dhatu)
        root.upadesha)).map fun e =>
          ((e.replaceInitial d.terms.length).nasalizeRoot d.terms.length).markAkusmiya root := by
  rw [← dropMarkers_of_taught (term?_pushRoot root d) rfl]
  rfl

theorem enterRoot_leaves (root : Root) (d : Derivation) :
    (d.enterRoot root).Leaves (·.background = d.background) := by
  rw [enterRoot_eq_replay]
  refine Outcome.Leaves.map ?_ _ fun e he => by simpa using he
  unfold replay
  dsimp only
  split <;> exact ((background_update _ _ _).trans (background_replay_steps _ _ _)).trans
    (background_pushRoot root d)

theorem enterRoot_cases (root : Root) (d : Derivation) :
    (∀ c ∈ markless, ¬[c, '~'] <:+: root.upadesha.beforeIr) ∧
        (d.enterRoot root).KeepsBackground d ∨
      ∃ c ∈ markless, [c, '~'] <:+: root.upadesha.beforeIr ∧
        ∃ e, d.enterRoot root = .failed (.notMarker [c]) e := by
  rw [enterRoot_eq_replay]
  rcases Stripping.run_cases
      (t := (Term.ofRoot root.upadesha root.gana root.number).addTag .dhatu)
      (u := root.upadesha) (.inr rfl) with ⟨hnone, hclear⟩ | ⟨c, hc, hinfix, hfault⟩
  · refine .inl ⟨hclear, ?_⟩
    have hreplay := replay_ends (d.terms.length : Int) (Stripping.run
      ((Term.ofRoot root.upadesha root.gana root.number).addTag .dhatu) root.upadesha)
      (d.pushRoot root)
    have hkeeps : (replay _ _ _).KeepsBackground d := hreplay.imp
      (fun e he => he.1.trans (background_pushRoot root d)) fun fault hfault => by
        rw [hnone] at hfault
        cases hfault
    exact hkeeps.map _ fun e => by simp
  · refine .inr ⟨c, hc, hinfix, ?_⟩
    unfold replay
    dsimp only
    rw [hfault]
    exact ⟨_, rfl⟩

-- The tags that a derivation of this form begins with.
def taggedFor (form : VerbForm) (d : Derivation) : Derivation :=
  d.addTags [.prayoga form.prayoga, .purusha form.purusha, .vacana form.vacana]

theorem conjugate_cases (root : Root) (form : VerbForm) {d : Derivation}
    (h : d.table = .standard) :
    (∀ c ∈ markless, ¬[c, '~'] <:+: root.upadesha.beforeIr) ∧
        (d.conjugate root form).Continues optionalRules d ∨
      ∃ c ∈ markless, [c, '~'] <:+: root.upadesha.beforeIr ∧
        ∃ e, d.conjugate root form = .failed (.notMarker [c]) e := by
  let tags : List Tag := [.prayoga form.prayoga, .purusha form.purusha, .vacana form.vacana]
  rcases enterRoot_cases root (d.addTags tags) with ⟨hclear, hkeeps⟩ | ⟨c, hc, hinfix, e, hfail⟩
  · have hroot : ((d.addTags tags).enterRoot root).Continues optionalRules d :=
      (hkeeps.trans (background_addTags tags d)).continues
    have hric := hroot.andThen addRic fun e _ => (keepsBackground_addRic e).continues
    have hlakara := hric.andThen (addLakara form.lakara) fun e _ =>
      (keepsBackground_addLakara form.lakara e).continues
    have hpada := hlakara.map choosePada continues_choosePada
    have hsuffixes := hpada.andThen (addSuffixes form) fun e _ =>
      (keepsBackground_addSuffixes form e).continues
    have hmarkers := hsuffixes.map extendMarkers fun e =>
      continues_of_background _ (background_extendMarkers e)
    have hit := hmarkers.andThen addIt fun e _ => continues_addIt e
    have hdoubled := hit.map reduplicate fun e =>
      continues_of_background _ (background_reduplicate e)
    have hcopy := hdoubled.andThen reduceCopy fun e he =>
      (keepsBackground_reduceCopy (he.trans h)).continues
    have hstem := hcopy.andThen shapeStem fun e _ => continues_shapeStem e
    have hvowels := hstem.andThen joinVowels fun e _ => (keepsBackground_joinVowels e).continues
    have hall := hvowels.andThen joinConsonants fun e he => continues_joinConsonants (he.trans h)
    exact .inl ⟨hclear, hall⟩
  · refine .inr ⟨c, hc, hinfix, e, ?_⟩
    unfold conjugate
    rw [show d.addTags [.prayoga form.prayoga, .purusha form.purusha, .vacana form.vacana] =
      d.addTags tags from rfl, hfail]
    rfl

end Derivation

-- If the first run fails, so does the search.
theorem Run.all_error {run : Run} {rules : List Rule} {fault : Fault} {d : Derivation}
    (h : run [] = .failed fault d) : run.all rules = .error fault := by
  have hpos : 0 < Nat.pow 3 rules.eraseDups.length := Nat.pow_pos (by omega)
  obtain ⟨limit, hlimit⟩ : ∃ limit, Nat.pow 3 rules.eraseDups.length = limit + 1 :=
    ⟨_, (Nat.succ_pred_eq_of_pos hpos).symm⟩
  simp only [Run.all, hlimit, Agenda.start, Run.explore, h]

theorem firstOfEachText_ne_nil {ds : List Derivation} (h : ds ≠ []) :
    firstOfEachText ds ≠ [] := by
  cases ds with
  | nil => exact absurd rfl h
  | cons d rest => simp [firstOfEachText, firstOfTextFrom]

-- Without a nasal vowel that marks nothing every run ends well.
theorem conjugation_names {root : Root} (hclear : ∀ c ∈ markless,
    ¬[c, '~'] <:+: root.upadesha.beforeIr) (form : VerbForm) (recording : Bool) :
    (conjugationRun root form recording .standard).Names optionalRules := by
  intro choices
  rcases Derivation.conjugate_cases root form
    (d := .start choices recording .standard) rfl with ⟨-, hends⟩ | ⟨c, hc, hinfix, -⟩
  · obtain ⟨d, hdone, hcontinues⟩ := hends.exists_done
    refine ⟨d, hdone, fun x hx => (hcontinues.ledger x hx).resolve_left ?_⟩
    exact List.not_mem_nil
  · exact absurd hinfix (hclear c hc)

theorem verbForms_cases {root : Root} {form : VerbForm} (hroot : root.gana ∈ supportedGanas)
    (hform : form.lakara ∈ supportedLakaras) (recording : Bool) :
    (∀ c ∈ markless, ¬[c, '~'] <:+: root.upadesha.beforeIr) ∧
        (∃ forms, verbForms root form recording .standard = .ok forms ∧ forms ≠ []) ∨
      ∃ c ∈ markless, [c, '~'] <:+: root.upadesha.beforeIr ∧
        verbForms root form recording .standard = .error (.fault (.notMarker [c])) := by
  have hsupported : unsupported? root form.lakara = none := by
    simp [unsupported?, hroot, hform]
  unfold verbForms
  rw [hsupported]
  dsimp only
  by_cases hclear : ∀ c ∈ markless, ¬[c, '~'] <:+: root.upadesha.beforeIr
  · refine .inl ⟨hclear, ?_⟩
    obtain ⟨ds, hds⟩ := Run.all_ok (conjugation_names hclear form recording)
    obtain ⟨d, later, rfl, -⟩ := Run.all_head hds
    rw [hds]
    exact ⟨_, rfl, firstOfEachText_ne_nil (List.cons_ne_nil d later)⟩
  · refine .inr ?_
    rcases Derivation.conjugate_cases root form
      (d := .start [] recording .standard) rfl with ⟨hnone, -⟩ | ⟨c, hc, hinfix, e, hfail⟩
    · exact absurd hnone hclear
    · have hfirst : conjugationRun root form recording .standard [] =
          .failed (.notMarker [c]) e := hfail
      refine ⟨c, hc, hinfix, ?_⟩
      rw [Run.all_error hfirst]

theorem exists_verbForms {root : Root} {form : VerbForm} (hroot : root.gana ∈ supportedGanas)
    (hform : form.lakara ∈ supportedLakaras)
    (hclear : ∀ c ∈ markless, ¬[c, '~'] <:+: root.upadesha.beforeIr) (recording : Bool) :
    ∃ forms, verbForms root form recording .standard = .ok forms ∧ forms ≠ [] := by
  rcases verbForms_cases hroot hform recording with ⟨-, hforms⟩ | ⟨c, hc, hinfix, -⟩
  · exact hforms
  · exact absurd hinfix (hclear c hc)

-- What all conjugations end with holds of what a run has come to.
theorem of_run_done {root : Root} {form : VerbForm} {recording : Bool} {table : FeatureTable}
    {choices : Choices} {d : Derivation} {P : Derivation → Prop} {F : Fault → Prop}
    (h : conjugationRun root form recording table choices = .done d)
    (hends : ((Derivation.start choices recording table).conjugate root form).Ends P F) : P d := by
  rw [show (Derivation.start choices recording table).conjugate root form = .done d from h] at hends
  exact hends

-- Every form is what some run has come to.
theorem run_of_mem_verbForms {root : Root} {form : VerbForm} {recording : Bool}
    {table : FeatureTable} {forms : List Derivation}
    (h : verbForms root form recording table = .ok forms) {d : Derivation} (hd : d ∈ forms) :
    ∃ choices, conjugationRun root form recording table choices = .done d := by
  unfold verbForms at h
  split at h
  · cases h
  · split at h
    · rename_i ds hall
      cases h
      exact (Run.explores_of_explore hall).sound d (mem_firstOfTextFrom hd).1
    · cases h

-- What the run with no choices has come to is a form.
theorem mem_verbForms_of_run {root : Root} {form : VerbForm} {recording : Bool}
    {table : FeatureTable} {forms : List Derivation}
    (h : verbForms root form recording table = .ok forms) :
    ∃ d ∈ forms, conjugationRun root form recording table [] = .done d := by
  unfold verbForms at h
  split at h
  · cases h
  · split at h
    · rename_i ds hall
      cases h
      obtain ⟨d, later, rfl, hrun⟩ := Run.all_head hall
      exact ⟨d, by simp [firstOfEachText, firstOfTextFrom], hrun⟩
    · cases h

end Vyakarana
