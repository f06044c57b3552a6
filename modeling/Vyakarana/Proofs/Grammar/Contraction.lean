import Vyakarana.Proofs.Derivation.Consultation
import Vyakarana.Proofs.Grammar.Openings
import Vyakarana.Proofs.Grammar.Trace

/-!
Which roots lose their copy in the perfect.

A root is contracted if its copy begins as it does itself. By then 7.4.62 has put a palatal in the
place of a stop of the throat or of h, so that a root with such a sound keeps its copy. The last of
the substitutes for the first sound of a copy is that of 8.4.54, though, and it comes too late to be
seen. The rules 6.4.120 and 6.4.121 are recorded in one place, so that the trace has no such step but
for a contraction.
-/

namespace Vyakarana

namespace Derivation

variable {d e : Derivation}

-- The steps in which the root has lost its copy.
def contractions (d : Derivation) : List Step := d.history.filter (isContraction ·.rule)

theorem contractions_of_recountsBy (h : e.RecountsBy (!isContraction ·) d) :
    e.contractions = d.contractions :=
  h.filter_history fun _ hrule => by rwa [Bool.not_eq_true'] at hrule

theorem exists_adi_of_isShortWithA {t : Term} (h : isShortWithA t.text = true) :
    ∃ x, t.adi? = some x ∧ Sound.isHal x = true := by
  unfold isShortWithA at h
  split at h
  · rename_i x y z htext
    simp only [Bool.and_eq_true] at h
    exact ⟨x, by rw [Term.adi?, htext]; rfl, h.1.1⟩
  · cases h

-- 6.4.120 and 6.4.121 are recorded only for a root that begins as its copy does, with a consonant.
theorem contractions_contractPerfect {form : VerbForm} {suffixes : List Term} {P Q : Char → Prop}
    (hs : IsBack form suffixes) (hd : MadeOf suffixes true d.terms)
    (hroots : OpenedBy .dhatu P d.terms) (hcopies : OpenedBy .abhyasa Q d.terms) :
    d.contractPerfect.contractions = d.contractions ∨
      ∃ x, Sound.isHal x = true ∧ P x ∧ Q x := by
  rcases d.contractPerfect_cases with heq |
    ⟨i, copy, root, rule, -, hfirst, hcopy?, hroot?, hshort, hsame, -⟩
  · rw [heq]
    exact .inl rfl
  · obtain ⟨before, copy', root', after, hterms, hcopy, hroot, hno, -⟩ := hd.copied hs
    cases hfirst.symm.trans (firstTagged?_of_cut hterms hcopy.abhyasa fun t ht =>
      hno t (List.mem_append_left _ ht))
    have hcut : d.terms = (before ++ [copy']) ++ root' :: after := by rw [hterms]; simp
    rw [show before.length + 1 = (before ++ [copy']).length by simp] at hroot?
    cases hcopy?.symm.trans (term_of_cut hterms)
    cases hroot?.symm.trans (term_of_cut hcut)
    obtain ⟨x, hx, hhal⟩ := exists_adi_of_isShortWithA hshort
    exact .inr ⟨x, hhal, hroots root (by simp [hterms]) hroot x hx hhal,
      hcopies copy (by simp [hterms]) hcopy.abhyasa x (hsame.trans hx) hhal⟩

section Pipeline

variable {root : Root} {form : VerbForm} {pada : Pada}

-- No contraction has been recorded, if the root does not begin with a consonant that 7.4.62 leaves
-- as it is.
def HeedsPalatals (root : Root) (d : Derivation) : Prop :=
  d.contractions = [] ∨
    ∃ x, root.entered.adi? = some x ∧ Sound.isHal x = true ∧ kuAndHSounds.contains x = false

theorem HeedsPalatals.keep (h : HeedsPalatals root d) (he : e.RecountsBy (!isContraction ·) d) :
    HeedsPalatals root e :=
  h.imp_left (contractions_of_recountsBy he).trans

theorem HeedsPalatals.keep_plain (h : HeedsPalatals root d) (he : e.RecountsBy isPlain d) :
    HeedsPalatals root e :=
  h.keep (he.mono not_isContraction_of_isPlain)

theorem recountsBy_prepared (d : Derivation) : d.prepared.RecountsBy isPlain d :=
  ((((recountsBy_addIt _).trans (recountsBy_extendMarkers d)).map _
    recountsBy_reduplicate).andThen _ recountsBy_reduceCopy).andThen _ recountsBy_prepareStem

theorem shaped_heedsPalatals (hlit : form.lakara = .lit)
    (hd : d.terms = suffixedRow root form pada) (hnone : d.contractions = []) :
    d.shaped.Ends (HeedsPalatals root) fun _ => True := by
  have hform : form.lakara ∈ supportedLakaras := by rw [hlit]; decide
  have hs := isBack_preparedSuffixes hform root.gana pada
  have hstrengthened := ((recountsBy_prepared d).mono not_isContraction_of_isPlain).map _
    recountsBy_strengthenStem
  have hshaped : d.shaped = ((((d.extendMarkers.addIt.map reduplicate).andThen reduceCopy).andThen
      prepareStem).map strengthenStem).map fun e => e.contractPerfect.forEach softenFinal := by
    simp only [shaped, Outcome.map, Outcome.andThen_assoc, Outcome.andThen_done]
    rfl
  rw [hshaped]
  refine ((strengthened_opened hlit hd).and hstrengthened).map _ fun e he => ?_
  obtain ⟨⟨hmade, hroots, hcopies⟩, htold⟩ := he
  refine HeedsPalatals.keep_plain ?_ (recountsBy_joining (alters_forEach alters_softenFinal _))
  refine (contractions_contractPerfect hs hmade hroots hcopies).imp
    (fun h => h.trans ((contractions_of_recountsBy htold).trans hnone)) ?_
  rintro ⟨x, hhal, hroot | rfl, hno⟩
  · exact ⟨x, hroot, hhal, hno⟩
  · exact absurd hno (by decide)

theorem recountsBy_suffixed (root : Root) (form : VerbForm) (d : Derivation) :
    (d.suffixed root form).RecountsBy isPlain (d.taggedFor form) := by
  have hroot := (recountsBy_enterRoot root (d.taggedFor form)).andThen _ recountsBy_addRic
  exact ((hroot.andThen _ (recountsBy_addLakara form.lakara)).map _ recountsBy_choosePada).andThen _
    (recountsBy_addSuffixes form)

theorem recountsBy_fitSuffixes (d : Derivation) : d.fitSuffixes.RecountsBy isPlain d :=
  recountsBy_joining (alters_fitted d)

theorem conjugate_heedsPalatals (hlit : form.lakara = .lit) (hterms : d.terms = [])
    (htags : d.tags = []) (hnone : d.contractions = []) :
    (d.conjugate root form).Ends (HeedsPalatals root) fun _ => True := by
  have hform : form.lakara ∈ supportedLakaras := by rw [hlit]; decide
  have hsuffixed := (suffixed_shows hform hterms htags).and (recountsBy_suffixed root form d)
  have hshaped : ((d.suffixed root form).andThen shaped).Ends (HeedsPalatals root) fun _ => True :=
    hsuffixed.andThen shaped fun e he =>
      shaped_heedsPalatals hlit he.1.1 <| (contractions_of_recountsBy
        (he.2.mono not_isContraction_of_isPlain)).trans hnone
  have hfitted := hshaped.map fitSuffixes fun e (he : HeedsPalatals root e) =>
    he.keep_plain (recountsBy_fitSuffixes e)
  have hvowels := hfitted.andThen joinVowels fun e he =>
    (recountsBy_joinVowels e).imp (fun f hf => he.keep_plain hf) fun _ h => h
  rw [conjugate_eq_shaped]
  exact hvowels.andThen joinConsonants fun e he =>
    (recountsBy_joinConsonants e).imp (fun f hf => he.keep_plain hf) fun _ h => h

end Pipeline

end Derivation

-- What 7.4.62 and then 8.4.54 make of a copy that is one sound.
def copyInitial? (x : Char) : Option Char :=
  let copy := (Term.ofText [x]).addTag .abhyasa
  match (((Derivation.start [] false .standard).push copy).palatalize 0).andThen
      Derivation.deaspirateCopy with
  | .done d => d.terms.head?.bind (·.adi?)
  | .failed _ _ => none

-- Both substitutes are heard just of the stops of the throat, of h and of the aspirates.
theorem copyInitial?_eq_self_iff {x : Char} (h : Sound.isHal x = true) :
    copyInitial? x = some x ↔
      kuAndHSounds.contains x = false ∧ Articulation.aspirated.contains x = false := by
  have hall : ∀ x ∈ SoundClass.hal.sounds, copyInitial? x = some x ↔
      kuAndHSounds.contains x = false ∧ Articulation.aspirated.contains x = false := by
    decide +kernel
  exact hall x (List.contains_iff_mem.mp h)

-- In the perfect, 6.4.120 and 6.4.121 are recorded only of a root whose first sound stays in its
-- copy up to these rules: it is a consonant, but no stop of the throat, and not h. If it is an
-- aspirate, 8.4.54 would still have replaced it in the copy; if not, the copy would have kept it.
theorem contraction_heeds_palatals_only {root : Root} {form : VerbForm} {recording : Bool}
    {choices : Choices} {d : Derivation} (hlit : form.lakara = .lit)
    (hrun : conjugationRun root form recording .standard choices = .done d) {step : Step}
    (hstep : step ∈ d.history) (hrule : step.rule = "6.4.120" ∨ step.rule = "6.4.121") :
    ∃ x, root.entered.adi? = some x ∧ Sound.isHal x = true ∧ kuAndHSounds.contains x = false ∧
      (copyInitial? x = some x ↔ Articulation.aspirated.contains x = false) := by
  have hheeds := of_run_done hrun (Derivation.conjugate_heedsPalatals hlit rfl rfl rfl)
  have hcontracted : step ∈ d.contractions := by
    rw [Derivation.contractions, List.mem_filter]
    exact ⟨hstep, by simpa using hrule⟩
  rcases hheeds with hnone | ⟨x, hroot, hhal, hno⟩
  · rw [hnone] at hcontracted
    cases hcontracted
  · refine ⟨x, hroot, hhal, hno, ?_⟩
    rw [copyInitial?_eq_self_iff hhal, hno]
    simp

-- The root BaR in the third person dual of the perfect.
def perfectOfBhan : Outcome :=
  conjugationRun ⟨"BaRa~".toList, 1, none, none⟩ ⟨.lit, .prathama, .dvi, .kartari⟩ true .standard []

theorem exists_contraction_of_bhan :
    ∃ d, perfectOfBhan = .done d ∧ ∃ step ∈ d.history, step.rule = "6.4.120" := by
  have hrecorded : perfectOfBhan.fault? = none ∧
      perfectOfBhan.left.history.any (·.rule == "6.4.120") = true := by decide +kernel
  rcases hrun : perfectOfBhan with d | ⟨fault, d⟩
  · rw [hrun] at hrecorded
    obtain ⟨step, hstep, hrule⟩ := List.any_eq_true.mp hrecorded.2
    exact ⟨d, rfl, step, hstep, beq_iff_eq.mp hrule⟩
  · rw [hrun] at hrecorded
    cases hrecorded.1

theorem contraction_of_bhan :
    ∃ d, perfectOfBhan = .done d ∧ (∃ step ∈ d.history, step.rule = "6.4.120") ∧
      ∃ x, (Root.entered ⟨"BaRa~".toList, 1, none, none⟩).adi? = some x ∧
        Sound.isHal x = true ∧ kuAndHSounds.contains x = false ∧
        (copyInitial? x = some x ↔ Articulation.aspirated.contains x = false) := by
  obtain ⟨d, hrun, step, hstep, hrule⟩ := exists_contraction_of_bhan
  exact ⟨d, hrun, ⟨step, hstep, hrule⟩, contraction_heeds_palatals_only rfl hrun hstep (.inl hrule)⟩

-- Its B would be b in the copy.
theorem contraction_heeds_no_aspirate :
    ¬∀ (root : Root) (form : VerbForm) (choices : Choices) (d : Derivation), form.lakara = .lit →
      conjugationRun root form true .standard choices = .done d →
      (∃ step ∈ d.history, step.rule = "6.4.120" ∨ step.rule = "6.4.121") →
      ∀ x, root.entered.adi? = some x → copyInitial? x = some x := by
  intro h
  obtain ⟨d, hrun, step, hstep, hrule⟩ := exists_contraction_of_bhan
  have hkept := h _ _ _ d rfl hrun ⟨step, hstep, .inl hrule⟩ 'B' (by decide +kernel)
  exact absurd hkept (by decide +kernel)

end Vyakarana
