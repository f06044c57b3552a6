import Vyakarana.Proofs.Grammar.Markers
import Vyakarana.Proofs.Grammar.SuffixRules

/-!
The root gets its suffixes without a fault.

Every rule from the derived roots to the augment of the ardhadhatuka suffixes ends well on any
derivation. It leaves the background alone, but for the choice of the endings and the augment,
which may add to the ledger.
-/

namespace Vyakarana

namespace Derivation

theorem keepsBackground_addRic (d : Derivation) :
    d.addRic.KeepsBackground d := by
  unfold addRic
  split
  · exact rfl
  · split
    · exact (keepsBackground_suffixAfter (by decide) _ _ _ d).map _ fun e =>
        background_alter _ _ _ e
    · exact rfl

theorem droppable_lakara (lakara : Lakara) : Droppable lakara.upadesha := by
  cases lakara <;> decide

theorem keepsBackground_addLakara (lakara : Lakara) (d : Derivation) :
    (d.addLakara lakara).KeepsBackground d := by
  unfold addLakara
  split
  · exact rfl
  · dsimp only
    split
    · exact keepsBackground_suffixAfter (droppable_lakara lakara) _ _ _ (d.addTag .ashih)
    · exact keepsBackground_suffixAfter (droppable_lakara lakara) _ _ _ d

@[simp] theorem background_markPada (pada : Pada) (d : Derivation) :
    (d.markPada pada).background = d.background := by
  unfold markPada
  dsimp only
  split <;> simp

@[simp] theorem background_markParasmaipada (d : Derivation) :
    d.markParasmaipada.background = d.background := by
  unfold markParasmaipada
  rw [background_record, background_markPada]

theorem continues_optionalPada {rule : Rule} (h : rule ∈ optionalRules) (d : Derivation) :
    (d.optionalPada rule).Continues optionalRules d := by
  have hstep := continues_optionally h (f := (·.markPada .atmanepada))
    (background_markPada .atmanepada) d
  unfold optionalPada
  split
  · rename_i e heq
    rw [heq] at hstep
    exact hstep
  · rename_i e heq
    rw [heq] at hstep
    exact (continues_of_background _ (background_markParasmaipada e)).trans hstep

theorem continues_choosePada (d : Derivation) : d.choosePada.Continues optionalRules d := by
  unfold choosePada
  split
  · split
    · exact continues_of_background _ (by simp)
    · split
      · exact continues_of_background _ (by simp)
      · split
        · exact continues_of_background _ (by simp)
        · split
          · exact continues_optionalPada (by decide) d
          · split
            · exact continues_optionalPada (by decide) d
            · exact continues_of_background _ (by simp)
  · exact continues_of_background _ rfl

theorem droppable_parasmaipadaEnding (purusha : Purusha) (vacana : Vacana) :
    Droppable (parasmaipadaEnding purusha vacana) := by
  cases purusha <;> cases vacana <;> decide

theorem droppable_atmanepadaEnding (purusha : Purusha) (vacana : Vacana) :
    Droppable (atmanepadaEnding purusha vacana) := by
  cases purusha <;> cases vacana <;> decide

theorem keepsBackground_giveEnding (purusha : Purusha) (vacana : Vacana) (d : Derivation) :
    (d.giveEnding purusha vacana).KeepsBackground d := by
  unfold giveEnding
  split
  · exact rfl
  · dsimp only
    split
    · have hgiven := keepsBackground_substitute (droppable_atmanepadaEnding purusha vacana)
      exact ((hgiven _ _ _).trans (background_update _ _ d)).map _ fun e => background_update _ _ e
    · have hgiven := keepsBackground_substitute (droppable_parasmaipadaEnding purusha vacana)
      exact ((hgiven _ _ _).trans (background_update _ _ d)).map _ fun e => background_update _ _ e

theorem background_classifySuffixes (d : Derivation) :
    d.classifySuffixes.background = d.background :=
  (alters_classifySuffixes d).background

theorem background_extendMarkers (d : Derivation) : d.extendMarkers.background = d.background :=
  (alters_extendMarkers d).background

theorem keepsBackground_fitWit (i : Nat) (d : Derivation) :
    (d.fitWit i).KeepsBackground d := by
  unfold fitWit
  split
  · exact keepsBackground_substitute (by decide) _ i d
  · exact background_alter _ _ _ d

theorem mem_of_corresponding? {needle sub : Text} {old new : List Text}
    (h : corresponding? needle old new = some sub) : sub ∈ new := by
  obtain ⟨before, after, heq, -⟩ := List.lookup_eq_some_iff.mp h
  have hmem : (needle, sub) ∈ old.zip new := by
    rw [heq]
    simp
  exact (List.of_mem_zip hmem).2

theorem keepsBackground_fitPerfect (i : Nat) (d : Derivation) :
    (d.fitPerfect i).KeepsBackground d := by
  unfold fitPerfect
  split
  · exact rfl
  · split
    · split
      · rename_i sub hsub
        have hall : ∀ sub ∈ ["eS".toList, "irec".toList], Droppable sub := by decide
        exact (keepsBackground_substitute (hall sub (mem_of_corresponding? hsub)) _ i d).map _
          fun e => background_update _ _ e
      · exact keepsBackground_fitWit i d
    · split
      · rename_i sub hsub
        have hall : ∀ sub ∈ perfectEndings, Droppable sub := by decide
        exact keepsBackground_substitute (hall sub (mem_of_corresponding? hsub)) _ i d
      · exact rfl

theorem background_fitImperativeFinal (i : Nat) (d : Derivation) :
    (d.fitImperativeFinal i).background = d.background :=
  background_eq_of_rest (actsAt_fitImperativeFinal i d).rest

theorem background_fitNit (i : Nat) (keepsI : Bool) (d : Derivation) :
    (d.fitNit i keepsI).background = d.background :=
  background_eq_of_rest (actsAt_fitNit i keepsI d).rest

theorem keepsBackground_fitImperative (i : Nat) (d : Derivation) :
    (d.fitImperative i).KeepsBackground d := by
  unfold fitImperative
  dsimp only
  split
  · refine ((keepsBackground_augmentBefore (by decide) _ i _).trans ?_).map _ fun e =>
      background_fitNit _ _ e
    rw [background_update, background_fitImperativeFinal]
  · exact (background_fitNit i true _).trans (background_fitImperativeFinal i d)

theorem keepsBackground_fitEnding (lakara : Lakara) (d : Derivation) :
    (d.fitEnding lakara).KeepsBackground d := by
  unfold fitEnding
  split
  · exact rfl
  · rename_i i _
    split
    · exact keepsBackground_fitPerfect i d
    · dsimp only
      have hfitted : (if (d.has i fun t => t.hasTag (.pada .atmanepada)) && lakara.isWit then
          d.fitWit i else .done d).KeepsBackground d := by
        split
        · exact keepsBackground_fitWit i d
        · exact rfl
      split
      · exact hfitted.andThen _ fun e => keepsBackground_fitImperative i e
      · split
        · exact hfitted.map _ fun e => background_fitNit i false e
        · exact hfitted

theorem keepsBackground_addStemSuffix {u : Text} (hu : Droppable u) (rule : Rule) (d : Derivation) :
    (d.addStemSuffix rule u).KeepsBackground d := by
  unfold addStemSuffix
  split
  · exact keepsBackground_suffixAfter hu rule _ _ d
  · exact rfl

@[simp] theorem background_addAuxiliary (i : Nat) (d : Derivation) :
    (d.addAuxiliary i).background = d.background := by
  unfold addAuxiliary
  split
  · rfl
  · split <;> simp

theorem mem_of_classSuffix? {gana : Int} {rule : Rule} {u : Text}
    (h : classSuffix? gana = some (rule, u)) :
    u ∈ ["Sap".toList, "Syan".toList, "Sa".toList] := by
  unfold classSuffix? at h
  split at h
  · cases h
    decide
  · split at h
    · cases h
      decide
    · split at h
      · cases h
        decide
      · cases h

theorem droppable_of_classSuffix? {gana : Int} {rule : Rule} {u : Text}
    (h : classSuffix? gana = some (rule, u)) : Droppable u := by
  have hall : ∀ u ∈ ["Sap".toList, "Syan".toList, "Sa".toList], Droppable u := by decide
  exact hall u (mem_of_classSuffix? h)

theorem keepsBackground_addVikarana (d : Derivation) :
    d.addVikarana.KeepsBackground d := by
  unfold addVikarana
  split
  · exact rfl
  · split
    · exact background_addAuxiliary _ d
    · split
      · exact keepsBackground_addStemSuffix (by decide) _ d
      · split
        · exact rfl
        · split
          · exact keepsBackground_addStemSuffix (by decide) _ d
          · split
            · rename_i rule u hsuffix
              obtain ⟨gana, -, hgana⟩ := Option.bind_eq_some_iff.mp hsuffix
              exact keepsBackground_addStemSuffix (droppable_of_classSuffix? hgana) rule d
            · exact rfl

theorem keepsBackground_addSuffixes (form : VerbForm) (d : Derivation) :
    (d.addSuffixes form).KeepsBackground d := by
  have hgiven := (keepsBackground_giveEnding form.purusha form.vacana d).map classifySuffixes
    background_classifySuffixes
  unfold addSuffixes
  dsimp only
  split
  · have hfitted := hgiven.andThen (fitEnding .lit) (keepsBackground_fitEnding .lit)
    exact (hfitted.andThen addVikarana keepsBackground_addVikarana).map classifySuffixes
      background_classifySuffixes
  · have hstem := (hgiven.andThen addVikarana keepsBackground_addVikarana).map classifySuffixes
      background_classifySuffixes
    exact hstem.andThen (fitEnding form.lakara) (keepsBackground_fitEnding form.lakara)

theorem continues_takesIt (root : Term) (suffix : View) (d : Derivation) :
    (d.takesIt root suffix).2.Continues optionalRules d := by
  have hkept : KeptByAsking (·.Continues optionalRules d) :=
    ⟨fun rule _ e he => (continues_of_background _ (background_record rule e)).trans he,
      fun rule hrule e he => (continues_accept hrule e).trans he,
      fun rule hrule e he => (continues_decline hrule e).trans he⟩
  exact hkept.takesIt root suffix (continues_of_background _ rfl)

theorem continues_addIt (d : Derivation) : d.addIt.Continues optionalRules d := by
  rcases d.addIt_cases with heq | ⟨before, root, after, suffix, -, heq⟩
  · rw [heq]
    exact continues_of_background _ rfl
  · have htakes := continues_takesIt root suffix d
    rw [heq]
    split
    · exact (keepsBackground_augmentAfter (by decide) _ _ _).continues.trans htakes
    · exact htakes

end Derivation

end Vyakarana
