import Vyakarana.Proofs.Grammar.StemRules
import Vyakarana.Proofs.Grammar.Suffixes

/-!
The copy of the root and the stem are shaped without a fault.

The copy needs the palatals of the table in use; the standard table has them. Only the R of Ral
adds to the ledger.
-/

namespace Vyakarana

namespace FeatureTable

theorem covers_standard : standard.Covers Sound.alphabet := by
  intro c hc
  have hstandard : Articulation.standard? c ≠ none := by
    unfold Articulation.standard?
    rw [if_pos (List.contains_iff_mem.mpr hc)]
    exact Option.some_ne_none _
  exact hstandard

theorem not_lacks_standard {sounds : List Char} {fault : Fault}
    (hsub : ∀ c ∈ sounds, c ∈ Sound.alphabet) : ¬standard.Lacks sounds fault :=
  fun h => h.not_covers fun c hc => covers_standard c (hsub c hc)

end FeatureTable

namespace Derivation

theorem background_reduplicate (d : Derivation) :
    d.reduplicate.background = d.background := by
  rcases d.reduplicate_cases with heq | ⟨before, t, after, -, -, -, -, -, heq⟩
  · rw [heq]
  · rw [heq]
    simp [doubleAt]

theorem keepsBackground_reduceCopy {d : Derivation} (h : d.table = .standard) :
    d.reduceCopy.KeepsBackground d := by
  refine (reduceCopy_ends (P := fun e => e.background = d.background) rfl
    fun _ _ _ he => he.background).imp (fun _ he => he) fun fault hlacks => ?_
  rw [h] at hlacks
  exact FeatureTable.not_lacks_standard (by decide +kernel) hlacks

theorem keepsBackground_augmentPast (d : Derivation) : d.augmentPast.KeepsBackground d := by
  have hdroppable : ∀ x ∈ pastAugments, Droppable x.2 := by decide
  rcases d.augmentPast_cases with heq | ⟨before, t, after, x, hx, -, -, -, heq⟩
  · rw [heq]
    exact rfl
  · rw [heq]
    exact keepsBackground_augmentBefore (hdroppable x hx) _ _ d

theorem keepsBackground_augmentBhu (d : Derivation) : d.augmentBhu.KeepsBackground d := by
  rcases d.augmentBhu_cases with heq | ⟨before, t, after, -, -, heq⟩
  · rw [heq]
    exact rfl
  · rw [heq]
    exact (keepsBackground_augmentAfter (by decide) _ _ d).map _ fun e => background_update _ _ e

theorem keepsBackground_prepareStem (d : Derivation) : d.prepareStem.KeepsBackground d := by
  unfold prepareStem
  have haugmented := ((keepsBackground_augmentPast d.replaceJ).trans
    (alters_replaceJ d).background).andThen augmentBhu keepsBackground_augmentBhu
  exact haugmented.map _ fun e => (alters_dropA e).background

theorem continues_relaxRal (d : Derivation) : d.relaxRal.Continues optionalRules d := by
  rcases d.relaxRal_cases with heq | ⟨i, heq⟩
  · rw [heq]
    exact continues_of_background _ rfl
  · rw [heq]
    exact continues_optionally (by decide) (fun e => background_update _ _ e) d

theorem continues_strengthenStem (d : Derivation) :
    d.strengthenStem.Continues optionalRules d :=
  (continues_of_background _ (alters_forEach alters_strengthenAt _).background).trans
    (continues_relaxRal d)

theorem background_contractPerfect (d : Derivation) :
    d.contractPerfect.background = d.background := by
  rcases d.contractPerfect_cases with heq | ⟨i, copy, root, rule, -, -, -, -, -, -, heq⟩
  · rw [heq]
  · rw [heq]
    simp

theorem background_joinStem (d : Derivation) : d.joinStem.background = d.background :=
  (alters_joined d.contractPerfect).background.trans (background_contractPerfect d)

theorem continues_shapeStem (d : Derivation) : d.shapeStem.Continues optionalRules d := by
  unfold shapeStem
  refine (keepsBackground_prepareStem d).continues.map _ fun e => ?_
  exact (continues_of_background _ (background_joinStem _)).trans (continues_strengthenStem e)

theorem continues_joinConsonants {d : Derivation} (h : d.table = .standard) :
    d.joinConsonants.Continues optionalRules d := by
  refine (joinConsonants_ends (by decide) d).imp (fun e he => he.1) fun fault hlacks => ?_
  rw [h] at hlacks
  exact FeatureTable.not_lacks_standard (by decide) hlacks

end Derivation

end Vyakarana
