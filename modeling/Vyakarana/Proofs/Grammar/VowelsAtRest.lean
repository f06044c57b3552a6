import Vyakarana.Proofs.Grammar.VowelSandhi

/-!
The number of changes that the rules for vowels in contact make, and what they leave.

A vowel rule reports a change wherever it applies. A look through the text that changes nothing
has therefore found no site at all, and another sweep ends with its first look.
-/

namespace Vyakarana

namespace SoundRule

variable {r : SoundRule}

-- Wherever the rule applies a sound stands, and the rule reports a change.
structure Forthright (r : SoundRule) : Prop where
  stands : ∀ s, r.applies s = true → s.here?.isSome = true
  reports : ∀ s, r.applies s = true → (r.act s).2 = true

theorem forthright_forPair {rule : Rule} {applies : Char → Char → Bool}
    {change : Site → Char → Char → Derivation} : (forPair rule applies change).Forthright where
  stands s happlies := by
    obtain ⟨x, y, hx, -⟩ := acts_forPair happlies
    rw [hx]
    rfl
  reports s happlies := by
    obtain ⟨x, y, -, -, -, hact⟩ := acts_forPair happlies
    rw [hact]

theorem forthright_augmentVrddhi : augmentVrddhi.Forthright where
  stands s happlies := by
    obtain ⟨x, _, _, hx, -⟩ := acts_augmentVrddhi happlies
    rw [hx]
    rfl
  reports _ _ := rfl

theorem forthright_dropYv : dropYv.Forthright where
  stands s happlies := by
    obtain ⟨x, -, hx, -⟩ := acts_dropYv happlies
    rw [hx]
    rfl
  reports _ _ := rfl

theorem forthright_absorbA : absorbA.Forthright where
  stands s happlies := by
    obtain ⟨_, hx, -⟩ := acts_absorbA happlies
    rw [hx]
    rfl
  reports _ _ := rfl

theorem forthright_mergeAfterA : mergeAfterA.Forthright where
  stands s happlies := by
    obtain ⟨x, _, _, _, hx, -⟩ :=
      acts_mergeAfterA (P := fun _ _ => True) (fun _ _ => trivial) (fun _ _ => trivial) happlies
    rw [hx]
    rfl
  reports s _ := by
    simp only [mergeAfterA]
    split <;> rfl

theorem forthright_of_mem (h : r ∈ vowelRules) : r.Forthright := by
  simp only [vowelRules, List.mem_cons, List.not_mem_nil, or_false] at h
  rcases h with rfl | rfl | rfl | rfl | rfl | rfl | rfl
  · exact forthright_augmentVrddhi
  · exact forthright_dropYv
  · exact forthright_absorbA
  · exact forthright_forPair
  · exact forthright_forPair
  · exact forthright_forPair
  · exact forthright_mergeAfterA

-- At rest such a rule applies nowhere, neither in the text nor beyond it.
theorem Forthright.not_applies (h : r.Forthright) (hidle : r.Idle) {d e : Derivation}
    (hrests : r.Rests d e) (k : Nat) : r.applies ⟨e, e.text, k⟩ = false := by
  by_contra happlies
  rw [Bool.not_eq_false] at happlies
  obtain ⟨x, hx⟩ := Option.isSome_iff_exists.mp (h.stands _ happlies)
  obtain ⟨hk, -⟩ := List.getElem?_eq_some_iff.mp hx
  have hstill := hrests.at_rest hidle k hk happlies
  rw [h.reports _ happlies] at hstill
  cases hstill

-- Where the rule does not apply, a look through the text changes nothing.
theorem scan_of_not_applies {text : Text} {d : Derivation}
    (h : ∀ k, r.applies ⟨d, text, k⟩ = false) (offsets : List Nat) :
    r.scan text offsets d = (d, false) := by
  induction offsets with
  | nil => rfl
  | cons k rest ih =>
      rw [scan, if_neg (by rw [h k]; exact Bool.false_ne_true)]
      exact ih

end SoundRule

namespace Derivation

-- From every derivation a vowel rule halts after no more changes than the text has sounds,
-- with f and x counted twice, however many it is allowed. It then applies nowhere, and
-- another sweep changes nothing at all.
theorem vowelSweep_exhausts {r : SoundRule} (h : r ∈ SoundRule.vowelRules) (d : Derivation) :
    ∃ e n, d.vowelSweep? r = some (e, n) ∧ r.Rests d e ∧
      n ≤ d.text.length + d.text.countP Sound.isVocalicLiquid ∧
      (∀ limit, n ≤ limit → r.sweep? limit d = some (e, n)) ∧
      (∀ k, r.applies ⟨e, e.text, k⟩ = false) ∧
      e.vowelSweep? r = some (e, 0) := by
  have hr := SoundRule.restsInBound_of_mem h
  obtain ⟨w, hspends, hbound⟩ := hr.spends
  obtain ⟨e, n, hn, hsweep⟩ := hspends.sweep? d
  have hrests := SoundRule.rests_of_sweep? (hsweep n (Nat.le_refl n))
  have hquiet := (SoundRule.forthright_of_mem h).not_applies hr.idle hrests
  have hstill : r.scanAll e = (e, false) := SoundRule.scan_of_not_applies hquiet _
  exact ⟨e, n, hsweep d.changeBound (hn.trans (hbound d)), hrests, hn.trans (hbound d), hsweep, hquiet,
    SoundRule.sweep?_of_still hstill e.changeBound⟩

-- Three vowels in a row: two of them turn into their semivowels, and that is all.
theorem toSemivowel_exhausts_three_vowels :
    ∃ e, (Derivation.mk [.ofText "iii".toList] [] [] [] [] true .standard).vowelSweep?
        .toSemivowel = some (e, 2) ∧ e.text = "yyi".toList ∧
      e.vowelSweep? .toSemivowel = some (e, 0) := by
  have hmem : SoundRule.toSemivowel ∈ SoundRule.vowelRules := by simp [SoundRule.vowelRules]
  obtain ⟨e, n, hsweep, -, -, -, -, hagain⟩ :=
    vowelSweep_exhausts hmem ⟨[.ofText "iii".toList], [], [], [], [], true, .standard⟩
  have hresult : ((Derivation.mk [.ofText "iii".toList] [] [] [] [] true .standard).vowelSweep?
      .toSemivowel).map (fun x => (x.1.text, x.2)) = some ("yyi".toList, 2) := by decide +kernel
  rw [hsweep] at hresult
  obtain ⟨htext, rfl : n = 2⟩ := Prod.mk.inj (Option.some.inj hresult)
  exact ⟨e, hsweep, htext, hagain⟩

end Derivation

end Vyakarana
