import Vyakarana.Grammar.VowelSandhi
import Vyakarana.Proofs.Derivation.Exchange
import Vyakarana.Proofs.Derivation.Rest

/-!
The rules for vowels in contact come to rest within their bound, from every derivation.

What each of them does where it applies is said once, before anything is said of what follows from
it. A rule that merges two vowels lessens the bulk of the text, in which the vowels whose grades end
in a semivowel count twice. A rule that turns a vowel into other sounds uses up the vowels of its
kind.
-/

namespace Vyakarana

namespace Sound

def bulk (c : Char) : Nat := if isVocalicLiquid c then 2 else 1

theorem one_le_bulk (c : Char) : 1 ≤ bulk c := by
  unfold bulk
  split <;> omega

end Sound

theorem Derivation.weight_bulk (d : Derivation) : Text.weight Sound.bulk d.text = d.changeBound := by
  unfold changeBound
  induction d.text with
  | nil => rfl
  | cons c rest ih =>
      rw [Text.weight_cons, ih, List.length_cons, List.countP_cons, Sound.bulk]
      split <;> omega

namespace Site

variable {s : Site} {w : Char → Nat}

theorem here?_of_next? {y : Char} (h : s.next? = some y) : ∃ x, s.here? = some x := by
  obtain ⟨hlt, -⟩ := List.getElem?_eq_some_iff.mp h
  exact ⟨s.text[s.offset], List.getElem?_eq_getElem (by omega)⟩

theorem weight_merge_lt (hs : s.Current) {x y : Char} (hx : s.here? = some x)
    (hy : s.next? = some y) {sub : Text} (hsub : Text.weight w sub < w x + w y) :
    Text.weight w (s.merge sub).text < Text.weight w s.text := by
  have hw := weight_merge w hs hx hy sub
  omega

end Site

namespace SoundRule

section Acts

variable {s : Site} {rule : Rule} {applies : Char → Char → Bool}
  {change : Site → Char → Char → Derivation}

theorem acts_forPair (h : (forPair rule applies change).applies s = true) :
    ∃ x y, s.here? = some x ∧ s.next? = some y ∧ applies x y = true ∧
      (forPair rule applies change).act s = ((change s x y).record rule, true) := by
  obtain ⟨x, hx, hnext⟩ := (Option.any_eq_true _ _).mp h
  obtain ⟨y, hy, hpair⟩ := (Option.any_eq_true _ _).mp hnext
  exact ⟨x, y, hx, hy, hpair, by simp only [forPair, hx, hy]⟩

theorem acts_augmentVrddhi (h : augmentVrddhi.applies s = true) :
    ∃ x y t, s.here? = some x ∧ s.next? = some y ∧ Sound.isAc y = true ∧ s.owner? = some t ∧
      t.isTaught "Aw".toList = true ∧ s.isBoundary = true ∧
      augmentVrddhi.act s = ((s.merge ((Sound.vrddhi? y).getD [])).record "6.1.90", true) := by
  simp only [augmentVrddhi, recorded, Bool.and_eq_true] at h
  obtain ⟨⟨hvowel, howner⟩, hboundary⟩ := h
  obtain ⟨y, hy, hac⟩ := (Option.any_eq_true _ _).mp hvowel
  obtain ⟨t, ht, htaught⟩ := (Option.any_eq_true _ _).mp howner
  obtain ⟨x, hx⟩ := Site.here?_of_next? hy
  refine ⟨x, y, t, hx, hy, hac, ht, htaught, hboundary, ?_⟩
  simp only [augmentVrddhi, recorded, Site.mergeGrade, hy, Option.bind_some]

theorem acts_dropYv (h : dropYv.applies s = true) :
    ∃ x ∈ ['y', 'v'], s.here? = some x ∧
      dropYv.act s = ((s.replace []).record "6.1.66", true) := by
  simp only [dropYv, recorded, Bool.and_eq_true] at h
  obtain ⟨x, hx, hyv⟩ := (Option.any_eq_true _ _).mp h.1.1
  exact ⟨x, by simpa using hyv, hx, rfl⟩

theorem acts_absorbA (h : absorbA.applies s = true) :
    ∃ y, s.here? = some 'a' ∧ s.next? = some y ∧ Sound.isAc y = true ∧
      absorbA.act s = ((s.replace []).record "6.1.97", true) := by
  simp only [absorbA, recorded, Bool.and_eq_true, beq_iff_eq] at h
  obtain ⟨y, hy, haeo⟩ := (Option.any_eq_true _ _).mp h.1.2
  have hac : ∀ y ∈ "aeo".toList, Sound.isAc y = true := by decide
  exact ⟨y, h.1.1, hy, hac y (List.contains_iff_mem.mp haeo), rfl⟩

-- The diphthongs take their vrddhi and the vowels of ik their guna, and `P` holds of both.
theorem acts_mergeAfterA {P : Char → Text → Prop}
    (hvrddhi : ∀ y ∈ SoundClass.ec.sounds, P y ((Sound.vrddhi? y).getD []))
    (hguna : ∀ y ∈ SoundClass.ik.sounds, P y ((Sound.guna? y).getD []))
    (h : mergeAfterA.applies s = true) :
    ∃ x y sub rule, s.here? = some x ∧ s.next? = some y ∧ Sound.isA x = true ∧
      (SoundClass.ik.contains y || SoundClass.ec.contains y) = true ∧ P y sub ∧
      mergeAfterA.act s = ((s.merge sub).record rule, true) := by
  simp only [mergeAfterA, Bool.and_eq_true] at h
  obtain ⟨x, hx, hA⟩ := (Option.any_eq_true _ _).mp h.1
  obtain ⟨y, hy, hclass⟩ := (Option.any_eq_true _ _).mp h.2
  by_cases hec : SoundClass.ec.contains y = true
  · refine ⟨x, y, _, "6.1.88", hx, hy, hA, hclass, hvrddhi y (List.contains_iff_mem.mp hec), ?_⟩
    simp only [mergeAfterA, Site.mergeGrade, hy, Option.bind_some]
    exact if_pos hec
  · have hik := ((Bool.or_eq_true _ _).mp hclass).resolve_right hec
    refine ⟨x, y, _, "6.1.87", hx, hy, hA, hclass, hguna y (List.contains_iff_mem.mp hik), ?_⟩
    simp only [mergeAfterA, Site.mergeGrade, hy, Option.bind_some]
    exact if_neg hec

theorem exchanges_forPair {may : Rule → Text → Prop}
    (h : ∀ (s : Site) x y, s.Exchange may ((change s x y).record rule)) :
    (forPair rule applies change).Exchanges may := by
  intro s
  simp only [forPair]
  split
  · exact h s _ _
  · exact .still

end Acts

-- The numbers of the vowel rules.
def vowelNumbers : List Rule :=
  ["6.1.90", "6.1.66", "6.1.97", "6.1.78", "6.1.101", "6.1.77", "6.1.88", "6.1.87"]

theorem exchanges_of_mem_vowelRules {r : SoundRule} (h : r ∈ vowelRules) :
    r.Exchanges (Substitutes vowelNumbers) := by
  have hgrade (s : Site) := Sound.spoken_bind Sound.spoken_vrddhi s.next?
  simp only [vowelRules, List.mem_cons, List.not_mem_nil, or_false] at h
  rcases h with rfl | rfl | rfl | rfl | rfl | rfl | rfl
  · exact fun s => .both ⟨by decide, hgrade s⟩
  · exact exchanges_replace fun s => ⟨by decide, Text.spoken_nil⟩
  · exact exchanges_replace fun s => ⟨by decide, Text.spoken_nil⟩
  · exact exchanges_forPair fun s x _ => .here ⟨by decide, Sound.spoken_ayadi x⟩
  · exact exchanges_forPair fun s x _ => .both ⟨by decide, Sound.spoken_dirgha x⟩
  · exact exchanges_forPair fun s x _ => .here ⟨by decide, Sound.spoken_semivowel x⟩
  · intro s
    simp only [mergeAfterA]
    split
    · exact .both ⟨by decide, hgrade s⟩
    · exact .both ⟨by decide, Sound.spoken_bind Sound.spoken_guna s.next?⟩

theorem spends_forPair {rule : Rule} {applies : Char → Char → Bool}
    {change : Site → Char → Char → Derivation} {w : Char → Nat}
    (h : ∀ s x y, s.Current → s.here? = some x → s.next? = some y → applies x y = true →
      Text.weight w (change s x y).text < Text.weight w s.text) :
    (forPair rule applies change).Spends w where
  idle s hs := by
    simp only [forPair] at hs ⊢
    split at hs
    · cases hs
    · rfl
  pays s hs happlies _ := by
    obtain ⟨x, y, hx, hy, hpair, hact⟩ := acts_forPair happlies
    rw [hact, Derivation.text_record]
    exact h s x y hs hx hy hpair

-- A rule that drops a sound.
theorem spends_drop {rule : Rule} {applies : Site → Bool}
    (happlies : ∀ s, applies s = true → s.here?.isSome = true) :
    (recorded rule applies (·.replace [])).Spends Sound.bulk := by
  refine spends_recorded fun s hs h => ?_
  obtain ⟨x, hx⟩ := Option.isSome_iff_exists.mp (happlies s h)
  have hw := Site.weight_replace Sound.bulk hs hx []
  have hone := Sound.one_le_bulk x
  rw [Text.weight_nil] at hw
  omega

-- A rule that replaces a vowel of `C` before another one by sounds outside of `C`.
theorem spends_replaceVowel {rule : Rule} {C : SoundClass} {sub : Char → Text}
    (hsub : ∀ x ∈ C.sounds, ∀ c ∈ sub x, C.contains c = false) :
    (forPair rule (fun x y => C.contains x && Sound.isAc y) fun s x _ =>
      s.replace (sub x)).Spends C.marks := by
  refine spends_forPair fun s x y hs hx _ happlies => ?_
  obtain ⟨hC, -⟩ := (Bool.and_eq_true _ _).mp happlies
  exact Site.weight_replace_lt hs hx hC (hsub x (List.contains_iff_mem.mp hC))

theorem spends_augmentVrddhi : augmentVrddhi.Spends Sound.bulk where
  idle s hs := by cases hs
  pays s hs happlies _ := by
    obtain ⟨x, y, _, hx, hy, hac, -, -, -, hact⟩ := acts_augmentVrddhi happlies
    have hgrade : ∀ y ∈ SoundClass.ac.sounds,
        Text.weight Sound.bulk ((Sound.vrddhi? y).getD []) ≤ Sound.bulk y := by decide
    have hle := hgrade y (List.contains_iff_mem.mp hac)
    have hone := Sound.one_le_bulk x
    rw [hact, Derivation.text_record]
    exact Site.weight_merge_lt hs hx hy (by omega)

theorem spends_dropYv : dropYv.Spends Sound.bulk := by
  refine spends_drop fun s happlies => ?_
  obtain ⟨x, -, hx, -⟩ := acts_dropYv happlies
  exact Option.isSome_iff_exists.mpr ⟨x, hx⟩

theorem spends_absorbA : absorbA.Spends Sound.bulk := by
  refine spends_drop fun s happlies => ?_
  obtain ⟨-, hx, -⟩ := acts_absorbA happlies
  exact Option.isSome_iff_exists.mpr ⟨'a', hx⟩

theorem spends_resolveDiphthong : resolveDiphthong.Spends SoundClass.ec.marks :=
  spends_replaceVowel (by decide)

theorem spends_mergeSavarna : mergeSavarna.Spends Sound.bulk := by
  refine spends_forPair fun s x y hs hx hy happlies => ?_
  simp only [Bool.and_eq_true] at happlies
  have hlong : ∀ x ∈ SoundClass.ak.sounds,
      Text.weight Sound.bulk (Sound.dirgha? x).toList ≤ Sound.bulk x := by decide
  have hle := hlong x (List.contains_iff_mem.mp happlies.1.1)
  have hone := Sound.one_le_bulk y
  exact Site.weight_merge_lt hs hx hy (by omega)

theorem spends_toSemivowel : toSemivowel.Spends SoundClass.ik.marks :=
  spends_replaceVowel (by decide)

theorem spends_mergeAfterA : mergeAfterA.Spends Sound.bulk where
  idle s hs := by
    simp only [mergeAfterA] at hs
    split at hs <;> cases hs
  pays s hs happlies _ := by
    obtain ⟨x, y, sub, rule, hx, hy, -, -, hle, hact⟩ :=
      acts_mergeAfterA (P := fun y sub => Text.weight Sound.bulk sub ≤ Sound.bulk y) (by decide)
        (by decide) happlies
    have hone := Sound.one_le_bulk x
    rw [hact, Derivation.text_record]
    exact Site.weight_merge_lt hs hx hy (by omega)

-- A vowel rule that comes to rest within the bound.
structure RestsInBound (r : SoundRule) : Prop where
  spends : ∃ w, r.Spends w ∧ ∀ d : Derivation, Text.weight w d.text ≤ d.changeBound
  keeps : r.KeepsBackground

theorem RestsInBound.idle {r : SoundRule} (h : r.RestsInBound) : r.Idle := by
  obtain ⟨w, hspends, -⟩ := h.spends
  exact hspends.idle

theorem restsInBound_of_bulk {r : SoundRule} (h : r.Spends Sound.bulk)
    (hr : r.KeepsBackground) : r.RestsInBound where
  spends := ⟨Sound.bulk, h, fun d => Nat.le_of_eq d.weight_bulk⟩
  keeps := hr

theorem restsInBound_of_marks {r : SoundRule} {C : SoundClass} (h : r.Spends C.marks)
    (hr : r.KeepsBackground) : r.RestsInBound where
  spends := by
    refine ⟨C.marks, h, fun d => ?_⟩
    have hlength := Text.weight_le C.marks C.marks_le d.text
    unfold Derivation.changeBound
    omega
  keeps := hr

theorem restsInBound_of_mem {r : SoundRule} (h : r ∈ vowelRules) : r.RestsInBound := by
  have hkeeps := (exchanges_of_mem_vowelRules h).keepsBackground
  simp only [vowelRules, List.mem_cons, List.not_mem_nil, or_false] at h
  rcases h with rfl | rfl | rfl | rfl | rfl | rfl | rfl
  · exact restsInBound_of_bulk spends_augmentVrddhi hkeeps
  · exact restsInBound_of_bulk spends_dropYv hkeeps
  · exact restsInBound_of_bulk spends_absorbA hkeeps
  · exact restsInBound_of_marks spends_resolveDiphthong hkeeps
  · exact restsInBound_of_bulk spends_mergeSavarna hkeeps
  · exact restsInBound_of_marks spends_toSemivowel hkeeps
  · exact restsInBound_of_bulk spends_mergeAfterA hkeeps

end SoundRule

namespace Derivation

-- From every derivation a vowel rule comes to rest, and the limit of its sweep does not show.
theorem vowelSweep_rests {r : SoundRule} (h : r ∈ SoundRule.vowelRules) (d : Derivation) :
    ∃ e, d.sweep r d.changeBound = .done e ∧ r.Rests d e ∧ e.background = d.background := by
  have hr := SoundRule.restsInBound_of_mem h
  obtain ⟨w, hspends, hbound⟩ := hr.spends
  obtain ⟨e, hdone, hrests⟩ := hspends.sweep_rests (hbound d)
  exact ⟨e, hdone, hrests, hrests.background hr.keeps⟩

-- Each rule in turn comes to rest.
def RestsInTurn : List SoundRule → Derivation → Derivation → Prop
  | [], d, e => e = d
  | r :: rest, d, e => ∃ c, r.Rests d c ∧ RestsInTurn rest c e

theorem RestsInTurn.relates {rules : List SoundRule} {R : Derivation → Derivation → Prop}
    (hrefl : ∀ d, R d d) (htrans : ∀ d e f, R d e → R e f → R d f)
    (hact : ∀ r ∈ rules, ∀ s, R s.derivation (r.act s).1) {d e : Derivation}
    (h : RestsInTurn rules d e) : R d e := by
  induction rules generalizing d with
  | nil =>
      rw [show e = d from h]
      exact hrefl d
  | cons r rest ih =>
      rw [List.forall_mem_cons] at hact
      obtain ⟨c, hrests, hturn⟩ := h
      exact htrans d c e (hrests.relates hrefl htrans hact.1) (ih hact.2 hturn)

theorem RestsInTurn.relates_where {rules : List SoundRule} {R : Derivation → Derivation → Prop}
    (hrefl : ∀ d, R d d) (htrans : ∀ d e f, R d e → R e f → R d f)
    (hrules : ∀ r ∈ rules, r.Idle ∧
      ∀ s, s.Current → r.applies s = true → R s.derivation (r.act s).1) {d e : Derivation}
    (h : RestsInTurn rules d e) : R d e := by
  induction rules generalizing d with
  | nil =>
      rw [show e = d from h]
      exact hrefl d
  | cons r rest ih =>
      rw [List.forall_mem_cons] at hrules
      obtain ⟨c, hrests, hturn⟩ := h
      obtain ⟨hidle, hact⟩ := hrules.1
      exact htrans d c e (hrests.relates_where hidle hrefl htrans hact) (ih hrules.2 hturn)

theorem RestsInTurn.keeps {rules : List SoundRule} {P : Text → Prop}
    (hrules : ∀ r ∈ rules, r.Idle ∧ r.Keeps P) {d e : Derivation} (h : RestsInTurn rules d e)
    (hP : P d.text) : P e.text := by
  refine h.relates_where (R := fun d e => P d.text → P e.text) (fun _ h => h)
    (fun _ _ _ hde hef h => hef (hde h)) (fun r hr => ?_) hP
  obtain ⟨hidle, hkeeps⟩ := hrules r hr
  exact ⟨hidle, fun s hs happlies hP => hkeeps s hs happlies (hs.symm ▸ hP)⟩

theorem joinVowels_rests (d : Derivation) :
    ∃ e, d.joinVowels = .done e ∧ RestsInTurn SoundRule.vowelRules d e := by
  have hfold : ∀ (rules : List SoundRule), (∀ r ∈ rules, r ∈ SoundRule.vowelRules) → ∀ d,
      ∃ e, rules.foldl (fun (o : Outcome) r => o.andThen fun d => d.sweep r d.changeBound)
        (Outcome.done d) = .done e ∧ RestsInTurn rules d e := by
    intro rules
    induction rules with
    | nil => exact fun _ d => ⟨d, rfl, rfl⟩
    | cons r rest ih =>
        intro hrules d
        rw [List.forall_mem_cons] at hrules
        obtain ⟨c, hdone, hrests, -⟩ := vowelSweep_rests hrules.1 d
        obtain ⟨e, hlater, hturn⟩ := ih hrules.2 c
        refine ⟨e, ?_, c, hrests, hturn⟩
        rw [List.foldl_cons, Outcome.andThen_done, hdone, hlater]
  exact hfold SoundRule.vowelRules (fun r hr => hr) d

theorem keepsBackground_joinVowels (d : Derivation) : d.joinVowels.KeepsBackground d := by
  obtain ⟨e, hdone, hturn⟩ := d.joinVowels_rests
  rw [hdone]
  exact hturn.relates (R := fun d e => e.background = d.background) (fun _ => rfl)
    (fun _ _ _ hde hef => hef.trans hde) fun r hr => (SoundRule.restsInBound_of_mem hr).keeps

end Derivation

end Vyakarana
