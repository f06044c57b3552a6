import Mathlib.Data.List.TakeWhile
import Vyakarana.Proofs.Derivation.Owners
import Vyakarana.Proofs.Grammar.VowelSandhi

/-!
How far the vrddhi of the augment Aw goes.

The vowel made of the augment and the vowel after it stands in the augment, and so do the r and the l
that close the vrddhi of f and x. What the augment ends with then meets the next sound, and if that
is a vowel of another term the rule applies again. It takes in the whole stretch of vowels that
follows, each time at the cost of what it made before.
-/

namespace Vyakarana

-- The row without the first sound that is heard of it.
def dropSound (row : List Term) : List Term := spliceTerms row 0 []

theorem text_dropSound {row : List Term} {c : Char} {rest : Text}
    (h : row.flatMap (·.text) = c :: rest) : (dropSound row).flatMap (·.text) = rest := by
  rw [dropSound, flatMap_spliceTerms row 0 [] (by simp [h]), h]
  rfl

theorem forall_isTaught_spliceTerms {row : List Term} {u : Text}
    (h : ∀ t ∈ row, t.isTaught u = false) (k : Nat) (sub : Text) :
    ∀ t ∈ spliceTerms row k sub, t.isTaught u = false := by
  induction row generalizing k with
  | nil => simp [spliceTerms]
  | cons t rest ih =>
      rw [List.forall_mem_cons] at h
      unfold spliceTerms
      split
      · exact List.forall_mem_cons.mpr h
      · exact List.forall_mem_cons.mpr ⟨h.1, ih h.2 _⟩

-- The vrddhi of the vowel in the place of the last sound.
def takeUp (made : Text) (vowel : Char) : Text :=
  made.dropLast ++ (Sound.vrddhi? vowel).getD []

-- One augment Aw stands in the row, with these sounds of its own, and terms taught otherwise.
structure AugmentStands (before : List Term) (aug : Term) (after : List Term) (made : Text)
    (d : Derivation) : Prop where
  terms : d.terms = before ++ aug.setText made :: after
  taught : aug.isTaught "Aw".toList = true
  heard : made ≠ []
  before : ∀ t ∈ before, t.isTaught "Aw".toList = false
  after : ∀ t ∈ after, t.isTaught "Aw".toList = false

namespace AugmentStands

open SoundRule

variable {before after : List Term} {aug : Term} {made : Text} {d : Derivation}

theorem text (h : AugmentStands before aug after made d) :
    d.text = before.flatMap (·.text) ++ (made ++ after.flatMap (·.text)) := by
  rw [Derivation.text, h.terms, List.flatMap_append, List.flatMap_cons]
  rfl

-- Where the rule looks for the sounds that meet.
def meeting (before : List Term) (made : Text) : Nat :=
  (before.flatMap (·.text)).length + (made.length - 1)

theorem length_pos (h : AugmentStands before aug after made d) : 0 < made.length :=
  List.length_pos_iff.mpr h.heard

-- The augment owns just the sounds of its own stretch.
theorem ownerIndex?_iff (h : AugmentStands before aug after made d) (k : Nat) :
    d.ownerIndex? k = some before.length ↔ (before.flatMap (·.text)).length ≤ k ∧
      k < (before.flatMap (·.text)).length + made.length := by
  have hindex : d.ownerIndex? k = (locate? d.terms k).map (·.1) := rfl
  rw [hindex, h.terms]
  refine Iff.trans ⟨fun hk => ?_, fun ⟨place, hplace⟩ => by rw [hplace]; rfl⟩
    (locate?_of_cut before after (aug.setText made) k)
  obtain ⟨⟨i, place⟩, hplace, hi⟩ := Option.map_eq_some_iff.mp hk
  exact ⟨place, by rw [hplace, ← hi]⟩

-- No other term is taught so.
theorem index_of_isTaught (h : AugmentStands before aug after made d) {i : Nat} {t : Term}
    (ht : d.terms[i]? = some t) (htaught : t.isTaught "Aw".toList = true) : i = before.length := by
  rw [h.terms] at ht
  rcases Nat.lt_trichotomy i before.length with hlt | heq | hgt
  · rw [List.getElem?_append_left hlt] at ht
    rw [h.before t (List.mem_of_getElem? ht)] at htaught
    cases htaught
  · exact heq
  · obtain ⟨j, rfl⟩ : ∃ j, i = before.length + (j + 1) := ⟨i - before.length - 1, by omega⟩
    rw [List.getElem?_append_right (by omega), Nat.add_sub_cancel_left,
      List.getElem?_cons_succ] at ht
    rw [h.after t (List.mem_of_getElem? ht)] at htaught
    cases htaught

-- Only the last sound of the augment has its owner and a neighbour of another.
theorem offset_of_applies (h : AugmentStands before aug after made d) {k : Nat}
    (happlies : augmentVrddhi.applies ⟨d, d.text, k⟩ = true) :
    k = meeting before made ∧ ∃ v, d.text[k + 1]? = some v ∧ Sound.isAc v = true := by
  obtain ⟨_, v, t, -, hv, hac, ht, htaught, hboundary, -⟩ := acts_augmentVrddhi happlies
  obtain ⟨i, hi, hterm⟩ := Option.bind_eq_some_iff.mp ht
  have hhere : d.ownerIndex? k = some before.length :=
    hi.trans (congrArg some (h.index_of_isTaught hterm htaught))
  simp only [Site.isBoundary, bne_iff_ne, ne_eq, hhere] at hboundary
  have hnext : ¬d.ownerIndex? ((k + 1 : Nat) : Int) = some before.length := Ne.symm hboundary
  rw [h.ownerIndex?_iff] at hhere hnext
  refine ⟨?_, v, hv, hac⟩
  rw [meeting]
  omega

theorem next_meeting (h : AugmentStands before aug after made d) :
    d.text[meeting before made + 1]? = (after.flatMap (·.text)).head? := by
  have hpos := h.length_pos
  rw [h.text, List.getElem?_append_right (by rw [meeting]; omega),
    List.getElem?_append_right (by rw [meeting]; omega), List.head?_eq_getElem?]
  congr 1
  rw [meeting]
  omega

theorem applies_meeting (h : AugmentStands before aug after made d) {v : Char} {rest : Text}
    (hafter : after.flatMap (·.text) = v :: rest) (hac : Sound.isAc v = true) :
    augmentVrddhi.applies ⟨d, d.text, meeting before made⟩ = true := by
  have hpos := h.length_pos
  have howner : d.ownerIndex? (meeting before made) = some before.length :=
    (h.ownerIndex?_iff _).mpr (by rw [meeting]; omega)
  have hother : d.ownerIndex? ((meeting before made + 1 : Nat) : Int) ≠ some before.length := by
    rw [ne_eq, h.ownerIndex?_iff, meeting]
    omega
  have hnext := h.next_meeting
  rw [hafter, List.head?_cons] at hnext
  have hterm : d.terms[before.length]? = some (aug.setText made) := by rw [h.terms]; simp
  simp only [augmentVrddhi, recorded, Site.next?, Site.owner?, Derivation.owner?, Site.isBoundary,
    howner, hnext, Option.any_some, Option.bind_some, hterm, Bool.and_eq_true, bne_iff_ne]
  exact ⟨⟨hac, h.taught⟩, Ne.symm hother⟩

-- The act takes the vowel out of its term and puts the vrddhi at the end of the augment.
theorem act_meeting (h : AugmentStands before aug after made d) {v : Char} {rest : Text}
    (hafter : after.flatMap (·.text) = v :: rest) :
    ∃ e, augmentVrddhi.act ⟨d, d.text, meeting before made⟩ = (e, true) ∧ e.rest = d.rest ∧
      e.terms = before ++ aug.setText (takeUp made v) :: dropSound after := by
  have hpos := h.length_pos
  have hnext := h.next_meeting
  rw [hafter, List.head?_cons] at hnext
  have hsub : ((Site.mk d d.text (meeting before made)).next?.bind Sound.vrddhi?).getD [] =
      (Sound.vrddhi? v).getD [] := by
    rw [Site.next?, hnext, Option.bind_some]
  have hgone : spliceTerms d.terms (meeting before made + 1) [] =
      before ++ aug.setText made :: dropSound after := by
    rw [h.terms, spliceTerms_append, if_neg (by rw [meeting]; omega), spliceTerms,
      if_neg (by simp only [Term.setText, meeting]; omega), dropSound]
    congr 3
    simp only [Term.setText, meeting]
    omega
  have hmade : spliceTerms (before ++ aug.setText made :: dropSound after) (meeting before made)
      ((Sound.vrddhi? v).getD []) =
        before ++ aug.setText (takeUp made v) :: dropSound after := by
    have hplace : meeting before made - (before.flatMap (·.text)).length = made.length - 1 := by
      rw [meeting]
      omega
    rw [spliceTerms_append, if_neg (by rw [meeting]; omega), hplace, spliceTerms,
      if_pos (by simp only [Term.setText]; omega)]
    simp only [Term.setText, takeUp, ← List.dropLast_eq_take]
    rw [Nat.sub_add_cancel hpos, List.drop_length, List.append_nil]
  refine ⟨((Site.mk d d.text (meeting before made)).mergeGrade Sound.vrddhi?).record "6.1.90", rfl,
    ?_, ?_⟩
  · rw [Derivation.rest_record, Site.mergeGrade, Site.merge, Derivation.rest_splice,
      Site.replaceNext, Derivation.rest_splice]
  · rw [Derivation.terms_record, Site.mergeGrade, hsub]
    calc ((Site.mk d d.text (meeting before made)).merge ((Sound.vrddhi? v).getD [])).terms
        = spliceTerms (spliceTerms d.terms (meeting before made + 1) []) (meeting before made)
            ((Sound.vrddhi? v).getD []) := rfl
      _ = _ := by rw [hgone, hmade]

-- At the end of the stretch of vowels the rule is at rest.
theorem still (h : AugmentStands before aug after made d)
    (hafter : (after.flatMap (·.text)).head?.any Sound.isAc = false) :
    augmentVrddhi.scanAll d = (d, false) := by
  rcases scan_cases spends_augmentVrddhi.idle d.text (List.range d.text.length) d with
    hscan | ⟨k, happlies, -, -⟩
  · exact hscan
  · obtain ⟨rfl, v, hv, hac⟩ := h.offset_of_applies happlies
    rw [← h.next_meeting, hv, Option.any_some, hac] at hafter
    cases hafter

-- Before that it takes in one more.
theorem step (h : AugmentStands before aug after made d) {v : Char} {rest : Text}
    (hafter : after.flatMap (·.text) = v :: rest) (hac : Sound.isAc v = true) :
    ∃ e, augmentVrddhi.scanAll d = (e, true) ∧ e.rest = d.rest ∧
      AugmentStands before aug (dropSound after) (takeUp made v) e := by
  have hvrddhi : ∀ v ∈ SoundClass.ac.sounds, (Sound.vrddhi? v).getD [] ≠ [] := by decide
  obtain ⟨e, hact, hrest, hterms⟩ := h.act_meeting hafter
  refine ⟨e, ?_, hrest, hterms, h.taught, ?_, h.before, forall_isTaught_spliceTerms h.after 0 []⟩
  · rcases hscan : augmentVrddhi.scanAll d with ⟨changed, reported⟩
    have hmeeting : meeting before made ∈ List.range d.text.length := by
      have hpos := h.length_pos
      rw [List.mem_range, h.text, List.length_append, List.length_append, meeting]
      omega
    cases reported with
    | false =>
        obtain ⟨-, hstill⟩ := still_of_scan spends_augmentVrddhi.idle hscan
        have hidle := hstill _ hmeeting (h.applies_meeting hafter hac)
        rw [hact] at hidle
        cases hidle
    | true =>
        rcases scan_cases spends_augmentVrddhi.idle d.text (List.range d.text.length) d with
          hsame | ⟨k, happlies, -, hacted⟩
        · cases hsame.symm.trans hscan
        · obtain ⟨rfl, -⟩ := h.offset_of_applies happlies
          rw [hact] at hacted
          exact hscan.symm.trans hacted
  · intro hnil
    exact hvrddhi v (List.contains_iff_mem.mp hac) (List.append_eq_nil_iff.mp hnil).2

-- The whole sweep, by induction on the stretch of vowels.
theorem sweep {vowels rest : Text} (h : AugmentStands before aug after made d)
    (hafter : after.flatMap (·.text) = vowels ++ rest) (hvowels : ∀ v ∈ vowels, Sound.isAc v = true)
    (hrest : rest.head?.any Sound.isAc = false) {limit : Nat} (hlimit : vowels.length ≤ limit) :
    ∃ e, augmentVrddhi.sweep? limit d = some (e, vowels.length) ∧ e.rest = d.rest ∧
      AugmentStands before aug (dropSound^[vowels.length] after) (vowels.foldl takeUp made) e := by
  induction vowels generalizing after made d limit with
  | nil =>
      rw [List.nil_append] at hafter
      exact ⟨d, sweep?_of_still (h.still (hafter ▸ hrest)) limit, rfl, h⟩
  | cons v more ih =>
      rw [List.forall_mem_cons] at hvowels
      rw [List.length_cons] at hlimit
      obtain ⟨fewer, rfl⟩ : ∃ fewer, limit = fewer + 1 := ⟨limit - 1, by omega⟩
      obtain ⟨changed, hscan, hkept, hstands⟩ := h.step hafter hvowels.1
      obtain ⟨e, hsweep, hkept', hstands'⟩ :=
        ih hstands (text_dropSound hafter) hvowels.2 (Nat.le_of_succ_le_succ hlimit)
      refine ⟨e, ?_, hkept'.trans hkept, hstands'⟩
      rw [sweep?_of_change hscan, hsweep]
      rfl

end AugmentStands

theorem text_dropSound_iterate {row : List Term} {sounds rest : Text}
    (h : row.flatMap (·.text) = sounds ++ rest) :
    (dropSound^[sounds.length] row).flatMap (·.text) = rest := by
  induction sounds generalizing row with
  | nil => exact h
  | cons c more ih => exact ih (text_dropSound h)

-- Where one augment Aw stands before a vowel, 6.1.90 takes in that vowel and all vowels right after
-- it, and leaves the rest. It makes one change, and one vrddhi, just if no vowel comes after the first.
theorem augmentVrddhi_takes_in_all_vowels {d : Derivation} {before after : List Term} {aug : Term}
    {v : Char} {following : Text} (hd : d.terms = before ++ aug :: after)
    (htaught : aug.isTaught "Aw".toList = true) (htext : aug.text = "A".toList)
    (hother : ∀ t ∈ before ++ after, t.isTaught "Aw".toList = false)
    (hafter : after.flatMap (·.text) = v :: following) (hac : Sound.isAc v = true) :
    ∃ e n, d.vowelSweep? .augmentVrddhi = some (e, n) ∧ e.rest = d.rest ∧
      n = (following.takeWhile Sound.isAc).length + 1 ∧
      e.terms = before ++ aug.setText
          ((v :: following.takeWhile Sound.isAc).foldl takeUp aug.text) :: dropSound^[n] after ∧
      e.text = before.flatMap (·.text) ++
        (v :: following.takeWhile Sound.isAc).foldl takeUp aug.text ++
          following.dropWhile Sound.isAc ∧
      (n = 1 ↔ following.head?.any Sound.isAc = false) ∧
      (n = 1 → e.text = before.flatMap (·.text) ++ (Sound.vrddhi? v).getD [] ++ following) := by
  rw [List.forall_mem_append] at hother
  have hstands : AugmentStands before aug after aug.text d :=
    ⟨hd, htaught, by rw [htext]; decide, hother.1, hother.2⟩
  have hcut : after.flatMap (·.text) =
      (v :: following.takeWhile Sound.isAc) ++ following.dropWhile Sound.isAc := by
    rw [hafter, List.cons_append, List.takeWhile_append_dropWhile]
  have hvowels : ∀ x ∈ v :: following.takeWhile Sound.isAc, Sound.isAc x = true :=
    List.forall_mem_cons.mpr ⟨hac, fun x hx => List.mem_takeWhile_imp hx⟩
  have hrest : (following.dropWhile Sound.isAc).head?.any Sound.isAc = false := by
    have hhead := List.head?_dropWhile_not Sound.isAc following
    cases hnext : (following.dropWhile Sound.isAc).head? with
    | none => rfl
    | some c =>
        rw [hnext] at hhead
        exact hhead
  have hlimit : (v :: following.takeWhile Sound.isAc).length ≤ d.changeBound := by
    have hlength := congrArg List.length hstands.text
    rw [hcut] at hlength
    simp only [List.length_append] at hlength
    unfold Derivation.changeBound
    omega
  have halone : following.takeWhile Sound.isAc = [] ↔ following.head?.any Sound.isAc = false := by
    cases following with
    | nil => simp
    | cons c more => by_cases hc : Sound.isAc c = true <;> simp [hc]
  obtain ⟨e, hsweep, hkept, hdone⟩ := hstands.sweep hcut hvowels hrest hlimit
  have hfinal := hdone.text
  rw [text_dropSound_iterate hcut] at hfinal
  refine ⟨e, _, hsweep, hkept, rfl, hdone.terms, ?_, ?_, fun hone => ?_⟩
  · rw [hfinal, List.append_assoc]
  · rw [← halone, List.length_cons]
    exact ⟨fun h => List.length_eq_zero_iff.mp (by omega), fun h => by rw [h]; rfl⟩
  · have hnone : following.takeWhile Sound.isAc = [] := List.length_eq_zero_iff.mp (by simpa using hone)
    have hall : following.dropWhile Sound.isAc = following := by
      conv_rhs => rw [← List.takeWhile_append_dropWhile (p := Sound.isAc) (l := following), hnone]
      rfl
    rw [hfinal, hnone, hall, htext, List.append_assoc]
    rfl

-- The augment before the stem e and the suffix a.
def augmentedRow : List Term :=
  [{ Term.ofAgama "Aw".toList with text := "A".toList }, .ofText "e".toList, .ofText "a".toList,
    .ofText "t".toList]

-- Two vowels stand there after the augment, and both are taken in.
theorem augmentVrddhi_takes_in_two_vowels :
    ∃ e, (Derivation.mk augmentedRow [] [] [] [] true .standard).vowelSweep? .augmentVrddhi =
      some (e, 2) ∧ e.text = "At".toList := by
  have hcut : augmentedRow = [] ++ { Term.ofAgama "Aw".toList with text := "A".toList } ::
      [.ofText "e".toList, .ofText "a".toList, .ofText "t".toList] := rfl
  have hnext : [Term.ofText "e".toList, .ofText "a".toList, .ofText "t".toList].flatMap (·.text) =
      'e' :: "at".toList := rfl
  obtain ⟨e, n, hsweep, -, hn, -, htext, -, -⟩ :=
    augmentVrddhi_takes_in_all_vowels (d := ⟨augmentedRow, [], [], [], [], true, .standard⟩) hcut
      rfl rfl (by decide) hnext (by decide)
  have htwo : n = 2 := hn.trans (by decide)
  rw [htwo] at hsweep
  exact ⟨e, hsweep, htext.trans (by decide)⟩

-- So it is not one vowel that the augment makes its vrddhi with.
theorem augmentVrddhi_does_not_stop_at_one_vowel :
    ¬∀ (d : Derivation) (before after : List Term) (aug : Term) (v : Char) (following : Text),
      d.terms = before ++ aug :: after → aug.isTaught "Aw".toList = true →
      aug.text = "A".toList → (∀ t ∈ before ++ after, t.isTaught "Aw".toList = false) →
      after.flatMap (·.text) = v :: following → Sound.isAc v = true →
      ∃ e, d.vowelSweep? .augmentVrddhi = some (e, 1) ∧
        e.text = before.flatMap (·.text) ++ (Sound.vrddhi? v).getD [] ++ following := by
  intro h
  obtain ⟨e, hsweep, -⟩ := h ⟨augmentedRow, [], [], [], [], true, .standard⟩ [] _ _ 'e' "at".toList
    rfl rfl rfl (by decide) rfl (by decide)
  have htwo : ((Derivation.mk augmentedRow [] [] [] [] true .standard).vowelSweep?
      .augmentVrddhi).map (·.2) = some 2 := by decide +kernel
  rw [hsweep] at htwo
  cases htwo

end Vyakarana
