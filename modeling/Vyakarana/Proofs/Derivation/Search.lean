import Mathlib.Order.Bounds.Image
import Vyakarana.Derivation.Search
import Vyakarana.Proofs.Derivation.Cuts

/-!
The searches of a row are exact.

The first and the last term of a kind, and the last one before a start, are found at the least and
the greatest index there is, whatever the start. The search for the next one reads positions: those
below zero count back from the end of the row. From `-1` on it is exact too. Further below it runs
through the end of the row before it comes to the first term, and it does not start before the row.
-/

namespace Vyakarana

section Extremes

variable {α β : Type*} [LinearOrder α] [LinearOrder β] {S T : Set α} {a b : Option α}

-- The least element of a set, and none of an empty one.
def LeastOf (S : Set α) : Option α → Prop
  | some a => IsLeast S a
  | none => S = ∅

def GreatestOf (S : Set α) : Option α → Prop
  | some a => IsGreatest S a
  | none => S = ∅

theorem LeastOf.image (h : LeastOf S a) {g : α → β} (hg : Monotone g) :
    LeastOf (g '' S) (a.map g) := by
  cases a with
  | some a => exact hg.map_isLeast h
  | none => exact Set.image_eq_empty.mpr h

-- All of one set stands before all of another.
theorem LeastOf.union (ha : LeastOf S a) (hb : LeastOf T b) (hle : ∀ x ∈ S, ∀ y ∈ T, x ≤ y) :
    LeastOf (S ∪ T) (a.or b) := by
  cases a with
  | some a =>
      refine ⟨Or.inl ha.1, ?_⟩
      rintro x (hx | hx)
      · exact ha.2 hx
      · exact hle a ha.1 x hx
  | none =>
      have hempty : S = ∅ := ha
      rw [hempty, Set.empty_union, Option.none_or]
      exact hb

end Extremes

section Rows

variable (f : Term → Bool) (ts : List Term)

theorem leastOf_findIdx? : LeastOf {j : Nat | ts[j]?.any f = true} (ts.findIdx? f) := by
  cases h : ts.findIdx? f with
  | some i =>
      obtain ⟨hi, hf, hbefore⟩ := List.findIdx?_eq_some_iff_getElem.mp h
      refine ⟨by simp [hi, hf], fun j hj => ?_⟩
      obtain ⟨t, ht, hft⟩ := (Option.any_eq_true _ _).mp hj
      obtain ⟨hlt, rfl⟩ := List.getElem?_eq_some_iff.mp ht
      by_contra hji
      exact hbefore j (by omega) hft
  | none =>
      rw [LeastOf, Set.eq_empty_iff_forall_notMem]
      intro j hj
      obtain ⟨t, ht, hft⟩ := (Option.any_eq_true _ _).mp hj
      rw [List.findIdx?_eq_none_iff.mp h t (List.mem_of_getElem? ht)] at hft
      cases hft

theorem greatestOf_lastIndex? : GreatestOf {j : Nat | ts[j]?.any f = true} (lastIndex? f ts) := by
  cases h : lastIndex? f ts with
  | some i =>
      obtain ⟨before, t, after, rfl, rfl, ht, hafter⟩ := cut_of_lastIndex? h
      refine ⟨by simp [ht], fun j hj => ?_⟩
      by_contra hij
      obtain ⟨u, hu, hfu⟩ := (Option.any_eq_true _ _).mp hj
      obtain ⟨k, rfl⟩ : ∃ k, j = before.length + (k + 1) := ⟨j - before.length - 1, by omega⟩
      rw [List.getElem?_append_right (by omega), Nat.add_sub_cancel_left,
        List.getElem?_cons_succ] at hu
      rw [hafter u (List.mem_of_getElem? hu)] at hfu
      cases hfu
  | none =>
      rw [GreatestOf, Set.eq_empty_iff_forall_notMem]
      intro j hj
      obtain ⟨t, ht, hft⟩ := (Option.any_eq_true _ _).mp hj
      rw [lastIndex?_eq_none.mp h t (List.mem_of_getElem? ht)] at hft
      cases hft

end Rows

namespace Derivation

variable (d : Derivation) (f : Term → Bool) (start : Int)

-- The term at a position; below zero positions count back from the end of the row.
def fromEitherEnd? (q : Int) : Option Term :=
  if q < 0 then d.term? (q + d.terms.length) else d.term? q

theorem term?_natCast (j : Nat) : d.term? j = d.terms[j]? := rfl

theorem term?_of_neg {q : Int} (hq : q < 0) : d.term? q = none := by
  cases q with
  | ofNat j => exact absurd hq (by simp)
  | negSucc j => rfl

theorem term?_of_length_le {q : Int} (hq : d.terms.length ≤ q) : d.term? q = none := by
  obtain ⟨j, rfl⟩ := Int.eq_ofNat_of_zero_le (show 0 ≤ q by omega)
  rw [term?_natCast, List.getElem?_eq_none_iff]
  omega

-- The positions of a stretch of the row, shifted.
theorem image_drop (n : Nat) (shift : Int) :
    (fun i : Nat => (i : Int) + shift) '' {i | (d.terms.drop n)[i]?.any f = true} =
      {q : Int | shift ≤ q ∧ (d.term? (q - shift + n)).any f = true} := by
  ext q
  constructor
  · rintro ⟨i, hi, rfl⟩
    have hplace : (i : Int) + shift - shift + n = (n + i : Nat) := by omega
    refine ⟨Int.le_add_of_nonneg_left (Int.natCast_nonneg i), ?_⟩
    rw [hplace, term?_natCast, ← List.getElem?_drop]
    exact hi
  · rintro ⟨hq, hf⟩
    obtain ⟨i, hi⟩ := Int.eq_ofNat_of_zero_le (Int.sub_nonneg.mpr hq)
    have hplace : q - shift + n = (n + i : Nat) := by omega
    rw [hplace, term?_natCast, ← List.getElem?_drop] at hf
    exact ⟨i, hf, show (i : Int) + shift = q by omega⟩

theorem leastOf_drop (n : Nat) (shift : Int) :
    LeastOf {q : Int | shift ≤ q ∧ (d.term? (q - shift + n)).any f = true}
      (((d.terms.drop n).findIdx? f).map fun i : Nat => (i : Int) + shift) := by
  rw [← image_drop]
  exact (leastOf_findIdx? f _).image fun i j hij => by simpa using hij

theorem greatestOf_lastBefore? (n : Nat) :
    GreatestOf {j : Nat | j < n ∧ d.has j f = true} (d.lastBefore? n f) := by
  have hset : {j : Nat | j < n ∧ d.has j f = true} =
      {j : Nat | (d.terms.take n)[j]?.any f = true} := by
    ext j
    by_cases hj : j < n
    · simp [has, term?_natCast, List.getElem?_take_of_lt hj, hj]
    · simp [hj]
  rw [hset]
  exact greatestOf_lastIndex? f _

-- A start below zero is as good as zero.
theorem greatestOf_findPrev? :
    GreatestOf {j : Nat | (j : Int) < start ∧ d.has j f = true} (d.findPrev? start f) := by
  have hset : {j : Nat | (j : Int) < start ∧ d.has j f = true} =
      {j : Nat | j < start.toNat ∧ d.has j f = true} := by
    ext j
    exact and_congr_left fun _ => by omega
  rw [hset]
  exact greatestOf_lastBefore? d f _

theorem findNext_eq_error (h : start + 1 < -d.terms.length) :
    d.findNext start f = .error .outOfRange := by
  rw [findNext]
  simp only [if_neg (show ¬ -1 ≤ start by omega), if_pos h]

-- From `-1` on, the positions passed are those of the row itself.
theorem leastOf_findNext_of_le (h : -1 ≤ start) :
    ∃ found, d.findNext start f = .ok found ∧
      LeastOf {j : Int | start < j ∧ d.has j f = true} found := by
  have hset : {j : Int | start < j ∧ d.has j f = true} =
      {q | start + 1 ≤ q ∧ (d.term? (q - (start + 1) + (start + 1).toNat)).any f = true} := by
    ext q
    have hplace : q - (start + 1) + (start + 1).toNat = q := by omega
    simp only [Set.mem_ofPred_eq, hplace]
    exact and_congr_left fun _ => Int.lt_iff_add_one_le
  rw [hset]
  refine ⟨_, ?_, leastOf_drop d f _ _⟩
  rw [findNext]
  cases (d.terms.drop (start + 1).toNat).findIdx? f <;> simp [h]

-- Below that, the positions from the end come first, and then the row itself.
theorem leastOf_findNext_of_neg (hneg : start < -1) (h : -d.terms.length ≤ start + 1) :
    ∃ found, d.findNext start f = .ok found ∧
      LeastOf {q : Int | start < q ∧ (d.fromEitherEnd? q).any f = true} found := by
  have hset : {q : Int | start < q ∧ (d.fromEitherEnd? q).any f = true} =
      {q | start + 1 ≤ q ∧ (d.term? (q - (start + 1) +
        (d.terms.length + start + 1).toNat)).any f = true} ∪
      {q | 0 ≤ q ∧ (d.term? (q - 0 + (0 : Nat))).any f = true} := by
    ext q
    have hplace : q - (start + 1) + (d.terms.length + start + 1).toNat = q + d.terms.length := by
      omega
    simp only [Set.mem_ofPred_eq, Set.mem_union, hplace, fromEitherEnd?, Int.sub_zero,
      Int.natCast_zero, Int.add_zero]
    by_cases hq : q < 0
    · have hback : ¬0 ≤ q := by omega
      rw [if_pos hq, Int.lt_iff_add_one_le]
      simp only [hback, false_and, or_false]
    · have hend : d.term? (q + d.terms.length) = none := term?_of_length_le d (by omega)
      simp only [if_neg hq, hend, Option.any_none, Bool.false_eq_true, and_false, false_or]
      exact and_congr_left fun _ => by omega
  refine ⟨_, ?_, hset ▸ (leastOf_drop d f _ _).union (leastOf_drop d f 0 0) ?_⟩
  · rw [findNext]
    simp only [if_neg (show ¬ -1 ≤ start by omega),
      if_neg (show ¬ start + 1 < -(d.terms.length : Int) by omega)]
    cases (d.terms.drop (d.terms.length + start + 1).toNat).findIdx? f with
    | some i => rfl
    | none =>
        rw [List.drop_zero]
        cases d.terms.findIdx? f <;> simp
  · rintro q ⟨-, hq⟩ r ⟨hr, -⟩
    by_contra hlt
    rw [term?_of_length_le d (by omega)] at hq
    cases hq

theorem fromEitherEnd?_of_nonneg {q : Int} (hq : 0 ≤ q) : d.fromEitherEnd? q = d.term? q :=
  if_neg (Int.not_lt.mpr hq)

-- The positions met are the indices of the row if no term met below zero is of the kind.
theorem positions_eq_indices
    (hnone : ∀ q : Int, start < q → q < 0 → (d.fromEitherEnd? q).any f = false) :
    {q : Int | start < q ∧ (d.fromEitherEnd? q).any f = true} =
      {j : Int | start < j ∧ d.has j f = true} := by
  ext q
  apply and_congr_right
  intro hq
  by_cases hneg : q < 0
  · rw [hnone q hq hneg, has, term?_of_neg d hneg]
    rfl
  · rw [fromEitherEnd?_of_nonneg d (Int.not_lt.mp hneg), has]

theorem leastOf_findNext (h : -d.terms.length ≤ start + 1) :
    ∃ found, d.findNext start f = .ok found ∧
      LeastOf {q : Int | start < q ∧ (d.fromEitherEnd? q).any f = true} found := by
  by_cases hstart : -1 ≤ start
  · rw [positions_eq_indices d f start fun q hq hneg => by omega]
    exact leastOf_findNext_of_le d f start hstart
  · exact leastOf_findNext_of_neg d f start (by omega) h

-- The search for the next term gives the least index there is exactly when it does not start
-- before the row and meets no term of the kind at a position below zero.
theorem findNext_exact_iff :
    (∃ found, d.findNext start f = .ok found ∧
      LeastOf {j : Int | start < j ∧ d.has j f = true} found) ↔
    -d.terms.length ≤ start + 1 ∧
      ∀ q : Int, start < q → q < 0 → (d.fromEitherEnd? q).any f = false := by
  constructor
  · rintro ⟨found, hfound, hleast⟩
    have hbound : -d.terms.length ≤ start + 1 := by
      by_contra hlt
      rw [findNext_eq_error d f start (by omega)] at hfound
      cases hfound
    refine ⟨hbound, fun q hq hneg => ?_⟩
    by_contra hf
    rw [Bool.not_eq_false] at hf
    obtain ⟨other, hother, hall⟩ := leastOf_findNext d f start hbound
    cases Except.ok.inj (hfound.symm.trans hother)
    cases found with
    | some a =>
        have hle : a ≤ q := hall.2 ⟨hq, hf⟩
        have ha : d.has a f = true := hleast.1.2
        rw [has, term?_of_neg d (by omega)] at ha
        cases ha
    | none => exact Set.eq_empty_iff_forall_notMem.mp hall q ⟨hq, hf⟩
  · rintro ⟨hbound, hnone⟩
    rw [← positions_eq_indices d f start hnone]
    exact leastOf_findNext d f start hbound

-- Every search at every start. The one for the next term fails just if it starts before the row;
-- else it gives the least position there is, and it gives an index of the row, or none, in the
-- cases of the last line: always from `-1` on, and below that if no term it meets from the end of
-- the row is of the kind.
theorem searches_exact :
    LeastOf {j : Nat | d.has j f = true} (d.findFirst? f) ∧
    GreatestOf {j : Nat | d.has j f = true} (d.findLast? f) ∧
    GreatestOf {j : Nat | (j : Int) < start ∧ d.has j f = true} (d.findPrev? start f) ∧
    (if start + 1 < -d.terms.length then d.findNext start f = .error .outOfRange
      else ∃ found, d.findNext start f = .ok found ∧
        LeastOf {q : Int | start < q ∧ (d.fromEitherEnd? q).any f = true} found) ∧
    ((∃ found, d.findNext start f = .ok found ∧
        LeastOf {j : Int | start < j ∧ d.has j f = true} found) ↔
      -1 ≤ start ∨ (-d.terms.length ≤ start + 1 ∧
        ∀ q : Int, start < q → q < 0 → (d.fromEitherEnd? q).any f = false)) := by
  refine ⟨leastOf_findIdx? f d.terms, greatestOf_lastIndex? f d.terms,
    greatestOf_findPrev? d f start, ?_, ?_⟩
  · split
    · rename_i hbefore
      exact findNext_eq_error d f start hbefore
    · rename_i hbound
      exact leastOf_findNext d f start (Int.not_lt.mp hbound)
  · rw [findNext_exact_iff]
    constructor
    · exact Or.inr
    · rintro (hstart | hexact)
      · exact ⟨by omega, fun q hq hneg => by omega⟩
      · exact hexact

-- From a start below `-1` the last term is met before the first, at a position that is no index;
-- further below the search fails.
theorem findNext_meets_the_end_first :
    (Derivation.mk [.ofText ['a']] [] [] [] [] true .standard).findNext (-2) (fun _ => true) =
      .ok (some (-1)) ∧
    ¬ LeastOf {j : Int | -2 < j ∧
      (Derivation.mk [.ofText ['a']] [] [] [] [] true .standard).has j (fun _ => true) = true}
      (some (-1)) ∧
    (Derivation.mk [.ofText ['a']] [] [] [] [] true .standard).findNext (-3) (fun _ => true) =
      .error .outOfRange := by
  refine ⟨rfl, fun h => ?_, rfl⟩
  cases h.1.2

end Derivation

end Vyakarana
