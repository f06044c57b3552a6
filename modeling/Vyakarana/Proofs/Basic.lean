import Mathlib.Data.List.Forall2
import Mathlib.Dynamics.PeriodicPts.Defs

/-!
Rows of lookups, counts, and maps that lower a rank.
-/

namespace Vyakarana

-- A statement about the sounds of a row is decided by going through the row, not through all
-- characters.
instance (priority := high) decidableForallMem (p : Char → Prop) [DecidablePred p]
    (l : List Char) : Decidable (∀ c ∈ l, p c) :=
  List.decidableBAll p l

instance (priority := high) decidableExistsMem (p : Char → Prop) [DecidablePred p]
    (l : List Char) : Decidable (∃ c ∈ l, p c) :=
  List.decidableBEx p l

-- A row of lookups stops at the first one that fails.
theorem mapM_first_failure {ε α β : Type} (f : α → Except ε β) (xs : List α) :
    (∃ ys, xs.mapM f = .ok ys ∧ List.Forall₂ (fun x y => f x = .ok y) xs ys) ∨
      ∃ before x after e, xs = before ++ x :: after ∧ (∀ z ∈ before, ∃ y, f z = .ok y) ∧
        f x = .error e ∧ xs.mapM f = .error e := by
  induction xs with
  | nil => exact .inl ⟨[], rfl, .nil⟩
  | cons x rest ih =>
      rcases hx : f x with e | y
      · refine .inr ⟨[], x, rest, e, rfl, by simp, hx, ?_⟩
        rw [List.mapM_cons, hx]
        rfl
      · rcases ih with ⟨ys, hys, hall⟩ | ⟨before, z, after, e, rfl, hbefore, he, hrest⟩
        · refine .inl ⟨y :: ys, ?_, .cons hx hall⟩
          rw [List.mapM_cons, hx, hys]
          rfl
        · refine .inr ⟨x :: before, z, after, e, rfl,
            List.forall_mem_cons.mpr ⟨⟨y, hx⟩, hbefore⟩, he, ?_⟩
          rw [List.mapM_cons, hx, hrest]
          rfl

theorem mapM_cases {ε α β : Type} (f : α → Except ε β) (xs : List α) :
    (∃ ys, xs.mapM f = .ok ys ∧ List.Forall₂ (fun x y => f x = .ok y) xs ys) ∨
      ∃ x ∈ xs, ∃ e, f x = .error e ∧ xs.mapM f = .error e := by
  refine (mapM_first_failure f xs).imp_right ?_
  rintro ⟨before, x, after, e, rfl, -, he, herror⟩
  exact ⟨x, by simp, e, he, herror⟩

theorem exists_of_mem_left {α β : Type} {R : α → β → Prop} {xs : List α} {ys : List β}
    (h : List.Forall₂ R xs ys) : ∀ x ∈ xs, ∃ y ∈ ys, R x y := by
  induction h with
  | nil => simp
  | @cons x y xs ys hxy _ ih =>
      refine List.forall_mem_cons.mpr ⟨⟨y, List.mem_cons_self, hxy⟩, fun z hz => ?_⟩
      obtain ⟨w, hw, hzw⟩ := ih z hz
      exact ⟨w, List.mem_cons_of_mem _ hw, hzw⟩

theorem exists_of_mem_right {α β : Type} {R : α → β → Prop} {xs : List α} {ys : List β}
    (h : List.Forall₂ R xs ys) : ∀ y ∈ ys, ∃ x ∈ xs, R x y :=
  exists_of_mem_left h.flip

-- Two cuts of a row around different elements.
theorem cut_cases {α : Type} {before after first last : List α} {x y : α}
    (h : before ++ x :: after = first ++ y :: last) (hne : x ≠ y) :
    (∃ more, first = before ++ x :: more ∧ after = more ++ y :: last) ∨
      ∃ more, before = first ++ y :: more ∧ last = more ++ x :: after := by
  rcases List.append_eq_append_iff.mp h with ⟨more, hfirst, hmore⟩ | ⟨more, hbefore, hmore⟩
  · rcases List.cons_eq_append_iff.mp hmore with ⟨rfl, heq⟩ | ⟨more, rfl, heq⟩
    · exact absurd (List.cons.inj heq).1.symm hne
    · exact .inl ⟨more, hfirst, heq⟩
  · rcases List.cons_eq_append_iff.mp hmore with ⟨rfl, heq⟩ | ⟨more, rfl, heq⟩
    · exact absurd (List.cons.inj heq).1 hne
    · exact .inr ⟨more, hbefore, heq⟩

-- What a change at one place leaves out of account is the same in the whole row.
theorem map_modify {α β : Type} {f : α → β} {g : α → α} (hg : ∀ x, f (g x) = f x) (xs : List α)
    (n : Nat) : (xs.modify n g).map f = xs.map f := by
  apply List.ext_getElem?
  intro i
  rw [List.getElem?_map, List.getElem?_map, List.getElem?_modify]
  by_cases hn : n = i
  · cases xs[i]? <;> simp [hn, hg]
  · simp [hn]

theorem exists_of_map_ok {ε α β : Type} {f : α → β} {o : Except ε α} {b : β}
    (h : o.map f = .ok b) : ∃ a, o = .ok a ∧ f a = b := by
  cases o with
  | error e => cases h
  | ok a =>
      cases h
      exact ⟨a, rfl, rfl⟩

theorem countP_lt_countP {α : Type} {p q : α → Bool} {l : List α} {x : α}
    (h : ∀ z ∈ l, p z = true → q z = true) (hx : x ∈ l) (hp : p x = false) (hq : q x = true) :
    l.countP p < l.countP q := by
  obtain ⟨before, after, rfl⟩ := List.append_of_mem hx
  have hbefore := List.countP_mono_left (l := before) fun z hz =>
    h z (List.mem_append_left _ hz)
  have hafter := List.countP_mono_left (l := after) fun z hz =>
    h z (List.mem_append_right _ (List.mem_cons_of_mem _ hz))
  rw [List.countP_append, List.countP_append, List.countP_cons, List.countP_cons, hp, hq]
  simp only [Bool.false_eq_true, if_false, if_true]
  omega

-- A map under which whatever moves comes to a lower rank.
section Ranked

variable {α : Type} {f : α → α} {rank : α → Nat} (hrank : ∀ a, f a ≠ a → rank (f a) < rank a)
include hrank

theorem rank_iterate_le (n : Nat) (a : α) : rank (f^[n] a) ≤ rank a := by
  induction n with
  | zero => exact Nat.le_refl _
  | succ n ih =>
      rw [Function.iterate_succ_apply']
      by_cases hmove : f (f^[n] a) = f^[n] a
      · rw [hmove]
        exact ih
      · exact (hrank _ hmove).le.trans ih

theorem isFixedPt_of_isPeriodicPt {n : Nat} {a : α} (hn : 0 < n)
    (h : Function.IsPeriodicPt f n a) : Function.IsFixedPt f a := by
  by_contra hmove
  obtain ⟨m, rfl⟩ : ∃ m, n = m + 1 := ⟨n - 1, by omega⟩
  have hback : f^[m] (f a) = a := h
  have hle := rank_iterate_le hrank m (f a)
  have hlt := hrank a hmove
  rw [hback] at hle
  omega

theorem exists_isFixedPt_iterate (a : α) :
    ∃ n ≤ rank a, Function.IsFixedPt f (f^[n] a) := by
  by_contra hnone
  push Not at hnone
  have hdescent : ∀ n ≤ rank a + 1, rank (f^[n] a) + n ≤ rank a := by
    intro n hn
    induction n with
    | zero => simp
    | succ n ih =>
        have hstep := hrank _ (hnone n (by omega))
        have hlater := ih (by omega)
        rw [Function.iterate_succ_apply']
        omega
  have := hdescent (rank a + 1) (Nat.le_refl _)
  omega

end Ranked

end Vyakarana
