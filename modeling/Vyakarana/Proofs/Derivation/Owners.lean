import Vyakarana.Proofs.Derivation.Row

/-!
Which term a sound of the running text belongs to.

The text of each term takes up one stretch of the running text, and the term owns the sounds of that
stretch; a term without text owns none. A splice exchanges a sound inside its owner and leaves every
other sound to the term that has it, however long the substitute is. A position before or beyond the
text has no owner, and a splice there changes nothing.
-/

namespace Vyakarana

-- Where the text of the term at `i` begins in the running text.
def stretchStart (row : List Term) (i : Nat) : Nat := ((row.take i).flatMap (·.text)).length

-- The stretch of the term at `i` has the position `k` in it.
def Spans (row : List Term) (i k : Nat) : Prop :=
  ∃ t, row[i]? = some t ∧ stretchStart row i ≤ k ∧ k < stretchStart row i + t.text.length

section Row

variable {before after row : List Term} {t : Term} {k i j place : Nat}

theorem locate?_append (row more : List Term) (k : Nat) :
    locate? (row ++ more) k =
      if k < (row.flatMap (·.text)).length then locate? row k
      else (locate? more (k - (row.flatMap (·.text)).length)).map
        fun (i, place) => (row.length + i, place) := by
  induction row generalizing k with
  | nil => simp
  | cons t rest ih =>
      rw [List.cons_append, locate?, locate?, ih, List.flatMap_cons, List.length_append]
      by_cases hhere : k < t.text.length
      · rw [if_pos hhere, if_pos (by omega), if_pos hhere]
      · rw [if_neg hhere, if_neg hhere]
        by_cases hrest : k - t.text.length < (rest.flatMap (·.text)).length
        · rw [if_pos hrest, if_pos (by omega)]
        · rw [if_neg hrest, if_neg (by omega), Nat.sub_add_eq, Option.map_map]
          refine congrArg (Option.map · _) (funext fun (i, place) => ?_)
          simp only [Function.comp_apply, List.length_cons, Prod.mk.injEq, and_true]
          omega

theorem lt_of_locate? {row : List Term} (h : locate? row k = some (i, place)) : i < row.length := by
  induction row generalizing k i with
  | nil => cases h
  | cons t rest ih =>
      rw [locate?] at h
      split at h
      · cases h
        exact Nat.zero_lt_succ _
      · obtain ⟨⟨j, place'⟩, hrest, heq⟩ := Option.map_eq_some_iff.mp h
        cases heq
        exact Nat.succ_lt_succ (ih hrest)

-- The term in the cut owns just the sounds of its own stretch.
theorem locate?_of_cut (before after : List Term) (t : Term) (k : Nat) :
    (∃ place, locate? (before ++ t :: after) k = some (before.length, place)) ↔
      (before.flatMap (·.text)).length ≤ k ∧
        k < (before.flatMap (·.text)).length + t.text.length := by
  rw [locate?_append]
  by_cases hbefore : k < (before.flatMap (·.text)).length
  · rw [if_pos hbefore]
    refine ⟨fun ⟨place, hplace⟩ => ?_, fun h => by omega⟩
    exact absurd (lt_of_locate? hplace) (Nat.lt_irrefl _)
  · rw [if_neg hbefore, locate?]
    by_cases hhere : k - (before.flatMap (·.text)).length < t.text.length
    · rw [if_pos hhere]
      exact ⟨fun _ => by omega, fun _ => ⟨_, rfl⟩⟩
    · rw [if_neg hhere]
      refine ⟨fun ⟨place, hplace⟩ => ?_, fun h => by omega⟩
      obtain ⟨⟨i, place'⟩, hafter, heq⟩ := Option.map_eq_some_iff.mp hplace
      obtain ⟨⟨j, place''⟩, -, hj⟩ := Option.map_eq_some_iff.mp hafter
      simp only [Prod.mk.injEq] at heq hj
      omega

theorem spliceTerms_append (row more : List Term) (k : Nat) (sub : Text) :
    spliceTerms (row ++ more) k sub =
      if k < (row.flatMap (·.text)).length then spliceTerms row k sub ++ more
      else row ++ spliceTerms more (k - (row.flatMap (·.text)).length) sub := by
  induction row generalizing k with
  | nil => simp
  | cons t rest ih =>
      rw [List.cons_append, spliceTerms, spliceTerms, ih, List.flatMap_cons, List.length_append]
      by_cases hhere : k < t.text.length
      · rw [if_pos hhere, if_pos hhere, if_pos (by omega), List.cons_append]
      · rw [if_neg hhere, if_neg hhere]
        by_cases hrest : k - t.text.length < (rest.flatMap (·.text)).length
        · rw [if_pos hrest, if_pos (by omega), List.cons_append]
        · rw [if_neg hrest, if_neg (by omega), Nat.sub_add_eq, List.cons_append]

-- Beyond the text there is nothing to find and nothing to replace.
theorem locate?_eq_none (h : (row.flatMap (·.text)).length ≤ k) : locate? row k = none := by
  induction row generalizing k with
  | nil => rfl
  | cons t rest ih =>
      rw [List.flatMap_cons, List.length_append] at h
      rw [locate?, if_neg (by omega), ih (by omega)]
      rfl

theorem spliceTerms_eq_self (h : (row.flatMap (·.text)).length ≤ k) (sub : Text) :
    spliceTerms row k sub = row := by
  induction row generalizing k with
  | nil => rfl
  | cons t rest ih =>
      rw [List.flatMap_cons, List.length_append] at h
      rw [spliceTerms, if_neg (by omega), ih (by omega)]

theorem stretchStart_of_cut (before after : List Term) (t : Term) :
    stretchStart (before ++ t :: after) before.length = (before.flatMap (·.text)).length := by
  simp [stretchStart]

-- A stretch is found by the index of its term, and only by that.
theorem spans_iff_locate? : Spans row i k ↔ ∃ place, locate? row k = some (i, place) := by
  constructor
  · rintro ⟨t, ht, hstart⟩
    obtain ⟨hi, rfl⟩ := List.getElem?_eq_some_iff.mp ht
    have hlength : (row.take i).length = i := List.length_take_of_le (Nat.le_of_lt hi)
    have hfound := (locate?_of_cut (row.take i) (row.drop (i + 1)) row[i] k).mpr hstart
    rwa [List.getElem_cons_drop, List.take_append_drop, hlength] at hfound
  · rintro ⟨place, hplace⟩
    have hi := lt_of_locate? hplace
    have hlength : (row.take i).length = i := List.length_take_of_le (Nat.le_of_lt hi)
    refine ⟨row[i], List.getElem?_eq_getElem hi, ?_⟩
    apply (locate?_of_cut (row.take i) (row.drop (i + 1)) row[i] k).mp
    rw [List.getElem_cons_drop, List.take_append_drop, hlength]
    exact ⟨place, hplace⟩

-- Every sound has its owner, and the row is cut around it.
theorem exists_cut_of_lt (h : k < (row.flatMap (·.text)).length) :
    ∃ before t after, row = before ++ t :: after ∧ (before.flatMap (·.text)).length ≤ k ∧
      k < (before.flatMap (·.text)).length + t.text.length := by
  induction row generalizing k with
  | nil => exact absurd h (Nat.not_lt_zero _)
  | cons t rest ih =>
      by_cases hhere : k < t.text.length
      · exact ⟨[], t, rest, rfl, Nat.zero_le _, by simpa using hhere⟩
      · rw [List.flatMap_cons, List.length_append] at h
        obtain ⟨before, u, after, rfl, hstart, hstop⟩ := ih (k := k - t.text.length) (by omega)
        refine ⟨t :: before, u, after, rfl, ?_, ?_⟩
        · rw [List.flatMap_cons, List.length_append]
          omega
        · rw [List.flatMap_cons, List.length_append]
          omega

-- The index of the owner, as the row is cut around a term: what comes before the stretch and
-- after it does not depend on that term but for the length of its text.
theorem ownerOf_cut (before after : List Term) (t : Term) (k : Nat) :
    (locate? (before ++ t :: after) k).map (·.1) =
      if k < (before.flatMap (·.text)).length then (locate? before k).map (·.1)
      else if k < (before.flatMap (·.text)).length + t.text.length then some before.length
      else (locate? after (k - ((before.flatMap (·.text)).length + t.text.length))).map
        (before.length + 1 + ·.1) := by
  rw [locate?_append]
  by_cases hbefore : k < (before.flatMap (·.text)).length
  · rw [if_pos hbefore, if_pos hbefore]
  · rw [if_neg hbefore, if_neg hbefore, locate?]
    by_cases hhere : k < (before.flatMap (·.text)).length + t.text.length
    · rw [if_pos hhere, if_pos (by omega)]
      rfl
    · rw [if_neg hhere, if_neg (by omega), Nat.sub_add_eq, Option.map_map, Option.map_map]
      refine congrArg (Option.map · _) (funext fun (i, place) => ?_)
      simp only [Function.comp_apply]
      omega

theorem spliceTerms_of_cut (hstart : (before.flatMap (·.text)).length ≤ k)
    (hstop : k < (before.flatMap (·.text)).length + t.text.length) (after : List Term)
    (sub : Text) :
    spliceTerms (before ++ t :: after) k sub =
      before ++ t.setText (t.text.take (k - (before.flatMap (·.text)).length) ++ sub ++
        t.text.drop (k - (before.flatMap (·.text)).length + 1)) :: after := by
  rw [spliceTerms_append, if_neg (by omega), spliceTerms, if_pos (by omega)]

end Row

namespace Derivation

variable {d : Derivation} {before after : List Term} {t : Term} {n i : Nat}

theorem ownerIndex?_natCast (d : Derivation) (n : Nat) :
    d.ownerIndex? n = (locate? d.terms n).map (·.1) := rfl

theorem ownerIndex?_eq_some_iff : d.ownerIndex? n = some i ↔ Spans d.terms i n := by
  rw [ownerIndex?_natCast, spans_iff_locate?, Option.map_eq_some_iff]
  constructor
  · rintro ⟨⟨j, place⟩, hplace, rfl⟩
    exact ⟨place, hplace⟩
  · rintro ⟨place, hplace⟩
    exact ⟨(i, place), hplace, rfl⟩

-- The sounds before the one replaced, the substitute, and the sounds after it have the owners that
-- they had.
theorem ownerIndex?_splice (hrow : d.terms = before ++ t :: after)
    (hstart : (before.flatMap (·.text)).length ≤ n)
    (hstop : n < (before.flatMap (·.text)).length + t.text.length) (sub : Text) :
    (∀ j : Nat, j < n → (d.splice n sub).ownerIndex? j = d.ownerIndex? j) ∧
      (∀ j : Nat, j < sub.length →
        (d.splice n sub).ownerIndex? ((n + j : Nat) : Int) = some before.length) ∧
      ∀ j : Nat, (d.splice n sub).ownerIndex? ((n + sub.length + j : Nat) : Int) =
        d.ownerIndex? ((n + 1 + j : Nat) : Int) := by
  have hspliced : (d.splice n sub).terms = before ++ t.setText (t.text.take (n -
      (before.flatMap (·.text)).length) ++ sub ++
      t.text.drop (n - (before.flatMap (·.text)).length + 1)) :: after := by
    rw [← spliceTerms_of_cut hstart hstop, ← hrow]
    rfl
  have hlength : (t.setText (t.text.take (n - (before.flatMap (·.text)).length) ++ sub ++
      t.text.drop (n - (before.flatMap (·.text)).length + 1))).text.length + 1 =
      t.text.length + sub.length := by
    simp only [Term.setText, List.length_append, List.length_take, List.length_drop]
    omega
  generalize t.setText _ = u at hspliced hlength
  have howner (j : Nat) := ownerOf_cut before after t j
  have howner' (j : Nat) := ownerOf_cut before after u j
  rw [← hrow] at howner
  rw [← hspliced] at howner'
  refine ⟨fun j hj => ?_, fun j hj => ?_, fun j => ?_⟩
  · rw [ownerIndex?_natCast, ownerIndex?_natCast]
    by_cases hbefore : j < (before.flatMap (·.text)).length
    · rw [howner', if_pos hbefore, howner, if_pos hbefore]
    · rw [howner', if_neg hbefore, if_pos (by omega), howner, if_neg hbefore, if_pos (by omega)]
  · rw [ownerIndex?_natCast, howner', if_neg (by omega), if_pos (by omega)]
  · rw [ownerIndex?_natCast, ownerIndex?_natCast]
    by_cases hhere : n + 1 + j < (before.flatMap (·.text)).length + t.text.length
    · rw [howner', if_neg (by omega), if_pos (by omega), howner, if_neg (by omega), if_pos hhere]
    · rw [howner', if_neg (by omega), if_neg (by omega), howner, if_neg (by omega), if_neg hhere]
      congr 2
      omega

-- A sound has one owner, the term whose stretch it lies in. A splice writes the substitute in the
-- place of the sound: the text of the owner changes and nothing else, the substitute belongs to the
-- owner and all other sounds to the terms that had them. Outside the text nothing is found, and
-- nothing is changed.
theorem splice_stays_in_owner (d : Derivation) (k : Int) (sub : Text) :
    (∀ n : Nat, k = n → n < d.text.length → ∃ i t, d.terms[i]? = some t ∧
      (∀ j, Spans d.terms j n ↔ j = i) ∧ d.owner? k = some t ∧
      (d.splice k sub).text = d.text.take n ++ sub ++ d.text.drop (n + 1) ∧
      d.splice k sub = d.update i (·.setText (t.text.take (n - stretchStart d.terms i) ++ sub ++
        t.text.drop (n - stretchStart d.terms i + 1))) ∧
      (∀ j : Nat, j < n → (d.splice k sub).ownerIndex? j = d.ownerIndex? j) ∧
      (∀ j : Nat, j < sub.length → (d.splice k sub).ownerIndex? ((n + j : Nat) : Int) = some i) ∧
      ∀ j : Nat, (d.splice k sub).ownerIndex? ((n + sub.length + j : Nat) : Int) =
        d.ownerIndex? ((n + 1 + j : Nat) : Int)) ∧
    (k < 0 ∨ (d.text.length : Int) ≤ k → d.owner? k = none ∧ d.splice k sub = d) := by
  refine ⟨?_, fun houtside => ?_⟩
  · rintro n rfl hn
    obtain ⟨before, t, after, hrow, hstart, hstop⟩ := exists_cut_of_lt hn
    have hterm := term_of_cut hrow
    have hown : stretchStart d.terms before.length = (before.flatMap (·.text)).length := by
      rw [hrow, stretchStart_of_cut]
    have hspans : Spans d.terms before.length n := ⟨t, hterm, by rwa [hown], by rwa [hown]⟩
    have hindex : d.ownerIndex? n = some before.length := ownerIndex?_eq_some_iff.mpr hspans
    refine ⟨before.length, t, hterm, fun j => ?_, ?_, text_splice d hn sub, ?_,
      ownerIndex?_splice hrow hstart hstop sub⟩
    · rw [← ownerIndex?_eq_some_iff, hindex, Option.some.injEq, eq_comm]
    · rw [owner?, hindex, Option.bind_some, hterm]
    · have hterms : spliceTerms d.terms n sub = d.terms.modify before.length (·.setText
          (t.text.take (n - stretchStart d.terms before.length) ++ sub ++
            t.text.drop (n - stretchStart d.terms before.length + 1))) := by
        rw [hown, ← terms_update, terms_update_of_cut hrow rfl, hrow,
          spliceTerms_of_cut hstart hstop]
      show { d with terms := spliceTerms d.terms n sub } = _
      rw [hterms]
      rfl
  · cases k with
    | ofNat n =>
        have hn : (d.terms.flatMap (·.text)).length ≤ n := by
          have hlength : d.text.length = (d.terms.flatMap (·.text)).length := rfl
          simp only [Int.ofNat_eq_natCast] at houtside
          omega
        refine ⟨?_, ?_⟩
        · rw [owner?, Int.ofNat_eq_natCast, ownerIndex?_natCast, locate?_eq_none hn]
          rfl
        · show { d with terms := spliceTerms d.terms n sub } = d
          rw [spliceTerms_eq_self hn]
    | negSucc n => exact ⟨rfl, rfl⟩

end Derivation

end Vyakarana
