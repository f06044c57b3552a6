import Vyakarana.Proofs.Derivation.Cuts

/-!
The row of a derivation, term by term.

Rules find their terms by searching the row from either end. Where the row is cut around a term that
is the last or the first of its kind, the searches find it. A rule that acts at an index exchanges
the term there and leaves the other terms, and all that stands beside the row, as they are.
-/

namespace Vyakarana

section Searches

variable {f : Term → Bool} {before after : List Term} {t : Term}

theorem lastIndex?_of_cut (ht : f t = true) (hafter : ∀ u ∈ after, f u = false) :
    lastIndex? f (before ++ t :: after) = some before.length := by
  induction before with
  | nil => rw [List.nil_append, lastIndex?, lastIndex?_eq_none.mpr hafter]; simp [ht]
  | cons u rest ih => rw [List.cons_append, lastIndex?, ih]; rfl

end Searches

namespace Derivation

variable {d e : Derivation} {before after : List Term} {t : Term}

-- All that stands beside the row and the trace.
def rest (d : Derivation) : Derivation := { d with terms := [], history := [] }

@[simp] theorem rest_record (rule : Rule) (d : Derivation) : (d.record rule).rest = d.rest := by
  unfold record
  split <;> rfl

@[simp] theorem rest_push (t : Term) (d : Derivation) : (d.push t).rest = d.rest := rfl

@[simp] theorem rest_insertTerm (n : Nat) (t : Term) (d : Derivation) :
    (d.insertTerm n t).rest = d.rest := rfl

@[simp] theorem rest_update (i : Int) (f : Term → Term) (d : Derivation) :
    (d.update i f).rest = d.rest := by
  unfold update
  split <;> rfl

@[simp] theorem rest_splice (k : Int) (sub : Text) (d : Derivation) :
    (d.splice k sub).rest = d.rest := by
  unfold splice
  split <;> rfl

@[simp] theorem rest_alter (rule : Rule) (i : Int) (f : Term → Term) (d : Derivation) :
    (d.alter rule i f).rest = d.rest := by
  unfold alter
  split <;> simp

theorem hasTag_eq_of_rest (h : e.rest = d.rest) (tag : Tag) : e.hasTag tag = d.hasTag tag :=
  calc e.hasTag tag = e.rest.hasTag tag := rfl
    _ = d.rest.hasTag tag := by rw [h]

theorem hasTagIn_eq_of_rest (h : e.rest = d.rest) (tags : List Tag) :
    e.hasTagIn tags = d.hasTagIn tags :=
  calc e.hasTagIn tags = e.rest.hasTagIn tags := rfl
    _ = d.rest.hasTagIn tags := by rw [h]

theorem background_eq_of_rest (h : e.rest = d.rest) : e.background = d.background :=
  calc e.background = e.rest.background := rfl
    _ = d.rest.background := by rw [h]

theorem ledger_eq_of_rest (h : e.rest = d.rest) : e.ledger = d.ledger :=
  calc e.ledger = e.rest.ledger := rfl
    _ = d.rest.ledger := by rw [h]

theorem choices_eq_of_rest (h : e.rest = d.rest) : e.choices = d.choices :=
  calc e.choices = e.rest.choices := rfl
    _ = d.rest.choices := by rw [h]

theorem term_of_cut (h : d.terms = before ++ t :: after) :
    d.terms[before.length]? = some t := by
  rw [h, List.getElem?_append_right (Nat.le_refl _), Nat.sub_self, List.getElem?_cons_zero]

theorem has_of_cut (h : d.terms = before ++ t :: after) (f : Term → Bool) :
    d.has before.length f = f t := by
  rw [has, term?, show ((before.length : Int)).toNat? = some before.length from rfl,
    Option.bind_some, term_of_cut h, Option.any_some]

theorem findLast?_of_cut {f : Term → Bool} (h : d.terms = before ++ t :: after) (ht : f t = true)
    (hafter : ∀ u ∈ after, f u = false) : d.findLast? f = some before.length := by
  rw [findLast?, h, lastIndex?_of_cut ht hafter]

theorem lastTagged?_of_cut {tag : Tag} (h : d.terms = before ++ t :: after)
    (ht : t.hasTag tag = true) (hafter : ∀ u ∈ after, u.hasTag tag = false) :
    d.lastTagged? tag = some before.length :=
  findLast?_of_cut h ht hafter

theorem firstTagged?_of_cut {tag : Tag} (h : d.terms = before ++ t :: after)
    (ht : t.hasTag tag = true) (hbefore : ∀ u ∈ before, u.hasTag tag = false) :
    d.firstTagged? tag = some before.length := by
  rw [firstTagged?, findFirst?, h, List.findIdx?_append, List.findIdx?_cons, ht]
  simp [List.findIdx?_eq_none_iff.mpr hbefore]

theorem firstTagged?_eq_none {tag : Tag} (h : ∀ t ∈ d.terms, t.hasTag tag = false) :
    d.firstTagged? tag = none :=
  List.findIdx?_eq_none_iff.mpr h

-- The last term of a kind, and the row around it.
theorem cut_of_findLast? {f : Term → Bool} {i : Nat} (h : d.findLast? f = some i) :
    ∃ before t after, d.terms = before ++ t :: after ∧ before.length = i ∧ f t = true ∧
      ∀ u ∈ after, f u = false :=
  cut_of_lastIndex? h

theorem cut_of_firstTagged? {tag : Tag} {i : Nat} (h : d.firstTagged? tag = some i) :
    ∃ before t after, d.terms = before ++ t :: after ∧ before.length = i ∧ t.hasTag tag = true := by
  obtain ⟨t, ht, htag⟩ := exists_of_findIdx? h
  obtain ⟨before, after, hterms, hi⟩ := cut_term ht
  exact ⟨before, t, after, hterms, hi, htag⟩

theorem term_of_has {f : Term → Bool} {i : Nat} (h : d.has i f = true) :
    ∃ t, d.terms[i]? = some t ∧ f t = true :=
  (Option.any_eq_true _ _).mp h

theorem terms_insertTerm_of_cut (h : d.terms = before ++ after) (t : Term) :
    (d.insertTerm before.length t).terms = before ++ t :: after := by
  simp [insertTerm, h]

-- `e` is `d` with `f` done to the term at `i`, if there is one.
structure ActsAt (i : Nat) (f : Term → Term) (d e : Derivation) : Prop where
  terms : e.terms = d.terms.modify i f
  rest : e.rest = d.rest

theorem ActsAt.terms_of_cut {i : Nat} {f : Term → Term} (h : ActsAt i f d e)
    (hd : d.terms = before ++ t :: after) (hi : before.length = i) :
    e.terms = before ++ f t :: after := by
  rw [h.terms, hd, ← hi, List.modify_eq_take_drop]
  simp

theorem actsAt_id (i : Nat) (d : Derivation) : ActsAt i id d d :=
  ⟨(List.modify_id i d.terms).symm, rfl⟩

theorem actsAt_update (i : Nat) (f : Term → Term) (d : Derivation) : ActsAt i f d (d.update i f) :=
  ⟨rfl, rest_update i f d⟩

theorem ActsAt.record {i : Nat} {f : Term → Term} (h : ActsAt i f d e) (rule : Rule) :
    ActsAt i f d (e.record rule) :=
  ⟨(terms_record rule e).trans h.terms, (rest_record rule e).trans h.rest⟩

theorem actsAt_alter (rule : Rule) (i : Nat) (f : Term → Term) (d : Derivation) :
    ActsAt i f d (d.alter rule i f) := by
  unfold alter
  split
  · exact (actsAt_update i f d).record rule
  · rename_i hnone
    refine ⟨(List.modify_eq_self ?_).symm, rfl⟩
    rw [← List.getElem?_eq_none_iff]
    exact Option.not_isSome_iff_eq_none.mp hnone

theorem ActsAt.trans {c : Derivation} {i : Nat} {f g : Term → Term} (h : ActsAt i f c d)
    (h' : ActsAt i g d e) : ActsAt i (g ∘ f) c e :=
  ⟨by rw [h'.terms, h.terms, List.modify_modify_eq], h'.rest.trans h.rest⟩

-- What is done to the term need only be told of the term that is there.
theorem ActsAt.congr {i : Nat} {f g : Term → Term} (h : ActsAt i f d e)
    (hfg : ∀ t, d.terms[i]? = some t → f t = g t) : ActsAt i g d e := by
  refine ⟨h.terms.trans (List.ext_getElem? fun j => ?_), h.rest⟩
  rw [List.getElem?_modify, List.getElem?_modify]
  by_cases hij : i = j
  · subst hij
    rcases ht : d.terms[i]? with _ | t
    · rfl
    · simp [hfg t ht]
  · simp [hij]

theorem ActsAt.at {i : Nat} {f g : Term → Term} (h : ActsAt i f d e) (ht : d.terms[i]? = some t)
    (hfg : f t = g t) : ActsAt i g d e :=
  h.congr fun t' ht' => by
    cases ht.symm.trans ht'
    exact hfg

theorem actsAt_of_none {i : Nat} (f : Term → Term) (h : d.terms[i]? = none) : ActsAt i f d d :=
  (actsAt_id i d).congr fun t ht => by cases h.symm.trans ht

-- A rule for terms of a kind.
theorem actsAt_ite {i : Nat} (applies : Term → Bool) {f : Term → Term}
    (h : ActsAt i f d e) :
    ActsAt i (fun t => if applies t then f t else t) d (if d.has i applies then e else d) := by
  split
  · rename_i hyes
    refine h.congr fun t ht => ?_
    rw [has, show d.term? (i : Int) = some t from ht, Option.any_some] at hyes
    rw [if_pos hyes]
  · rename_i hno
    refine (actsAt_id i d).congr fun t ht => ?_
    rw [has, show d.term? (i : Int) = some t from ht, Option.any_some] at hno
    rw [if_neg hno]
    rfl

-- A visit to every term.
theorem forEach_of_actsAt {visit : Derivation → Nat → Derivation} {f : Term → Term}
    (h : ∀ d i, ActsAt i f d (visit d i)) (d : Derivation) :
    (d.forEach visit).terms = d.terms.map f ∧ (d.forEach visit).rest = d.rest := by
  have hfold : ∀ n ≤ d.terms.length,
      ((List.range n).foldl visit d).terms = (d.terms.take n).map f ++ d.terms.drop n ∧
        ((List.range n).foldl visit d).rest = d.rest := by
    intro n hn
    induction n with
    | zero => exact ⟨rfl, rfl⟩
    | succ n ih =>
        obtain ⟨hterms, hrest⟩ := ih (by omega)
        have hstep := h ((List.range n).foldl visit d) n
        rw [List.range_succ, List.foldl_append, List.foldl_cons, List.foldl_nil]
        refine ⟨?_, hstep.rest.trans hrest⟩
        have hlength : ((d.terms.take n).map f).length = n := by
          rw [List.length_map, List.length_take, Nat.min_eq_left (by omega)]
        have hcut : ((List.range n).foldl visit d).terms =
            (d.terms.take n).map f ++ d.terms[n] :: d.terms.drop (n + 1) := by
          rw [hterms, List.getElem_cons_drop]
        rw [hstep.terms_of_cut hcut hlength, List.take_add_one, List.getElem?_eq_getElem hn]
        simp only [Option.toList_some, List.map_append, List.map_cons, List.map_nil,
          List.append_assoc, List.singleton_append]
  obtain ⟨hterms, hrest⟩ := hfold d.terms.length (Nat.le_refl _)
  refine ⟨?_, hrest⟩
  rw [forEach, hterms, List.take_length, List.drop_length, List.append_nil]

end Derivation

end Vyakarana
