import Vyakarana.Proofs.Grammar.Reapplication

/-!
Passes over the row.

A pass visits the terms from the left. What it does to a term depends on the term and on what follows
it, and what follows has not been visited yet. So the row after the pass, and the steps that the pass
has recorded, are those of a recursion on the row.
-/

namespace Vyakarana

namespace Derivation

variable {d e : Derivation}

-- The rules of the steps taken so far.
def rules (d : Derivation) : List Rule := d.history.map (·.rule)

theorem rules_record (h : d.recording = true) (rule : Rule) :
    (d.record rule).rules = d.rules ++ [rule] := by
  rw [record, if_pos h, rules, List.map_append]
  rfl

-- Does to the term at `i` what has been found to do, if anything.
def enact (act : Option (Rule × (Term → Term))) (i : Nat) (d : Derivation) : Derivation :=
  match act with
  | some (rule, change) => d.alter rule i change
  | none => d

theorem enact_shows {before after : List Term} {t : Term} (h : d.terms = before ++ t :: after)
    (act : Option (Rule × (Term → Term))) :
    (d.enact act before.length).terms = before ++ (act.elim t fun a => a.2 t) :: after ∧
      (d.enact act before.length).rest = d.rest ∧
      (d.recording = true → (d.enact act before.length).rules =
        d.rules ++ (act.map (·.1)).toList) := by
  cases act with
  | none => exact ⟨h, rfl, fun _ => (List.append_nil _).symm⟩
  | some a =>
      have hacts := actsAt_alter a.1 before.length a.2 d
      refine ⟨hacts.terms_of_cut h rfl, hacts.rest, fun hon => ?_⟩
      have hterm : (d.term? (before.length : Int)).isSome = true := by
        rw [show d.term? (before.length : Int) = some t from term_of_cut h]
        rfl
      have hupdated : (d.update (before.length : Int) a.2).recording = true := hon
      have hrules : (d.update (before.length : Int) a.2).rules = d.rules := rfl
      rw [enact, alter, if_pos hterm, rules_record hupdated, hrules]
      rfl

-- A visit does to a term what `act` finds in the term and in what follows.
def LooksAhead (visit : Derivation → Nat → Derivation)
    (act : Term → List Term → Option (Rule × (Term → Term))) : Prop :=
  ∀ e before t after, e.terms = before ++ t :: after →
    visit e before.length = e.enact (act t after) before.length

end Derivation

section Ahead

variable (act : Term → List Term → Option (Rule × (Term → Term)))

-- The row after a pass.
def aheadRow : List Term → List Term
  | [] => []
  | t :: after => ((act t after).elim t fun a => a.2 t) :: aheadRow after

-- The rules of the steps that the pass takes.
def aheadRules : List Term → List Rule
  | [] => []
  | t :: after => ((act t after).map (·.1)).toList ++ aheadRules after

variable {act} {t : Term} {row before after : List Term}

theorem aheadRow_append (h : ∀ t ∈ before, ∀ after, act t after = none) :
    aheadRow act (before ++ row) = before ++ aheadRow act row := by
  induction before with
  | nil => rfl
  | cons t rest ih =>
      rw [List.forall_mem_cons] at h
      rw [List.cons_append, aheadRow, h.1, Option.elim_none, ih h.2, List.cons_append]

theorem aheadRules_append (h : ∀ t ∈ before, ∀ after, act t after = none) :
    aheadRules act (before ++ row) = aheadRules act row := by
  induction before with
  | nil => rfl
  | cons t rest ih =>
      rw [List.forall_mem_cons] at h
      rw [List.cons_append, aheadRules, h.1, ih h.2]
      rfl

theorem aheadRow_eq_self (h : ∀ t ∈ row, ∀ after, act t after = none) : aheadRow act row = row := by
  have hrow : aheadRow act (row ++ []) = row ++ aheadRow act [] := aheadRow_append h
  rwa [List.append_nil, aheadRow, List.append_nil] at hrow

theorem aheadRules_eq_nil (h : ∀ t ∈ row, ∀ after, act t after = none) :
    aheadRules act row = [] := by
  have hrules : aheadRules act (row ++ []) = aheadRules act [] := aheadRules_append h
  rwa [List.append_nil, aheadRules] at hrules

end Ahead

namespace Derivation

variable {visit : Derivation → Nat → Derivation}
  {act : Term → List Term → Option (Rule × (Term → Term))}

-- By induction on the terms that are still to be visited.
theorem LooksAhead.foldl (h : LooksAhead visit act) (before after : List Term) (d : Derivation)
    (hd : d.terms = before ++ after) :
    ((List.range' before.length after.length).foldl visit d).terms =
        before ++ aheadRow act after ∧
      ((List.range' before.length after.length).foldl visit d).rest = d.rest ∧
      (d.recording = true → ((List.range' before.length after.length).foldl visit d).rules =
        d.rules ++ aheadRules act after) := by
  induction after generalizing before d with
  | nil => exact ⟨hd, rfl, fun _ => (List.append_nil _).symm⟩
  | cons t after ih =>
      obtain ⟨hterms, hrest, hrules⟩ := enact_shows hd (act t after)
      rw [← h d before t after hd] at hterms hrest hrules
      rw [List.append_cons] at hterms
      obtain ⟨hterms', hrest', hrules'⟩ := ih _ (visit d before.length) hterms
      rw [List.length_append, List.length_singleton] at hterms' hrest' hrules'
      rw [List.length_cons, List.range'_succ, List.foldl_cons]
      refine ⟨hterms'.trans (List.append_cons _ _ _).symm, hrest'.trans hrest, fun hon => ?_⟩
      have hon' : (visit d before.length).recording = true :=
        calc (visit d before.length).recording = (visit d before.length).rest.recording := rfl
          _ = d.rest.recording := by rw [hrest]
          _ = true := hon
      rw [hrules' hon', hrules hon, List.append_assoc, aheadRules]

theorem LooksAhead.forEach (h : LooksAhead visit act) (d : Derivation) :
    (d.forEach visit).terms = aheadRow act d.terms ∧ (d.forEach visit).rest = d.rest ∧
      (d.recording = true → (d.forEach visit).rules = d.rules ++ aheadRules act d.terms) := by
  have hfold := h.foldl [] d.terms d rfl
  rwa [List.nil_append, List.length_nil, ← List.range_eq_range'] at hfold

-- What tags are due to the terms is known before the first visit.
theorem DueOnce.forEach_terms {due : Derivation → Nat → Term → Option (Rule × Tag)}
    (h : DueOnce due) (d : Derivation) :
    (d.forEach (tagVisit due)).terms =
      d.terms.mapIdx fun i t => (due d i t).elim t fun mark => t.addTag mark.2 := by
  have hvisit (e : Derivation) (i : Nat) :
      (tagVisit due e i).terms =
          e.terms.modify i (fun t => (due e i t).elim t fun mark => t.addTag mark.2) ∧
        due (tagVisit due e i) = due e := by
    unfold tagVisit
    split
    · rename_i mark hmark
      obtain ⟨t, ht, hdue⟩ := Option.bind_eq_some_iff.mp hmark
      refine ⟨((actsAt_alter mark.1 i _ e).at ht ?_).terms,
        funext fun j => h.others e j i t mark hdue⟩
      rw [hdue, Option.elim_some]
    · rename_i hnone
      refine ⟨((actsAt_id i e).congr fun t ht => ?_).terms, rfl⟩
      rw [ht, Option.bind_some] at hnone
      rw [hnone]
      rfl
  have hfold : ∀ n, due ((List.range n).foldl (tagVisit due) d) = due d ∧
      ∀ i : Nat, ((List.range n).foldl (tagVisit due) d).terms[i]? =
        if i < n then (d.terms[i]?).map fun t => (due d i t).elim t fun mark => t.addTag mark.2
        else d.terms[i]? := by
    intro n
    induction n with
    | zero => exact ⟨rfl, fun i => (if_neg (Nat.not_lt_zero i)).symm⟩
    | succ n ih =>
        obtain ⟨hdue, hterms⟩ := ih
        rw [List.range_succ, List.foldl_append, List.foldl_cons, List.foldl_nil]
        obtain ⟨hrow, hsame⟩ := hvisit ((List.range n).foldl (tagVisit due) d) n
        refine ⟨hsame.trans hdue, fun i => ?_⟩
        rw [hrow, List.getElem?_modify, hterms, hdue]
        by_cases hin : n = i
        · subst hin
          simp
        · have hlt : i < n + 1 ↔ i < n := by omega
          simp [hin, hlt]
  refine List.ext_getElem? fun i => ?_
  rw [Derivation.forEach, (hfold d.terms.length).2 i, List.getElem?_mapIdx]
  by_cases hi : i < d.terms.length
  · rw [if_pos hi]
  · rw [if_neg hi, List.getElem?_eq_none (Nat.le_of_not_lt hi)]
    rfl

end Derivation

end Vyakarana
