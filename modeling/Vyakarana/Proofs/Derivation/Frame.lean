import Vyakarana.Derivation.Search
import Vyakarana.Proofs.Derivation.Sweeps

/-!
What rules leave as it was.

Hardly any rule touches the table in use or the ledger of a derivation, its background.
`Outcome.Ends` states what holds of the derivation that a rule leaves when it ends well, and
which faults can cut it short.
-/

namespace Vyakarana

namespace Derivation

@[simp] theorem term?_record (rule : Rule) (i : Int) (d : Derivation) :
    (d.record rule).term? i = d.term? i := by
  rw [term?, terms_record, term?]

theorem term?_update (n : Nat) (f : Term → Term) (d : Derivation) :
    (d.update n f).term? n = (d.term? n).map f :=
  List.getElem?_modify_eq f n d.terms

theorem term?_push (t : Term) (d : Derivation) : (d.push t).term? d.terms.length = some t :=
  List.getElem?_concat_length

theorem term?_alter (rule : Rule) (n : Nat) (f : Term → Term) (d : Derivation) :
    (d.alter rule n f).term? n = (d.term? n).map f := by
  unfold alter
  split
  · rw [term?_record, term?_update]
  · rename_i hnone
    rw [Option.not_isSome_iff_eq_none.mp hnone]
    rfl

-- A term put into the row is found where it was put, if anything is found there.
theorem term?_insertTerm {n : Nat} {t t' : Term} {d : Derivation}
    (h : (d.insertTerm n t).term? n = some t') : t' = t := by
  have hterms : (d.terms.take n ++ t :: d.terms.drop n)[n]? = some t' := h
  by_cases hn : n ≤ d.terms.length
  · rw [List.getElem?_append_right (by simp), List.length_take, Nat.min_eq_left hn,
      Nat.sub_self] at hterms
    cases hterms
    rfl
  · obtain ⟨hlt, -⟩ := List.getElem?_eq_some_iff.mp hterms
    simp only [List.length_append, List.length_take, List.length_cons, List.length_drop] at hlt
    omega

-- The table in use, and the choices made so far.
def background (d : Derivation) : FeatureTable × List Decision := (d.table, d.ledger)

theorem table_eq_of_background {d e : Derivation} (h : e.background = d.background) :
    e.table = d.table :=
  congrArg Prod.fst h

theorem ledger_eq_of_background {d e : Derivation} (h : e.background = d.background) :
    e.ledger = d.ledger :=
  congrArg Prod.snd h

@[simp] theorem background_addTag (tag : Tag) (d : Derivation) :
    (d.addTag tag).background = d.background := rfl

@[simp] theorem background_addTags (tags : List Tag) (d : Derivation) :
    (d.addTags tags).background = d.background := by
  induction tags generalizing d with
  | nil => rfl
  | cons tag rest ih => exact ih (d.addTag tag)

@[simp] theorem background_push (t : Term) (d : Derivation) :
    (d.push t).background = d.background := rfl

@[simp] theorem background_insertTerm (n : Nat) (t : Term) (d : Derivation) :
    (d.insertTerm n t).background = d.background := rfl

@[simp] theorem background_update (i : Int) (f : Term → Term) (d : Derivation) :
    (d.update i f).background = d.background := by
  unfold update
  split <;> rfl

@[simp] theorem background_splice (k : Int) (sub : Text) (d : Derivation) :
    (d.splice k sub).background = d.background := by
  unfold splice
  split <;> rfl

@[simp] theorem background_record (rule : Rule) (d : Derivation) :
    (d.record rule).background = d.background := by
  unfold record
  split <;> rfl

@[simp] theorem background_alter (rule : Rule) (i : Int) (f : Term → Term) (d : Derivation) :
    (d.alter rule i f).background = d.background := by
  unfold alter
  split <;> simp

@[simp] theorem background_alterIf (rule : Rule) (i : Int) (applies : Term → Bool)
    (f : Term → Term) (d : Derivation) :
    (d.alterIf rule i applies f).2.background = d.background := by
  unfold alterIf
  split <;> simp

-- What every visit keeps is kept by going through the row.
theorem forEach_keeps {visit : Derivation → Nat → Derivation} {P : Derivation → Prop}
    (h : ∀ d i, P d → P (visit d i)) {d : Derivation} (hd : P d) : P (d.forEach visit) := by
  have hfold : ∀ (indices : List Nat) (d : Derivation), P d → P (indices.foldl visit d) := by
    intro indices
    induction indices with
    | nil => exact fun d hd => hd
    | cons i rest ih => exact fun d hd => ih (visit d i) (h d i hd)
  exact hfold _ d hd

-- `e` is what has become of `d`: over the same table, with choices at some of `rules` added.
structure Continues (rules : List Rule) (e d : Derivation) : Prop where
  table : e.table = d.table
  ledger : ∀ x ∈ e.ledger, x ∈ d.ledger ∨ x.rule ∈ rules

theorem continues_of_background (rules : List Rule) {d e : Derivation}
    (h : e.background = d.background) : e.Continues rules d := by
  refine ⟨table_eq_of_background h, fun x hx => .inl ?_⟩
  rw [← ledger_eq_of_background h]
  exact hx

theorem Continues.trans {rules : List Rule} {d e f : Derivation} (hf : f.Continues rules e)
    (he : e.Continues rules d) : f.Continues rules d := by
  refine ⟨hf.table.trans he.table, fun x hx => ?_⟩
  rcases hf.ledger x hx with hx | hx
  · exact he.ledger x hx
  · exact .inr hx

theorem continues_accept {rules : List Rule} {rule : Rule} (h : rule ∈ rules) (d : Derivation) :
    (d.accept rule).Continues rules d := by
  refine ⟨rfl, fun x hx => ?_⟩
  rcases List.mem_append.mp hx with hx | hx
  · exact .inl hx
  · rw [List.mem_singleton.mp hx]
    exact .inr h

theorem continues_decline {rules : List Rule} {rule : Rule} (h : rule ∈ rules)
    (d : Derivation) : (d.decline rule).Continues rules d := by
  refine ⟨rfl, fun x hx => ?_⟩
  rcases List.mem_append.mp hx with hx | hx
  · exact .inl hx
  · rw [List.mem_singleton.mp hx]
    exact .inr h

theorem continues_consult {rules : List Rule} {rule : Rule} (h : rule ∈ rules)
    (d : Derivation) : (d.consult rule).2.Continues rules d := by
  unfold consult
  split
  · exact continues_accept h d
  · exact continues_of_background rules rfl

theorem consult_cases (rule : Rule) (d : Derivation) :
    d.choices.permits rule = true ∧ d.consult rule = (true, d.accept rule) ∨
      d.choices.permits rule = false ∧ d.consult rule = (false, d) := by
  unfold consult
  cases d.choices.permits rule
  · exact .inr ⟨rfl, rfl⟩
  · exact .inl ⟨rfl, rfl⟩

theorem optionally_cases (rule : Rule) (f : Derivation → Derivation) (d : Derivation) :
    d.choices.permits rule = true ∧
        d.optionally rule f = (true, (f (d.accept rule)).record rule) ∨
      d.choices.permits rule = false ∧ d.optionally rule f = (false, d.decline rule) := by
  unfold optionally
  rcases consult_cases rule d with ⟨hpermits, heq⟩ | ⟨hpermits, heq⟩
  · rw [heq]
    exact .inl ⟨hpermits, rfl⟩
  · rw [heq]
    exact .inr ⟨hpermits, rfl⟩

theorem continues_optionally {rules : List Rule} {rule : Rule} (h : rule ∈ rules)
    {f : Derivation → Derivation} (hf : ∀ d, (f d).background = d.background) (d : Derivation) :
    (d.optionally rule f).2.Continues rules d := by
  have hconsult := continues_consult h d
  unfold optionally
  split
  · rename_i e heq
    rw [heq] at hconsult
    refine (continues_of_background rules ?_).trans hconsult
    rw [background_record, hf]
  · rename_i e heq
    rw [heq] at hconsult
    exact (continues_decline h e).trans hconsult

end Derivation

namespace Site

@[simp] theorem background_replace (s : Site) (sub : Text) :
    (s.replace sub).background = s.derivation.background :=
  Derivation.background_splice _ _ _

@[simp] theorem background_replaceNext (s : Site) (sub : Text) :
    (s.replaceNext sub).background = s.derivation.background :=
  Derivation.background_splice _ _ _

@[simp] theorem background_merge (s : Site) (sub : Text) :
    (s.merge sub).background = s.derivation.background := by
  rw [merge, Derivation.background_splice, background_replaceNext]

end Site

namespace SoundRule

-- Whatever the rule does, it leaves the background alone.
def KeepsBackground (r : SoundRule) : Prop :=
  ∀ s, (r.act s).1.background = s.derivation.background

theorem Rests.background {r : SoundRule} (h : r.KeepsBackground) {d e : Derivation}
    (hrests : r.Rests d e) : e.background = d.background :=
  hrests.relates (R := fun d e => e.background = d.background) (fun _ => rfl)
    (fun _ _ _ hde hef => hef.trans hde) h

end SoundRule

namespace Outcome

-- When the rule ends well `P` holds of the derivation it leaves, and otherwise its fault is
-- one of `F`.
def Ends (o : Outcome) (P : Derivation → Prop) (F : Fault → Prop) : Prop :=
  match o with
  | .done d => P d
  | .failed fault _ => F fault

@[simp] theorem ends_done (d : Derivation) (P : Derivation → Prop) (F : Fault → Prop) :
    (done d).Ends P F ↔ P d := Iff.rfl

@[simp] theorem ends_failed (fault : Fault) (d : Derivation) (P : Derivation → Prop)
    (F : Fault → Prop) : (failed fault d).Ends P F ↔ F fault := Iff.rfl

variable {o : Outcome} {P Q : Derivation → Prop} {F G : Fault → Prop}

theorem Ends.imp (h : o.Ends P F) (hP : ∀ d, P d → Q d) (hF : ∀ fault, F fault → G fault) :
    o.Ends Q G := by
  cases o with
  | done d => exact hP d h
  | failed fault d => exact hF fault h

theorem Ends.andThen (h : o.Ends P F) (next : Derivation → Outcome)
    (hnext : ∀ d, P d → (next d).Ends Q F) : (o.andThen next).Ends Q F := by
  cases o with
  | done d => exact hnext d h
  | failed fault d => exact h

theorem Ends.map (h : o.Ends P F) (f : Derivation → Derivation) (hf : ∀ d, P d → Q (f d)) :
    (o.map f).Ends Q F :=
  h.andThen _ fun d hd => (ends_done (f d) Q F).mpr (hf d hd)

theorem Ends.and (h : o.Ends P F) (h' : o.Ends Q G) : o.Ends (fun d => P d ∧ Q d) F := by
  cases o with
  | done d => exact ⟨h, h'⟩
  | failed fault d => exact h

theorem Ends.exists_done (h : o.Ends P fun _ => False) : ∃ d, o = .done d ∧ P d := by
  cases o with
  | done d => exact ⟨d, rfl, h⟩
  | failed fault d => exact False.elim h

theorem ends_trivial (o : Outcome) : o.Ends (fun _ => True) fun _ => True := by
  cases o <;> trivial

-- `P` holds of the derivation that the rule leaves, whole or cut short.
def Leaves (o : Outcome) (P : Derivation → Prop) : Prop :=
  match o with
  | .done d => P d
  | .failed _ d => P d

theorem Leaves.imp (h : o.Leaves P) (hP : ∀ d, P d → Q d) : o.Leaves Q := by
  cases o with
  | done d => exact hP d h
  | failed fault d => exact hP d h

theorem Leaves.ends (h : o.Leaves P) : o.Ends P fun _ => True := by
  cases o with
  | done d => exact h
  | failed fault d => trivial

-- Where the rule is cut short, `P` is as good as `Q`.
theorem Leaves.andThen_imp (h : o.Leaves P) (next : Derivation → Outcome)
    (hnext : ∀ d, P d → (next d).Leaves Q) (himp : ∀ d, P d → Q d) :
    (o.andThen next).Leaves Q := by
  cases o with
  | done d => exact hnext d h
  | failed fault d => exact himp d h

theorem Leaves.andThen (h : o.Leaves P) (next : Derivation → Outcome)
    (hnext : ∀ d, P d → (next d).Leaves P) : (o.andThen next).Leaves P :=
  h.andThen_imp next hnext fun _ hd => hd

theorem Leaves.map (h : o.Leaves P) (f : Derivation → Derivation) (hf : ∀ d, P d → P (f d)) :
    (o.map f).Leaves P :=
  h.andThen _ hf

-- The rule ends well, and leaves the background of `d` alone.
def KeepsBackground (o : Outcome) (d : Derivation) : Prop :=
  o.Ends (fun e => e.background = d.background) fun _ => False

variable {d : Derivation}

theorem KeepsBackground.trans (h : o.KeepsBackground d) {e : Derivation}
    (he : d.background = e.background) : o.KeepsBackground e :=
  h.imp (fun _ hf => hf.trans he) fun _ h => h

theorem KeepsBackground.map (h : o.KeepsBackground d) (f : Derivation → Derivation)
    (hf : ∀ e, (f e).background = e.background) : (o.map f).KeepsBackground d :=
  Ends.map h f fun e he => (hf e).trans he

theorem KeepsBackground.andThen (h : o.KeepsBackground d) (next : Derivation → Outcome)
    (hnext : ∀ e, (next e).KeepsBackground e) : (o.andThen next).KeepsBackground d :=
  Ends.andThen h next fun e he => (hnext e).trans he

-- The rule ends well, with what has become of `d` by choices at some of `rules`.
def Continues (rules : List Rule) (o : Outcome) (d : Derivation) : Prop :=
  o.Ends (fun e => e.Continues rules d) fun _ => False

variable {rules : List Rule}

theorem KeepsBackground.continues (h : o.KeepsBackground d) : o.Continues rules d :=
  h.imp (fun _ he => Derivation.continues_of_background rules he) fun _ h => h

theorem Continues.trans (h : o.Continues rules d) {e : Derivation}
    (he : d.Continues rules e) : o.Continues rules e :=
  h.imp (fun _ hf => hf.trans he) fun _ h => h

theorem Continues.map (h : o.Continues rules d) (f : Derivation → Derivation)
    (hf : ∀ e, (f e).Continues rules e) : (o.map f).Continues rules d :=
  Ends.map h f fun e he => (hf e).trans he

theorem Continues.andThen (h : o.Continues rules d) (next : Derivation → Outcome)
    (hnext : ∀ e, e.table = d.table → (next e).Continues rules e) :
    (o.andThen next).Continues rules d :=
  Ends.andThen h next fun e he => (hnext e he.table).trans he

end Outcome

end Vyakarana
