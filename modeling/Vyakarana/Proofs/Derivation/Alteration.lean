import Vyakarana.Proofs.Derivation.Row

/-!
Rules that alter single terms.

Many rules look for a term, alter it and record that they did, or do nothing at all. A relation tells
which rule may make which change of which term, and `Alters` says of a derivation that it has come of
another by such alterations alone. What each alteration keeps, a rule that is made of them keeps too,
so that it need not be opened again for the next thing that it keeps.
-/

namespace Vyakarana

namespace Derivation

-- What has become of `d` by alterations that `may` has for the term at an index.
inductive Alters (may : Nat → Term → Rule → (Term → Term) → Prop) (d : Derivation) :
    Derivation → Prop
  | self : Alters may d d
  | alter {e : Derivation} {i : Nat} {t : Term} {rule : Rule} {change : Term → Term}
      (h : Alters may d e) (ht : e.terms[i]? = some t) (hmay : may i t rule change) :
      Alters may d (e.alter rule i change)

-- The changes of `changes`, made of the term at `i`.
def OnlyAt (changes : Rule → (Term → Term) → Prop) (i j : Nat) (_ : Term) (rule : Rule)
    (change : Term → Term) : Prop :=
  j = i ∧ changes rule change

-- The changes that `changes` has for a tag, made of the terms with this tag.
def OnTagged (changes : Tag → Rule → (Term → Term) → Prop) (tags : List Tag) (_ : Nat) (t : Term)
    (rule : Rule) (change : Term → Term) : Prop :=
  ∃ tag ∈ tags, t.hasTag tag = true ∧ changes tag rule change

variable {may : Nat → Term → Rule → (Term → Term) → Prop} {c d e : Derivation} {i : Nat} {t : Term}
  {rule : Rule} {change : Term → Term}

theorem alters_alter (hmay : ∀ t, d.terms[i]? = some t → may i t rule change) :
    Alters may d (d.alter rule i change) := by
  rcases ht : d.terms[i]? with _ | t
  · rw [alter, if_neg (by rw [show d.term? (i : Int) = none from ht]; exact Bool.false_ne_true)]
    exact .self
  · exact .alter .self ht (hmay t ht)

theorem alters_at {changes : Rule → (Term → Term) → Prop} (h : changes rule change) (i : Nat)
    (d : Derivation) : Alters (OnlyAt changes i) d (d.alter rule i change) :=
  alters_alter fun _ _ => ⟨rfl, h⟩

section Tagged

variable {changes : Tag → Rule → (Term → Term) → Prop} {tag : Tag} {tags : List Tag}

theorem alters_of_term (ht : d.terms[i]? = some t) (htag : t.hasTag tag = true) (hmem : tag ∈ tags)
    (h : changes tag rule change) : Alters (OnTagged changes tags) d (d.alter rule i change) :=
  .alter .self ht ⟨tag, hmem, htag, h⟩

theorem alters_of_lastTagged? (hlast : d.lastTagged? tag = some i) (hmem : tag ∈ tags)
    (h : changes tag rule change) : Alters (OnTagged changes tags) d (d.alter rule i change) := by
  obtain ⟨t, ht, htag⟩ := exists_of_lastIndex? hlast
  exact alters_of_term ht htag hmem h

end Tagged

namespace Alters

-- What holds between a derivation and itself, and before and after each alteration.
theorem relates {R : Derivation → Derivation → Prop} (h : Alters may d e) (hself : ∀ d, R d d)
    (htrans : ∀ c d e, R c d → R d e → R c e)
    (hstep : ∀ (e : Derivation) i t rule change, e.terms[i]? = some t → may i t rule change →
      R e (e.alter rule i change)) : R d e := by
  induction h with
  | self => exact hself d
  | alter _ ht hmay ih => exact htrans _ _ _ ih (hstep _ _ _ _ _ ht hmay)

theorem trans (h : Alters may c d) (h' : Alters may d e) : Alters may c e := by
  induction h' with
  | self => exact h
  | alter _ ht hmay ih => exact ih.alter ht hmay

theorem mono {may' : Nat → Term → Rule → (Term → Term) → Prop} (h : Alters may d e)
    (hsub : ∀ i t rule change, may i t rule change → may' i t rule change) : Alters may' d e := by
  induction h with
  | self => exact .self
  | alter _ ht hmay ih => exact ih.alter ht (hsub _ _ _ _ hmay)

-- More tags may be among those of the terms.
theorem of_tags {changes : Tag → Rule → (Term → Term) → Prop} {tags more : List Tag}
    (h : Alters (OnTagged changes tags) d e) (hsub : ∀ tag ∈ tags, tag ∈ more) :
    Alters (OnTagged changes more) d e :=
  h.mono fun _ _ _ _ ⟨tag, hmem, htag⟩ => ⟨tag, hsub tag hmem, htag⟩

theorem rest (h : Alters may d e) : e.rest = d.rest :=
  h.relates (R := fun d e => e.rest = d.rest) (fun _ => rfl) (fun _ _ _ hcd hde => hde.trans hcd)
    fun e i _ rule change _ _ => rest_alter rule i change e

theorem background (h : Alters may d e) : e.background = d.background :=
  background_eq_of_rest h.rest

end Alters

theorem alters_forEach {visit : Derivation → Nat → Derivation}
    (h : ∀ e i, Alters may e (visit e i)) (d : Derivation) : Alters may d (d.forEach visit) :=
  forEach_keeps (P := Alters may d) (fun e i he => he.trans (h e i)) .self

end Derivation

end Vyakarana
