import Vyakarana.Proofs.Derivation.Alteration

/-!
The outline of a row.

Most rules change what is heard of a term, and the marks that tell other rules what to do with it,
but not what the term is. Its kind is the term without its text and its marks, and the outline of a
row are the kinds of its terms. `Reshapes` states of two rows that they have one outline, and which
terms may have another text.
-/

namespace Vyakarana

namespace Tag

-- The tags that markers and accents leave, and the exemption from guna.
def isMark : Tag → Bool
  | .it _ | .anudatta | .svarita | .anudattet | .svaritet | .gunaExempt => true
  | _ => false

end Tag

namespace Term

-- The term but for its text and its marks.
def kind (t : Term) : Term := { t with text := [], tags := t.tags.filter (!·.isMark) }

@[simp] theorem kind_setText (s : Text) (t : Term) : (t.setText s).kind = t.kind := rfl

@[simp] theorem kind_setAdi (s : Text) (t : Term) : (t.setAdi s).kind = t.kind := rfl

@[simp] theorem kind_replaceText (needle sub : Text) (t : Term) :
    (t.replaceText needle sub).kind = t.kind := rfl

@[simp] theorem kind_elide (t : Term) : t.elide.kind = t.kind := rfl

@[simp] theorem kind_substituteAdi (s : Text) (t : Term) : (t.substituteAdi s).kind = t.kind := by
  unfold substituteAdi
  split <;> rfl

@[simp] theorem kind_setAntya (s : Text) (t : Term) : (t.setAntya s).kind = t.kind := by
  unfold setAntya
  split <;> rfl

@[simp] theorem kind_setUpadha (s : Text) (t : Term) : (t.setUpadha s).kind = t.kind := by
  unfold setUpadha
  split <;> rfl

@[simp] theorem kind_insertAfterVowel (s : Text) (t : Term) :
    (t.insertAfterVowel s).kind = t.kind := by
  unfold insertAfterVowel
  split <;> rfl

theorem kind_addTag_of_isMark {tag : Tag} (h : tag.isMark = true) (t : Term) :
    (t.addTag tag).kind = t.kind := by
  unfold kind addTag Tag.insert
  split
  · rfl
  · simp [List.filter_append, h]

theorem kind_removeTag_of_isMark {tag : Tag} (h : tag.isMark = true) (t : Term) :
    (t.removeTag tag).kind = t.kind := by
  have hfilter : (t.tags.filter (· != tag)).filter (!·.isMark) = t.tags.filter (!·.isMark) := by
    rw [List.filter_filter]
    refine List.filter_congr fun x _ => ?_
    by_cases hx : x = tag
    · simp [hx, h]
    · simp [hx]
  simp only [kind, removeTag, Tag.erase, hfilter]

-- The other tags can be told from the kind.
theorem hasTag_kind {x : Tag} (hx : x.isMark = false) (t : Term) : t.kind.hasTag x = t.hasTag x := by
  rw [Bool.eq_iff_iff]
  simp [kind, hasTag, hx]

theorem hasTag_eq_of_kind {t t' : Term} (h : t'.kind = t.kind) {x : Tag} (hx : x.isMark = false) :
    t'.hasTag x = t.hasTag x := by
  rw [← hasTag_kind hx, h, hasTag_kind hx]

theorem upadesha_eq_of_kind {t t' : Term} (h : t'.kind = t.kind) : t'.upadesha = t.upadesha :=
  calc t'.upadesha = t'.kind.upadesha := rfl
    _ = t.kind.upadesha := by rw [h]

theorem lakshanas_eq_of_kind {t t' : Term} (h : t'.kind = t.kind) : t'.lakshanas = t.lakshanas :=
  calc t'.lakshanas = t'.kind.lakshanas := rfl
    _ = t.kind.lakshanas := by rw [h]

end Term

-- Term by term the rows are of one kind, and only the terms with one of `tags` have another text.
def Reshapes (tags : List Tag) (row row' : List Term) : Prop :=
  List.Forall₂ (fun t t' => t'.kind = t.kind ∧ (t.kind.hasTagIn tags = false → t'.text = t.text))
    row row'

section

variable {tags more : List Tag} {row row' row'' before after : List Term}

theorem reshapes_self (tags : List Tag) (row : List Term) : Reshapes tags row row :=
  List.forall₂_same.mpr fun _ _ => ⟨rfl, fun _ => rfl⟩

theorem Reshapes.trans (h : Reshapes tags row row') (h' : Reshapes tags row' row'') :
    Reshapes tags row row'' := by
  induction h generalizing row'' with
  | nil => exact h'
  | @cons t t' rest rest' ht _ ih =>
      cases h' with
      | @cons _ t'' _ rest'' ht' hrest =>
          refine .cons ⟨ht'.1.trans ht.1, fun hno => ?_⟩ (ih hrest)
          exact (ht'.2 (ht.1 ▸ hno)).trans (ht.2 hno)

theorem Reshapes.mono (h : Reshapes tags row row') (hsub : ∀ x ∈ tags, x ∈ more) :
    Reshapes more row row' := by
  refine List.Forall₂.imp (fun t t' ht => ⟨ht.1, fun hno => ht.2 ?_⟩) h
  refine List.any_eq_false.mpr fun x hx => ?_
  exact List.any_eq_false.mp hno x (hsub x hx)

theorem Reshapes.outline (h : Reshapes tags row row') : row'.map Term.kind = row.map Term.kind := by
  induction h with
  | nil => rfl
  | cons ht _ ih => rw [List.map_cons, List.map_cons, ht.1, ih]

theorem Reshapes.append (h : Reshapes tags (before ++ after) row) :
    ∃ before' after', row = before' ++ after' ∧ Reshapes tags before before' ∧
      Reshapes tags after after' := by
  induction before generalizing row with
  | nil => exact ⟨[], row, rfl, .nil, h⟩
  | cons t rest ih =>
      cases h with
      | @cons _ t' _ row ht hrest =>
          obtain ⟨before', after', rfl, hbefore, hafter⟩ := ih hrest
          exact ⟨t' :: before', after', rfl, .cons ht hbefore, hafter⟩

-- Where no term has one of the tags, the texts stay.
theorem Reshapes.of_untagged (h : Reshapes tags row row')
    (hno : ∀ t ∈ row, t.kind.hasTagIn tags = false) : Reshapes [] row row' := by
  induction h with
  | nil => exact .nil
  | cons ht _ ih =>
      rw [List.forall_mem_cons] at hno
      exact .cons ⟨ht.1, fun _ => ht.2 hno.1⟩ (ih hno.2)

theorem Reshapes.texts (h : Reshapes [] row row') : row'.map (·.text) = row.map (·.text) := by
  induction h with
  | nil => rfl
  | cons ht _ ih => rw [List.map_cons, List.map_cons, ht.2 rfl, ih]

-- One term of a row is exchanged for one of its kind.
theorem reshapes_cut {t t' : Term} (hkind : t'.kind = t.kind)
    (htext : t.kind.hasTagIn tags = true ∨ t'.text = t.text) (before after : List Term) :
    Reshapes tags (before ++ t :: after) (before ++ t' :: after) := by
  refine List.rel_append (reshapes_self tags before) (.cons ⟨hkind, fun hno => ?_⟩
    (reshapes_self tags after))
  rcases htext with hyes | htext
  · rw [hno] at hyes
    cases hyes
  · exact htext

end

namespace Derivation

variable {c d e : Derivation} {tags : List Tag} {i : Nat} {f : Term → Term}

def outline (d : Derivation) : List Term := d.terms.map Term.kind

-- `e` is `d` with another text at the terms with one of `tags`, and other marks anywhere.
structure Recasts (tags : List Tag) (d e : Derivation) : Prop where
  row : Reshapes tags d.terms e.terms
  rest : e.rest = d.rest

theorem recasts_self (tags : List Tag) (d : Derivation) : Recasts tags d d :=
  ⟨reshapes_self tags d.terms, rfl⟩

theorem Recasts.trans (h : Recasts tags c d) (h' : Recasts tags d e) : Recasts tags c e :=
  ⟨h.row.trans h'.row, h'.rest.trans h.rest⟩

theorem Recasts.record (h : Recasts tags d e) (rule : Rule) : Recasts tags d (e.record rule) :=
  ⟨(terms_record rule e).symm ▸ h.row, (rest_record rule e).trans h.rest⟩

theorem recasts_forEach {visit : Derivation → Nat → Derivation}
    (h : ∀ e i, Recasts tags e (visit e i)) (d : Derivation) : Recasts tags d (d.forEach visit) :=
  forEach_keeps (P := Recasts tags d) (fun e i he => he.trans (h e i)) (recasts_self tags d)

theorem ActsAt.recasts (h : ActsAt i f d e)
    (hf : ∀ t, d.terms[i]? = some t →
      (f t).kind = t.kind ∧ (t.kind.hasTagIn tags = true ∨ (f t).text = t.text)) :
    Recasts tags d e := by
  refine ⟨?_, h.rest⟩
  rcases ht : d.terms[i]? with _ | t
  · rw [h.terms, List.modify_eq_self (List.getElem?_eq_none_iff.mp ht)]
    exact reshapes_self tags d.terms
  · obtain ⟨before, after, hterms, hi⟩ := cut_term ht
    obtain ⟨hkind, htext⟩ := hf t ht
    rw [h.terms_of_cut hterms hi, hterms]
    exact reshapes_cut hkind htext before after

-- `e` is `d` with the term at `i` exchanged for one of its kind.
def RecastsAt (i : Nat) (d e : Derivation) : Prop :=
  ∃ f : Term → Term, (∀ t, (f t).kind = t.kind) ∧ ActsAt i f d e

theorem recastsAt_self (i : Nat) (d : Derivation) : RecastsAt i d d :=
  ⟨id, fun _ => rfl, actsAt_id i d⟩

theorem recastsAt_alter (hf : ∀ t, (f t).kind = t.kind) (rule : Rule) (i : Nat) (d : Derivation) :
    RecastsAt i d (d.alter rule i f) :=
  ⟨f, hf, actsAt_alter rule i f d⟩

theorem RecastsAt.trans (h : RecastsAt i c d) (h' : RecastsAt i d e) : RecastsAt i c e := by
  obtain ⟨f, hf, hacts⟩ := h
  obtain ⟨g, hg, hacts'⟩ := h'
  exact ⟨g ∘ f, fun t => (hg (f t)).trans (hf t), hacts.trans hacts'⟩

theorem RecastsAt.recasts (h : RecastsAt i d e)
    (htag : ∀ t, d.terms[i]? = some t → t.kind.hasTagIn tags = true) : Recasts tags d e := by
  obtain ⟨f, hf, hacts⟩ := h
  exact hacts.recasts fun t ht => ⟨hf t, .inl (htag t ht)⟩

-- Alterations that leave each term of its kind.
theorem Alters.recastsAt {changes : Rule → (Term → Term) → Prop}
    (h : Alters (OnlyAt changes i) d e)
    (hkind : ∀ rule change, changes rule change → ∀ t, (change t).kind = t.kind) :
    RecastsAt i d e := by
  refine h.relates (R := RecastsAt i) (recastsAt_self i) (fun _ _ _ hcd hde => hcd.trans hde) ?_
  rintro e _ t rule change - ⟨rfl, hchange⟩
  exact recastsAt_alter (hkind rule change hchange) rule _ e

theorem Alters.recasts {may : Nat → Term → Rule → (Term → Term) → Prop} (h : Alters may d e)
    (hmay : ∀ i t rule change, may i t rule change →
      (∀ t, (change t).kind = t.kind) ∧ t.kind.hasTagIn tags = true) : Recasts tags d e := by
  refine h.relates (R := Recasts tags) (recasts_self tags) (fun _ _ _ hcd hde => hcd.trans hde) ?_
  intro e i t rule change ht hchange
  obtain ⟨hkind, htag⟩ := hmay i t rule change hchange
  refine (recastsAt_alter hkind rule i e).recasts fun t' ht' => ?_
  cases ht.symm.trans ht'
  exact htag

theorem Alters.recasts_of_tags {changes : Tag → Rule → (Term → Term) → Prop}
    (h : Alters (OnTagged changes tags) d e) (hmark : ∀ tag ∈ tags, tag.isMark = false)
    (hkind : ∀ tag rule change, changes tag rule change → ∀ t, (change t).kind = t.kind) :
    Recasts tags d e := by
  refine h.recasts fun i t rule change ⟨tag, hmem, htag, hchange⟩ => ⟨hkind _ _ _ hchange, ?_⟩
  exact List.any_eq_true.mpr ⟨tag, hmem, (Term.hasTag_kind (hmark tag hmem) t).trans htag⟩

theorem RecastsAt.outline (h : RecastsAt i d e) : e.outline = d.outline := by
  obtain ⟨f, hf, hacts⟩ := h
  rw [Derivation.outline, Derivation.outline, hacts.terms, map_modify hf]

end Derivation

end Vyakarana
