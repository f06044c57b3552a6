import Vyakarana.Proofs.Derivation.Outline
import Vyakarana.Proofs.Grammar.Markers

/-!
What is left of a term that has lost its markers.

A stripping only takes sounds out of the text, and adds no tags but those of markers and accents, so
that the kind of the term stays as it was, and so does its exemption from guna.
-/

namespace Vyakarana

-- The marks that markers and accents leave.
def Tag.isSpelled (tag : Tag) : Bool := tag.isMark && tag != .gunaExempt

namespace Term

-- What becomes of a term that loses sounds and gains marks.
structure ShedsTo (t t' : Term) : Prop where
  text : t'.text.Sublist t.text
  kind : t'.kind = t.kind
  exempt : t'.hasTag .gunaExempt = t.hasTag .gunaExempt

theorem ShedsTo.rfl {t : Term} : t.ShedsTo t := ⟨List.Sublist.refl _, Eq.refl _, Eq.refl _⟩

theorem ShedsTo.trans {s t u : Term} (hst : s.ShedsTo t) (htu : t.ShedsTo u) : s.ShedsTo u :=
  ⟨htu.text.trans hst.text, htu.kind.trans hst.kind, htu.exempt.trans hst.exempt⟩

theorem shedsTo_addTag {tag : Tag} (h : tag.isSpelled = true) (t : Term) :
    t.ShedsTo (t.addTag tag) := by
  rw [Tag.isSpelled, Bool.and_eq_true, bne_iff_ne] at h
  exact ⟨List.Sublist.refl _, kind_addTag_of_isMark h.1 t, hasTag_addTag_of_ne (Ne.symm h.2) t⟩

theorem shedsTo_addTags {tags : List Tag} (h : ∀ tag ∈ tags, tag.isSpelled = true) (t : Term) :
    t.ShedsTo (t.addTags tags) := by
  induction tags generalizing t with
  | nil => exact .rfl
  | cons tag rest ih =>
      rw [List.forall_mem_cons] at h
      exact (shedsTo_addTag h.1 t).trans (ih h.2 (t.addTag tag))

theorem shedsTo_setText {s : Text} {t : Term} (h : s.Sublist t.text) : t.ShedsTo (t.setText s) :=
  ⟨h, Eq.refl _, Eq.refl _⟩

end Term

namespace Stripping

theorem shedsTo_dropIr (t : Term) : t.ShedsTo (dropIr t) := by
  unfold dropIr
  split
  · exact (Term.shedsTo_setText (List.take_sublist _ _)).trans (Term.shedsTo_addTag (by decide) _)
  · split
    · exact (Term.shedsTo_setText (List.take_sublist _ _)).trans
        (Term.shedsTo_addTags (by decide) _)
    · exact .rfl

theorem isSpelled_of_ofMarker {sound : Text} {tag : Tag} (h : Tag.ofMarker sound = .ok tag) :
    tag.isSpelled = true := by
  unfold Tag.ofMarker at h
  split at h
  · split at h
    · cases h
      rfl
    · cases h
  · cases h

theorem isSpelled_of_nasalTags {v : Char} {accent : Option Char} {tags : List Tag}
    (h : nasalTags v accent = .ok tags) : ∀ tag ∈ tags, tag.isSpelled = true := by
  obtain ⟨marker, hok, rfl⟩ := exists_of_map_ok h
  have hmarker := isSpelled_of_ofMarker hok
  have hlow : Tag.anudattet.isSpelled = true := rfl
  have hfalling : Tag.svaritet.isSpelled = true := rfl
  split <;> simp [hmarker, hlow, hfalling]

theorem isSpelled_of_allNasalTags {t : Text} {tags : List Tag} (h : allNasalTags t = .ok tags) :
    ∀ tag ∈ tags, tag.isSpelled = true := by
  obtain ⟨rows, hok, rfl⟩ := exists_of_map_ok h
  rcases mapM_cases (fun (v, accent) => nasalTags v accent) (nasalVowels t) with
    ⟨rows', hok', hall⟩ | ⟨_, -, _, -, herror⟩
  · cases hok.symm.trans hok'
    intro tag htag
    obtain ⟨row, hrow, htag⟩ := List.mem_flatten.mp htag
    obtain ⟨⟨v, accent⟩, -, hv⟩ := exists_of_mem_right hall row hrow
    exact isSpelled_of_nasalTags hv tag htag
  · cases hok.symm.trans herror

theorem withoutNasalsFrom_sublist (skip : Nat) (t : Text) : (withoutNasalsFrom skip t).Sublist t := by
  induction t generalizing skip with
  | nil => exact List.nil_sublist _
  | cons v rest ih =>
      cases skip with
      | zero =>
          rw [withoutNasalsFrom]
          split
          · exact (ih _).cons v
          · exact (ih 0).cons_cons v
      | succ skip => exact (ih skip).cons v

-- `t` has come to the term of the stripping by way of the terms of its steps.
structure Sheds (t : Term) (s : Stripping) : Prop where
  term : t.ShedsTo s.term
  steps : ∀ x ∈ s.steps, t.ShedsTo x.2 ∧ x.2.ShedsTo s.term

theorem sheds_dropIr (t : Term) : Sheds t ⟨dropIr t, [], none⟩ :=
  ⟨shedsTo_dropIr t, by simp⟩

section

variable {t : Term} {s : Stripping}

theorem Sheds.note (h : Sheds t s) (rule : Rule) : Sheds t (s.note rule) := by
  refine ⟨h.term, fun x hx => ?_⟩
  rcases List.mem_append.mp hx with hx | hx
  · exact h.steps x hx
  · rw [List.mem_singleton.mp hx]
    exact ⟨h.term, .rfl⟩

theorem Sheds.fail (h : Sheds t s) (fault : Fault) : Sheds t (s.fail fault) := ⟨h.term, h.steps⟩

theorem Sheds.change (h : Sheds t s) {f : Term → Term} (hf : s.term.ShedsTo (f s.term)) :
    Sheds t (s.change f) :=
  ⟨h.term.trans hf, fun x hx => ⟨(h.steps x hx).1, (h.steps x hx).2.trans hf⟩⟩

theorem Sheds.dropNasals (h : Sheds t s) {tags : List Tag} (htags : ∀ x ∈ tags, x.isSpelled = true) :
    Sheds t (s.dropNasals tags) := by
  unfold Stripping.dropNasals
  split
  · exact h
  · refine (h.change ?_).note _
    exact (Term.shedsTo_setText (withoutNasalsFrom_sublist 0 _)).trans
      (Term.shedsTo_addTags htags _)

theorem Sheds.readAccents (h : Sheds t s) : Sheds t s.readAccents := by
  refine h.change ?_
  have hfilter (t : Term) : t.ShedsTo (t.setText (t.text.filter fun c => !isAccent c)) :=
    Term.shedsTo_setText List.filter_sublist
  dsimp only
  split <;> split
  · exact ((Term.shedsTo_addTag (by decide) _).trans (Term.shedsTo_addTag (by decide) _)).trans
      (hfilter _)
  · exact (Term.shedsTo_addTag (by decide) _).trans (hfilter _)
  · exact (Term.shedsTo_addTag (by decide) _).trans (hfilter _)
  · exact hfilter _

theorem Sheds.dropFinal (h : Sheds t s) (u : Text) : Sheds t (s.dropFinal u) := by
  unfold Stripping.dropFinal
  split
  · exact h
  · split
    · exact h
    · split
      · exact h.note _
      · split
        · exact h
        · split
          · refine (h.change ?_).note _
            exact (Term.shedsTo_addTag rfl _).trans
              (Term.shedsTo_setText (List.dropLast_sublist _))
          · exact h

theorem Sheds.dropRootInitial (h : Sheds t s) : Sheds t s.dropRootInitial := by
  unfold Stripping.dropRootInitial
  split
  · split
    · refine (h.change ?_).note _
      exact (Term.shedsTo_setText (List.drop_sublist _ _)).trans (Term.shedsTo_addTag rfl _)
    · exact h
  · exact h

theorem Sheds.dropFirst (h : Sheds t s) (marker : Marker) (rule : Rule) :
    Sheds t (s.dropFirst marker rule) := by
  refine (h.change ?_).note rule
  exact (Term.shedsTo_addTag rfl _).trans (Term.shedsTo_setText (List.drop_sublist _ _))

theorem Sheds.dropSuffixInitial (h : Sheds t s) (u : Text) : Sheds t (s.dropSuffixInitial u) := by
  unfold Stripping.dropSuffixInitial
  split
  · exact h
  · split
    · exact h
    · split
      · exact h.dropFirst _ _
      · split
        · split
          · exact h
          · split
            · exact h.dropFirst _ _
            · exact h.fail _
        · split
          · split
            · exact h.dropFirst _ _
            · exact h
          · exact h

theorem Sheds.conclude (h : Sheds t s) (u : Text) : Sheds t (s.conclude u) := by
  unfold Stripping.conclude
  split
  · exact h.note _
  · exact h

end

-- A stripping is concluded, unless a nasal vowel marks nothing.
theorem run_eq (t : Term) (u : Text) :
    (run t u).fault ≠ none ∧ Sheds t (run t u) ∨ ∃ s, Sheds t s ∧ run t u = s.conclude u := by
  have hstart := sheds_dropIr t
  unfold run
  dsimp only
  split
  · exact .inl ⟨by simp [fail], hstart.fail _⟩
  · rename_i tags htags
    have hread := (hstart.dropNasals (isSpelled_of_allNasalTags htags)).readAccents
    refine .inr ⟨_, ?_, rfl⟩
    split
    · exact hread.dropRootInitial.dropSuffixInitial u
    · exact (hread.dropFinal u).dropRootInitial.dropSuffixInitial u

theorem run_sheds (t : Term) (u : Text) : Sheds t (run t u) := by
  rcases run_eq t u with ⟨-, hsheds⟩ | ⟨s, hsheds, heq⟩
  · exact hsheds
  · rw [heq]
    exact hsheds.conclude u

-- The last step of a stripping has its text. A term that is left as it was taught had nothing to
-- lose, so that its steps have the text as it was taught.
theorem run_tells {t : Term} {u : Text} (htext : t.text = u) (hok : (run t u).fault = none) :
    (run t u).steps = [] ∧ (run t u).term.text = t.text ∨
      ∃ steps x, (run t u).steps = steps ++ [x] ∧ x.2.text = (run t u).term.text := by
  rcases run_eq t u with ⟨hfault, -⟩ | ⟨s, hsheds, heq⟩
  · exact absurd hok hfault
  · rw [heq] at hok ⊢
    rw [fault_conclude] at hok
    unfold conclude
    split
    · exact .inr ⟨s.steps, ("1.3.9", s.term), rfl, rfl⟩
    · rename_i hsame
      have hkept : s.term.text = t.text := by simpa [hok, htext] using hsame
      rcases List.eq_nil_or_concat s.steps with hnil | ⟨steps, x, hconcat⟩
      · exact .inl ⟨hnil, hkept⟩
      · rw [List.concat_eq_append] at hconcat
        obtain ⟨hfrom, hto⟩ := hsheds.steps x (by simp [hconcat])
        refine .inr ⟨steps, x, hconcat, ?_⟩
        exact (hkept ▸ hfrom.text).antisymm hto.text

end Stripping

end Vyakarana
