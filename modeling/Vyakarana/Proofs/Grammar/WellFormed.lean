import Vyakarana.Proofs.Grammar.Joining
import Vyakarana.Proofs.Grammar.Shaping

/-!
Every verb form is well formed.

Where sounds meet, what is heard of the terms changes, and nothing else does: the rules of the last
chapters keep the outline of the row. So a form is still made of its front and its suffixes when it
is done.
-/

namespace Vyakarana

namespace Outcome

-- If the rule ends well, the terms are what they were.
def KeepsOutline (o : Outcome) (d : Derivation) : Prop :=
  o.Ends (fun e => e.outline = d.outline) fun _ => True

variable {o : Outcome} {d e : Derivation}

theorem KeepsOutline.andThen (h : o.KeepsOutline d) (next : Derivation → Outcome)
    (hnext : ∀ e, (next e).KeepsOutline e) : (o.andThen next).KeepsOutline d :=
  Ends.andThen h next fun e he => (hnext e).imp (fun _ hf => hf.trans he) fun _ h => h

end Outcome

namespace Derivation

theorem keepsOutline_joinVowels (d : Derivation) : d.joinVowels.KeepsOutline d :=
  unheard_outline.joinVowels d

theorem keepsOutline_joinConsonants (d : Derivation) : d.joinConsonants.KeepsOutline d :=
  unheard_outline.joinConsonants d

end Derivation

-- A form has one ending, the last of its terms, and each of its suffixes belongs to one class. In the
-- perfect one copy stands right before the last root, and otherwise there is none.
structure WellFormed (form : VerbForm) (d : Derivation) : Prop where
  ending : ∃ before e, d.terms = before ++ [e] ∧ e.IsEnding form ∧
    ∀ t ∈ before, t.hasTag .tin = false
  classed : ∀ t ∈ d.terms, t.IsClassed
  copied : form.lakara = .lit → ∃ before copy root after,
    d.terms = before ++ copy :: root :: after ∧ copy.hasTag .abhyasa = true ∧
      root.hasTag .dhatu = true ∧ (∀ t ∈ before ++ root :: after, t.hasTag .abhyasa = false) ∧
      ∀ t ∈ after, t.hasTag .dhatu = false
  uncopied : form.lakara ≠ .lit → ∀ t ∈ d.terms, t.hasTag .abhyasa = false

theorem MadeOf.wellFormed {form : VerbForm} {suffixes : List Term} {d : Derivation}
    (h : MadeOf suffixes (form.lakara == .lit) d.terms) (hs : IsBack form suffixes) :
    WellFormed form d where
  ending := by
    obtain ⟨before, e, hrow, hending, -, hbefore⟩ := h.ending hs
    exact ⟨before, e, hrow, hending, hbefore⟩
  classed := h.classed hs
  copied hlit := by
    rw [hlit] at h
    obtain ⟨before, copy, root, after, hrow, hcopy, hroot⟩ := h.copied hs
    exact ⟨before, copy, root, after, hrow, hcopy.abhyasa, hroot⟩
  uncopied hlit := by
    rw [beq_eq_false_iff_ne.mpr hlit] at h
    exact h.uncopied hs

namespace Derivation

theorem conjugate_wellFormed {root : Root} {form : VerbForm} {d : Derivation}
    (hform : form.lakara ∈ supportedLakaras) (hterms : d.terms = []) (htags : d.tags = []) :
    (d.conjugate root form).Ends (WellFormed form) fun _ => True := by
  have hshaped : ((d.suffixed root form).andThen shaped).Ends
      (fun e => ∃ suffixes, IsBack form suffixes ∧
        MadeOf suffixes (form.lakara == .lit) e.terms) fun _ => True :=
    (suffixed_shows hform hterms htags).andThen shaped fun e he =>
      (shaped_makes hform he.1).imp
        (fun f hf => ⟨_, isBack_preparedSuffixes hform _ _, hf.1⟩) fun _ h => h
  -- What the rules do from here on leaves the outline of the row.
  have hkeep {e f : Derivation} (houtline : f.outline = e.outline)
      (he : ∃ suffixes, IsBack form suffixes ∧ MadeOf suffixes (form.lakara == .lit) e.terms) :
      ∃ suffixes, IsBack form suffixes ∧ MadeOf suffixes (form.lakara == .lit) f.terms := by
    obtain ⟨suffixes, hs, hmade⟩ := he
    obtain ⟨suffixes', hkinds, hmade'⟩ := hmade.of_outline houtline
    exact ⟨suffixes', hs.of_kinds hkinds, hmade'⟩
  have hvowels := (hshaped.map fitSuffixes fun e he =>
    hkeep (recasts_fitSuffixes e).row.outline he).andThen joinVowels fun e he =>
      (keepsOutline_joinVowels e).imp (fun f hf => hkeep hf he) fun _ h => h
  have hconsonants := hvowels.andThen joinConsonants fun e he =>
    (keepsOutline_joinConsonants e).imp (fun f hf => hkeep hf he) fun _ h => h
  rw [conjugate_eq_shaped]
  refine hconsonants.imp (fun e he => ?_) fun _ h => h
  obtain ⟨suffixes, hs, hmade⟩ := he
  exact hmade.wellFormed hs

end Derivation

theorem mem_supportedLakaras_of_verbForms {root : Root} {form : VerbForm} {recording : Bool}
    {table : FeatureTable} {forms : List Derivation}
    (h : verbForms root form recording table = .ok forms) : form.lakara ∈ supportedLakaras := by
  unfold verbForms unsupported? at h
  by_contra hno
  have hcontains : supportedLakaras.contains form.lakara = false := by simpa using hno
  rw [hcontains] at h
  split at h
  · cases h
  · rename_i hsome
    split at hsome
    · cases hsome
    · cases hsome

-- All forms of a root are well formed.
theorem verbForms_wellFormed {root : Root} {form : VerbForm} {recording : Bool}
    {table : FeatureTable} {forms : List Derivation}
    (h : verbForms root form recording table = .ok forms) : ∀ d ∈ forms, WellFormed form d := by
  intro d hd
  obtain ⟨choices, hrun⟩ := run_of_mem_verbForms h hd
  exact of_run_done hrun
    (Derivation.conjugate_wellFormed (mem_supportedLakaras_of_verbForms h) rfl rfl)

-- The perfect of BU, in which a copy and an augment stand beside the root.
theorem perfect_of_bhu_wellFormed :
    ∃ forms, verbForms ⟨"BU".toList, 1, none, some 1⟩ ⟨.lit, .prathama, .eka, .kartari⟩ true
        .standard = .ok forms ∧
      forms ≠ [] ∧ ∀ d ∈ forms, WellFormed ⟨.lit, .prathama, .eka, .kartari⟩ d := by
  rcases @verbForms_cases ⟨"BU".toList, 1, none, some 1⟩ ⟨.lit, .prathama, .eka, .kartari⟩
    (by decide) (by decide) true with
    ⟨-, forms, hok, hne⟩ | ⟨c, hc, hinfix, -⟩
  · exact ⟨forms, hok, hne, verbForms_wellFormed hok⟩
  · have hclear : ∀ c ∈ markless, ¬[c, '~'] <:+: Text.beforeIr "BU".toList := by decide
    exact absurd hinfix (hclear c hc)

end Vyakarana
