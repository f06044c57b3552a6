import Vyakarana.Proofs.Derivation.Disguise
import Vyakarana.Proofs.Grammar.Joining
import Vyakarana.Proofs.Grammar.Shaping

/-!
The number of the root.

A root may have a number, its place in the list of roots. It is the only term of a verb form that
has one: the roots that are added to it, its copy, the suffixes and the augments have none. So the
number stands with the first of the roots, wherever the rules have put that in the row.
-/

namespace Vyakarana

-- What the last chapters do is not looked into here, and looking into it takes time.
attribute [local irreducible] Derivation.joinVowels Derivation.joinConsonants

namespace Term

-- What a term tells of the place of the root.
def rank (t : Term) : Bool × Option Int := (t.hasTag .dhatu, t.number)

-- Neither a root nor numbered.
def IsBlank (t : Term) : Prop := t.rank = (false, none)

instance (t : Term) : Decidable t.IsBlank := inferInstanceAs (Decidable (_ = _))

theorem rank_kind (t : Term) : t.kind.rank = t.rank := by
  rw [rank, hasTag_kind rfl]
  rfl

theorem rank_eq_of_kind {t t' : Term} (h : t'.kind = t.kind) : t'.rank = t.rank := by
  rw [← rank_kind, h, rank_kind]

end Term

theorem IsAugment.isBlank {t : Term} (h : IsAugment t) : t.IsBlank := by
  obtain ⟨u, hkind⟩ := h
  exact Term.rank_eq_of_kind hkind

-- The roots of a row, and whatever has a number.
def rootsOf (row : List Term) : List (Bool × Option Int) :=
  (row.map Term.rank).filter (· != (false, none))

-- The first root gets a number.
def numberRoot (number : Option Int) : List Term → List Term
  | [] => []
  | t :: rest =>
    if t.hasTag .dhatu then { t with number := number } :: rest else t :: numberRoot number rest

-- The first root has this number, and no other term has one.
def NumbersRoot (number : Option Int) (row : List Term) : Prop :=
  ∃ roots, rootsOf row = (true, number) :: roots ∧ ∀ x ∈ roots, x.2 = none

section

variable {row row' before after : List Term} {t : Term} {number : Option Int}

theorem rootsOf_of_kinds (h : row'.map Term.kind = row.map Term.kind) :
    rootsOf row' = rootsOf row := by
  have hranks (row : List Term) : row.map Term.rank = (row.map Term.kind).map Term.rank := by
    rw [List.map_map]
    exact List.map_congr_left fun t _ => (Term.rank_kind t).symm
  rw [rootsOf, hranks, h, ← hranks, rootsOf]

theorem rootsOf_cons_of_blank (ht : t.IsBlank) (row : List Term) :
    rootsOf (t :: row) = rootsOf row := by
  rw [rootsOf, List.map_cons, show t.rank = (false, none) from ht]
  rfl

theorem rootsOf_insert (ht : t.IsBlank) :
    rootsOf (before ++ t :: after) = rootsOf (before ++ after) := by
  have hrow (row : List Term) : rootsOf (before ++ row) = rootsOf before ++ rootsOf row := by
    rw [rootsOf, List.map_append, List.filter_append, rootsOf, rootsOf]
  rw [hrow, rootsOf_cons_of_blank ht, hrow]

theorem rootsOf_cons_of_not_blank (ht : ¬t.IsBlank) (row : List Term) :
    rootsOf (t :: row) = t.rank :: rootsOf row := by
  rw [rootsOf, List.map_cons, List.filter_cons_of_pos (by simpa [Term.IsBlank] using ht),
    rootsOf]

theorem number_of_rootsOf (h : ∀ x ∈ rootsOf row, x.2 = none) : ∀ t ∈ row, t.number = none := by
  intro t ht
  by_cases hblank : t.IsBlank
  · exact (Prod.mk.inj hblank).2
  · refine h t.rank (List.mem_filter.mpr ⟨List.mem_map_of_mem ht, ?_⟩)
    simpa [Term.IsBlank] using hblank

theorem numberRoot_numberRoot (number number' : Option Int) (row : List Term) :
    numberRoot number' (numberRoot number row) = numberRoot number' row := by
  induction row with
  | nil => rfl
  | cons t rest ih =>
      by_cases ht : t.hasTag .dhatu = true
      · have hagain : ({ t with number := number } : Term).hasTag .dhatu = true := ht
        rw [numberRoot, if_pos ht, numberRoot, if_pos hagain, numberRoot, if_pos ht]
      · rw [numberRoot, if_neg ht, numberRoot, if_neg ht, ih, numberRoot, if_neg ht]

theorem numbersRoot_cons (ht : t.rank = (true, number)) (h : ∀ u ∈ row, u.number = none) :
    NumbersRoot number (t :: row) := by
  refine ⟨rootsOf row, ?_, fun x hx => ?_⟩
  · rw [rootsOf_cons_of_not_blank (by rw [Term.IsBlank, ht]; simp), ht]
  · obtain ⟨u, hu, rfl⟩ := List.mem_map.mp (List.mem_filter.mp hx).1
    exact h u hu

-- Without numbers for a moment, the row gets back what it had.
theorem NumbersRoot.numberRoot_renumber (h : NumbersRoot number row) :
    numberRoot number (row.map (·.renumber fun _ => none)) = row := by
  obtain ⟨roots, hroots, hrest⟩ := h
  induction row with
  | nil => cases hroots
  | cons t rest ih =>
      by_cases ht : t.IsBlank
      · rw [rootsOf_cons_of_blank ht] at hroots
        obtain ⟨hno, hnumber⟩ := Prod.mk.inj ht
        rw [List.map_cons, numberRoot, Term.hasTag_renumber, if_neg (by rw [hno]; decide),
          ih hroots, t.renumber_of_none _ rfl hnumber]
      · rw [rootsOf_cons_of_not_blank ht] at hroots
        obtain ⟨hrank, hroots⟩ := List.cons.inj hroots
        obtain ⟨hyes, hnumber⟩ := Prod.mk.inj hrank
        have hnone : rest.map (·.renumber fun _ => none) = rest := by
          refine (List.map_congr_left fun u hu => ?_).trans (List.map_id' rest)
          exact u.renumber_of_none _ rfl (number_of_rootsOf (hroots ▸ hrest) u hu)
        rw [List.map_cons, numberRoot, Term.hasTag_renumber, if_pos hyes, hnone, ← hnumber]
        rfl

end

namespace Derivation

variable {d e : Derivation}

def roots (d : Derivation) : List (Bool × Option Int) := rootsOf d.terms

theorem unheard_roots : Unheard roots where
  record rule d := rootsOf_of_kinds (unheard_outline.record rule d)
  splice k sub d := rootsOf_of_kinds (unheard_outline.splice k sub d)
  update hf i d := rootsOf_of_kinds (unheard_outline.update hf i d)
  accept _ _ := rfl
  decline _ _ := rfl

theorem Recasts.roots {tags : List Tag} (h : Recasts tags d e) : e.roots = d.roots :=
  rootsOf_of_kinds h.row.outline

section Stem

variable {before after : List Term} {t : Term}

theorem augmentAfter_respects_roots (h : d.terms = before ++ t :: after) (rule : Rule) (u : Text) :
    (d.augmentAfter rule before.length u).Respects roots d := by
  refine (augmentAfter_ends h rule u).imp (fun e he => ?_) fun _ h => h
  rw [Derivation.roots, he.1, List.append_cons, rootsOf_insert (isAugment_stripped u).isBlank,
    ← List.append_cons, ← h, Derivation.roots]

theorem augmentBefore_respects_roots (h : d.terms = before ++ after) (rule : Rule) (u : Text) :
    (d.augmentBefore rule before.length u).Respects roots d := by
  refine (augmentBefore_ends h rule u).imp (fun e he => ?_) fun _ h => h
  rw [Derivation.roots, he.1, rootsOf_insert (isAugment_stripped u).isBlank, ← h,
    Derivation.roots]

theorem addIt_respects_roots (d : Derivation) : d.addIt.Respects roots d := by
  rcases d.addIt_cases with heq | ⟨before, root, after, suffix, hterms, heq⟩
  · rw [heq]
    exact rfl
  · have hkept := (takesIt_shows root suffix d).1
    rw [heq]
    split
    · exact (augmentAfter_respects_roots (hkept.trans hterms) _ _).imp
        (fun f hf => hf.trans (congrArg rootsOf hkept)) fun _ h => h
    · exact congrArg rootsOf hkept

theorem roots_reduplicate (d : Derivation) : d.reduplicate.roots = d.roots := by
  rcases d.reduplicate_cases with heq | ⟨before, t, after, hterms, -, -, -, -, heq⟩
  · rw [heq]
  · have hrank : (t.addTag .abhyasta).rank = t.rank := by
      have hdhatu : (t.addTag .abhyasta).hasTag .dhatu = t.hasTag .dhatu :=
        Term.hasTag_addTag_of_ne (by decide) t
      rw [Term.rank, hdhatu, Term.rank]
      rfl
    have hcopy : (copyOf t).IsBlank := rfl
    obtain ⟨hrow, -⟩ := doubleAt_shows hterms
    rw [heq]
    calc rootsOf (d.doubleAt before.length t).terms
      _ = rootsOf (before ++ t.addTag .abhyasta :: after) := by rw [hrow, rootsOf_insert hcopy]
      _ = rootsOf (before ++ t :: after) := by
        rw [rootsOf, rootsOf, List.map_append, List.map_cons, hrank, List.map_append,
          List.map_cons]
      _ = d.roots := by rw [← hterms, Derivation.roots]

theorem augmentPast_respects_roots (d : Derivation) : d.augmentPast.Respects roots d := by
  rcases d.augmentPast_cases with heq | ⟨before, t, after, x, -, -, hterms, -, heq⟩
  · rw [heq]
    exact rfl
  · rw [heq]
    exact augmentBefore_respects_roots hterms _ _

theorem augmentBhu_respects_roots (d : Derivation) : d.augmentBhu.Respects roots d := by
  rcases d.augmentBhu_cases with heq | ⟨before, t, after, hterms, -, heq⟩
  · rw [heq]
    exact rfl
  · rw [heq]
    exact (augmentAfter_respects_roots hterms _ _).map _ fun e =>
      unheard_roots.update (Term.kind_addTag_of_isMark rfl) _ e

theorem roots_replaceJ (d : Derivation) : d.replaceJ.roots = d.roots :=
  ((alters_replaceJ d).recasts_of_tags (by decide) fun _ _ _ hchange => hchange.kind).roots

theorem roots_relaxRal (d : Derivation) : d.relaxRal.roots = d.roots := by
  rcases d.relaxRal_cases with heq | ⟨i, heq⟩
  · rw [heq]
  · rw [heq]
    exact unheard_roots.optionally (Term.kind_removeTag_of_isMark rfl) _ _ d

theorem roots_contractPerfect (d : Derivation) : d.contractPerfect.roots = d.roots := by
  rcases d.contractPerfect_cases with heq | ⟨i, copy, root, rule, -, -, -, -, -, -, heq⟩
  · rw [heq]
  · rw [heq, unheard_roots.record, unheard_roots.update Term.kind_elide,
      unheard_roots.update (Term.kind_setUpadha _)]

theorem prepareStem_respects_roots (d : Derivation) : d.prepareStem.Respects roots d := by
  have hpast : d.replaceJ.augmentPast.Respects roots d :=
    (augmentPast_respects_roots _).imp (fun e he => he.trans (roots_replaceJ d)) fun _ h => h
  refine (hpast.andThen _ augmentBhu_respects_roots).map _ fun e => ?_
  exact (recasts_dropA e).roots

theorem roots_hardenStem (d : Derivation) : d.hardenStem.roots = d.roots := by
  rw [hardenStem, (recasts_forEach recasts_softenFinal _).roots, roots_contractPerfect,
    strengthenStem, (recasts_forEach recasts_strengthenAt _).roots, roots_relaxRal]

theorem shaped_respects_roots (d : Derivation) : d.shaped.Respects roots d := by
  have hit : d.extendMarkers.addIt.Respects roots d :=
    (addIt_respects_roots _).imp (fun e he => he.trans (recasts_extendMarkers d).roots)
      fun _ h => h
  have hcopy := (hit.map reduplicate roots_reduplicate).andThen reduceCopy fun e =>
    (recasts_reduceCopy e).imp (fun f hf => hf.roots) fun _ h => h
  exact (hcopy.andThen _ prepareStem_respects_roots).map _ roots_hardenStem

end Stem

end Derivation

-- The terms that the rules bring have no number.
theorem numbersRoot_suffixedRow {form : VerbForm} (hform : form.lakara ∈ supportedLakaras)
    (root : Root) (pada : Pada) : NumbersRoot root.number (suffixedRow root form pada) := by
  have hending := forall_endings (P := fun lakara pada purusha vacana =>
    (endingOf lakara pada purusha vacana).number = none) (by decide +kernel) hform pada
      form.purusha form.vacana
  obtain ⟨added, hrow, hadded⟩ := suffixedRow_cut root form pada
  rw [hrow, List.cons_append]
  refine numbersRoot_cons (Term.rank_eq_of_kind root.kind_entered) ?_
  exact List.forall_mem_append.mpr ⟨fun t ht => (hadded t ht).1, by simpa using hending⟩

theorem Derivation.conjugate_numbers_root {d : Derivation} {root : Root} {form : VerbForm}
    (hform : form.lakara ∈ supportedLakaras) (hterms : d.terms = []) (htags : d.tags = []) :
    (d.conjugate root form).Ends (fun e => NumbersRoot root.number e.terms) fun _ => True := by
  have hshaped : ((d.suffixed root form).andThen shaped).Ends
      (fun e => NumbersRoot root.number e.terms) fun _ => True := by
    refine (suffixed_shows hform hterms htags).andThen _ fun e he => ?_
    refine (shaped_respects_roots e).imp (fun f hf => ?_) fun _ h => h
    obtain ⟨roots, hroots, hnone⟩ := numbersRoot_suffixedRow hform root
      ((root.padaChoice form.prayoga).resolve d.choices).1
    rw [← he.1] at hroots
    exact ⟨roots, hf.trans hroots, hnone⟩
  have hjoined (e : Derivation) :
      (e.fitSuffixes.joinVowels.andThen joinConsonants).Respects roots e := by
    have hvowels : e.fitSuffixes.joinVowels.Respects roots e :=
      (unheard_roots.joinVowels e.fitSuffixes).imp
        (fun f hf => hf.trans (recasts_fitSuffixes e).roots) fun _ h => h
    exact hvowels.andThen joinConsonants unheard_roots.joinConsonants
  rw [conjugate_eq_shaped, Outcome.map, Outcome.andThen_assoc, Outcome.andThen_assoc]
  refine hshaped.andThen _ fun e he => ?_
  rw [Outcome.andThen_done]
  obtain ⟨roots, hroots, hnone⟩ := he
  exact (hjoined e).imp (fun f hf => ⟨roots, hf.trans hroots, hnone⟩) fun _ h => h

end Vyakarana
