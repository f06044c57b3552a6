import Vyakarana.Proofs.Grammar.Shaping
import Vyakarana.Proofs.Grammar.WordEnd

/-!
The last sounds of a verb form.

Each ending, with the final a of the suffix before it where there is one, ends in a vowel and one of
the tails of `endingTails`. The rules that fit the ending to the stem leave it so: what they drop
follows an a, and what they exchange stands before the vowel in question.
-/

namespace Vyakarana

-- What the last chapters do is not looked into here, and looking into it takes time.
attribute [local irreducible] Derivation.joinVowels Derivation.joinConsonants

-- The suffix of the stem is wanting in the perfect only.
theorem exists_stemSuffix? {form : VerbForm} {gana : Int} (hgana : gana ∈ supportedGanas)
    (hform : form.lakara ∈ supportedLakaras) (hlit : form.lakara ≠ .lit) (pada : Pada) :
    ∃ t, stemSuffix? form gana pada = some t := by
  have hclass : ∀ gana ∈ supportedGanas, (classSuffix? gana).isSome = true := by decide
  have hsarva := forall_endings (P := fun lakara pada purusha vacana => lakara ≠ .lit →
      (givenEnding lakara pada purusha vacana).hasLakshana "lf~w".toList = true ∨
        (givenEnding lakara pada purusha vacana).hasTag .sarvadhatuka = true)
    (by decide +kernel) hform pada form.purusha form.vacana hlit
  obtain ⟨suffix, hsuffix⟩ := Option.isSome_iff_exists.mp (hclass gana hgana)
  unfold stemSuffix? Term.stemSuffix?
  rw [if_neg hlit, Option.bind_some, hsuffix]
  rcases hsarva with hfuture | hsarva
  · rw [if_pos hfuture]
    exact ⟨_, rfl⟩
  · rw [hsarva]
    split
    · exact ⟨_, rfl⟩
    · rw [if_neg (by simp)]
      split <;> exact ⟨_, rfl⟩

theorem antya_stemSuffixes : ∀ t ∈ stemSuffixes, t.antya? = some 'a' := by decide +kernel

-- What is heard of an ending, and of its augment.
def soundsOfEnding (lakara : Lakara) (pada : Pada) (purusha : Purusha) (vacana : Vacana) : Text :=
  ((givenEnding lakara pada purusha vacana).augments lakara).flatMap (·.text) ++
    (endingOf lakara pada purusha vacana).antForJ.text

theorem closes_preparedSuffixes {form : VerbForm} {gana : Int} (hgana : gana ∈ supportedGanas)
    (hform : form.lakara ∈ supportedLakaras) (pada : Pada) :
    Text.Closes endingTails ((preparedSuffixes form gana pada).flatMap (·.text)) := by
  have hclosed := forall_endings (P := fun lakara pada purusha vacana =>
      Text.Closes endingTails
        ((if lakara = .lit then [] else ['a']) ++ soundsOfEnding lakara pada purusha vacana))
    (by decide +kernel) hform pada form.purusha form.vacana
  refine hclosed.of_suffix ?_
  have htext : (preparedSuffixes form gana pada).flatMap (·.text) =
      ((stemSuffix? form gana pada).toList.flatMap (·.text)) ++
        soundsOfEnding form.lakara pada form.purusha form.vacana := by
    simp [preparedSuffixes, soundsOfEnding]
  rw [htext]
  by_cases hlit : form.lakara = .lit
  · rw [if_pos hlit, List.nil_append]
    exact List.suffix_append _ _
  · obtain ⟨t, ht⟩ := exists_stemSuffix? hgana hform hlit pada
    obtain ⟨init, hinit⟩ :=
      List.getLast?_eq_some_iff.mp (antya_stemSuffixes t (mem_stemSuffixes ht))
    rw [if_neg hlit, ht]
    exact ⟨init, by simp [hinit]⟩

-- Without its first A an ending still ends so.
theorem closes_behind_A {lakara : Lakara} (hlakara : lakara ∈ supportedLakaras) (pada : Pada)
    (purusha : Purusha) (vacana : Vacana) :
    (endingOf lakara pada purusha vacana).antForJ.text.head? = some 'A' →
      Text.Closes endingTails (endingOf lakara pada purusha vacana).antForJ.text.tail :=
  forall_endings (P := fun lakara pada purusha vacana =>
    (endingOf lakara pada purusha vacana).antForJ.text.head? = some 'A' →
      Text.Closes endingTails (endingOf lakara pada purusha vacana).antForJ.text.tail)
    (by decide +kernel) hlakara pada purusha vacana

namespace Derivation

variable {d : Derivation} {before : List Term} {e : Term}

-- The row ends in such sounds, and its ending even without a first A.
structure ClosesBy (before : List Term) (e : Term) (d : Derivation) : Prop where
  row : d.terms = before ++ [e]
  tin : e.hasTag .tin = true
  closes : d.text.Closes endingTails
  behind : e.text.head? = some 'A' → Text.Closes endingTails e.text.tail

theorem ClosesBy.lastTagged? (h : ClosesBy before e d) :
    d.lastTagged? .tin = some before.length :=
  lastTagged?_of_cut h.row h.tin (by simp)

-- If a is heard before the last term, the text of the terms before it ends in a.
theorem closes_of_followsA (hd : d.terms = before ++ [e]) (h : d.followsA before.length = true) :
    Text.Closes endingTails (before.flatMap (·.text)) := by
  unfold followsA lastBefore? at h
  split at h
  · rename_i j hj
    rw [hd, List.take_left] at hj
    obtain ⟨front, t, after, rfl, rfl, -, hsilent⟩ := cut_of_lastIndex? hj
    have hcut : d.terms = front ++ t :: (after ++ [e]) := by rw [hd]; simp
    rw [has_of_cut hcut, beq_iff_eq] at h
    obtain ⟨init, hinit⟩ := List.getLast?_eq_some_iff.mp h
    have hnothing : after.flatMap (·.text) = [] := by
      rw [List.flatMap_eq_nil_iff]
      exact fun u hu => by simpa [Term.isEmpty] using hsilent u hu
    have htext : (front ++ t :: after).flatMap (·.text) =
        (front.flatMap (·.text) ++ init) ++ 'a' :: [] := by
      simp [hinit, hnothing]
    rw [htext]
    exact Text.closes_of_last (by decide) (by decide) _
  · cases h

theorem text_of_row (hd : d.terms = before ++ [e]) :
    d.text = before.flatMap (·.text) ++ e.text := by
  simp [text, hd]

theorem dropHi_closes (h : ClosesBy before e d) : ∃ e', ClosesBy before e' d.dropHi := by
  unfold dropHi
  rw [h.lastTagged?]
  dsimp only
  split
  · rename_i hhi
    have hacts := actsAt_alter "6.4.105" before.length (·.elide) d
    have hrow := hacts.terms_of_cut h.row rfl
    refine ⟨e.elide, hrow, h.tin, ?_, fun hA => by cases hA⟩
    rw [text_of_row hrow, show e.elide.text = [] from rfl, List.append_nil]
    exact closes_of_followsA h.row ((Bool.and_eq_true _ _).mp hhi).2
  · exact ⟨e, h⟩

theorem replaceEndingA_closes (h : ClosesBy before e d) :
    d.replaceEndingA.text.Closes endingTails := by
  unfold replaceEndingA
  rw [h.lastTagged?]
  dsimp only
  rw [has_of_cut h.row]
  split
  · rename_i hA
    simp only [Bool.and_eq_true, beq_iff_eq] at hA
    have hacts := actsAt_alter "7.2.81" before.length (·.substituteAdi "iy".toList) d
    rw [text_of_row (hacts.terms_of_cut h.row rfl)]
    obtain ⟨rest, hrest, hset⟩ := Term.cut_adi hA.1.2
    have hbehind := h.behind hA.1.2
    rw [hrest] at hbehind
    rw [hset]
    exact hbehind.of_suffix ⟨before.flatMap (·.text) ++ "iy".toList, by simp⟩
  · exact h.closes

-- The lengthened a is a vowel in which the text may end.
theorem lengthenFinalA_closes (h : d.text.Closes endingTails) (i : Nat) :
    (d.lengthenFinalA i).text.Closes endingTails := by
  unfold lengthenFinalA
  split
  · rename_i hstem
    split
    · obtain ⟨t, ht, hkind⟩ := term_of_has hstem
      rw [Bool.and_eq_true, beq_iff_eq] at hkind
      obtain ⟨before, after, htext, hupdate⟩ := cut_text ht
      obtain ⟨init, hinit, hset⟩ := Term.cut_antya hkind.2
      rw [text_alter_of_some ht, hupdate, hset]
      rw [htext, hinit] at h
      have hcut : Text.Closes endingTails ((before ++ init) ++ 'a' :: after) := by simpa using h
      have hkept : Text.Closes endingTails ((before ++ init) ++ ['A'] ++ after) :=
        hcut.exchange (by decide) (by decide) (before ++ init)
      simpa using hkept
    · exact h
  · exact h

theorem fitSuffixes_closes (h : ClosesBy before e d) : d.fitSuffixes.text.Closes endingTails := by
  obtain ⟨e', hdropped⟩ := dropHi_closes h
  exact forEach_keeps (P := fun e => e.text.Closes endingTails)
    (fun e i he => lengthenFinalA_closes he i) (replaceEndingA_closes hdropped)

-- The row of a form before the suffixes meet the stem.
theorem closesBy_of_madeOf {form : VerbForm} {gana : Int} {doubled : Bool}
    (hgana : gana ∈ supportedGanas) (hform : form.lakara ∈ supportedLakaras) {pada : Pada}
    (h : MadeOf (preparedSuffixes form gana pada) doubled d.terms) :
    ∃ before e, ClosesBy before e d := by
  have hs := isBack_preparedSuffixes hform gana pada
  obtain ⟨before, e, hrow, hkind, htext, -⟩ := h.cut_ending
  refine ⟨before, e, hrow, (Term.hasTag_eq_of_kind hkind rfl).trans hs.last.1.tin, ?_, ?_⟩
  · obtain ⟨front, back, hterms, -, -, hback⟩ := h
    have htexts := congrArg List.flatten hback.texts
    rw [← List.flatMap_def, ← List.flatMap_def] at htexts
    rw [text, hterms, List.flatMap_append, htexts]
    exact (closes_preparedSuffixes hgana hform pada).of_suffix (List.suffix_append _ _)
  · rw [htext]
    exact closes_behind_A hform pada form.purusha form.vacana

-- Where sounds meet, no optional rule is left for a verb form.
theorem joined_background {form : VerbForm} {gana : Int} {doubled : Bool}
    (hgana : gana ∈ supportedGanas) (hform : form.lakara ∈ supportedLakaras) {pada : Pada}
    (htable : d.table = .standard)
    (h : MadeOf (preparedSuffixes form gana pada) doubled d.terms) :
    (d.fitSuffixes.joinVowels.andThen joinConsonants).Ends
      (fun f => f.background = d.background) fun _ => True := by
  obtain ⟨before, e, hclosed⟩ := closesBy_of_madeOf hgana hform h
  have hrest := (recasts_fitSuffixes d).rest
  have hfitted : d.fitSuffixes.background = d.background :=
    calc d.fitSuffixes.background = d.fitSuffixes.rest.background := rfl
      _ = d.rest.background := by rw [hrest]
  refine (joinVowels_closes (fitSuffixes_closes hclosed)).andThen _ fun f hf => ?_
  have hkept := hf.2.trans hfitted
  exact (joinConsonants_of_closes ((table_eq_of_background hkept).trans htable) hf.1).imp
    (fun g hg => hg.trans hkept) fun _ h => h

end Derivation

end Vyakarana
