import Vyakarana.Proofs.Grammar.Notation
import Vyakarana.Proofs.Grammar.Shaping

/-!
A row of sounds takes its suffixes.

A root, a suffix or an augment loses its markers as it enters the row, and an ending that is fitted
to its lakara only has sounds put in the place of its own. So every rule from the entry of the root
to the augment of the ardhadhatuka suffixes leaves a row of sounds as a row of sounds.
-/

namespace Vyakarana

namespace Term

theorem keepsSpoken_addTags (tags : List Tag) : KeepsSpoken (·.addTags tags) :=
  fun t ht => (text_addTags tags t).symm ▸ ht

theorem keepsSpoken_replaceInitial : KeepsSpoken replaceInitial := by
  intro t ht
  unfold replaceInitial
  split
  · split
    · exact ht
    · split
      · exact ((ht.replaceFirst (by decide) _).replaceFirst (by decide) _).replaceFirst
          (by decide) _
      · exact keepsSpoken_substituteAdi (by decide) t ht
  · split
    · exact keepsSpoken_substituteAdi (by decide) t ht
    · exact ht

theorem keepsSpoken_nasalize : KeepsSpoken nasalize := by
  intro t ht
  unfold nasalize
  split
  · exact keepsSpoken_insertAfterVowel (by decide) t ht
  · exact ht

theorem keepsSpoken_fitImperativeFinal : KeepsSpoken fitImperativeFinal := by
  intro t ht
  -- The last two sounds give way to others.
  have hlastTwo {s : Text} (hs : s.Spoken) :
      (t.setText (t.text.dropLast.dropLast ++ s)).text.Spoken :=
    Text.spoken_append.mpr ⟨ht.dropLast.dropLast, hs⟩
  unfold fitImperativeFinal
  split
  · exact (by decide : Text.Spoken "hi".toList)
  · split
    · exact (by decide : Text.Spoken "ni".toList)
    · split
      · exact keepsSpoken_setAntya (by decide) t ht
      · split
        · split
          · exact keepsSpoken_setAntya (by decide) t ht
          · split
            · exact hlastTwo (by decide)
            · split
              · exact hlastTwo (by decide)
              · exact keepsSpoken_setAntya (by decide) t ht
        · exact ht

theorem keepsSpoken_fitNit (keepsI : Bool) : KeepsSpoken (fitNit keepsI) := by
  intro t ht
  have htext : t.fitNitText.text.Spoken := by
    unfold fitNitText
    split
    · rename_i sub hsub
      have hall : ∀ sub ∈ nitEndings, Text.Spoken sub := by decide
      exact hall sub (Derivation.mem_of_corresponding? hsub)
    · exact ht
  have hs : t.fitNitText.dropNitS.text.Spoken := by
    unfold dropNitS
    split
    · exact keepsSpoken_setAntya Text.spoken_nil _ htext
    · exact htext
  unfold fitNit
  split
  · unfold dropNitI
    split
    · exact keepsSpoken_setAntya Text.spoken_nil _ hs
    · exact hs
  · exact htext

end Term

namespace Derivation

variable {d : Derivation}

theorem lt_of_findLast? {f : Term → Bool} {i : Nat} (h : d.findLast? f = some i) :
    i < d.terms.length := by
  obtain ⟨t, ht, -⟩ := exists_of_lastIndex? h
  exact (List.getElem?_eq_some_iff.mp ht).1

theorem Spoken.actsAt (h : d.Spoken) {e : Derivation} {i : Nat} {f : Term → Term}
    (hacts : ActsAt i f d e) (hf : Term.KeepsSpoken f) : e.Spoken := by
  rw [Spoken, hacts.terms]
  exact Spoken.modify h hf i

section Entry

theorem Spoken.replaceInitial (h : d.Spoken) (i : Nat) : (d.replaceInitial i).Spoken :=
  h.actsAt (actsAt_replaceInitial i d) Term.keepsSpoken_replaceInitial

theorem Spoken.nasalizeRoot (h : d.Spoken) (i : Nat) : (d.nasalizeRoot i).Spoken :=
  h.actsAt (actsAt_nasalizeRoot i d) Term.keepsSpoken_nasalize

theorem Spoken.markAkusmiya (h : d.Spoken) (root : Root) : (d.markAkusmiya root).Spoken := by
  unfold Derivation.markAkusmiya
  split
  · exact (spoken_record _).mpr h
  · exact h

-- The root brings its notation, and loses it.
theorem Spoken.enterRoot (h : d.Spoken) {root : Root} (hroot : root.upadesha.Notated) :
    (d.enterRoot root).Spoken := by
  have hpush : ((d.push (.ofRoot root.upadesha root.gana root.number)).record "start").terms =
      d.terms ++ Term.ofRoot root.upadesha root.gana root.number :: [] := terms_record _ _
  have hcut : (d.pushRoot root).terms =
      d.terms ++ (Term.ofRoot root.upadesha root.gana root.number).addTag .dhatu :: [] :=
    (actsAt_alter "1.3.1" d.terms.length (·.addTag .dhatu) _).terms_of_cut hpush rfl
  have hdrop := spoken_dropMarkers hcut (by rwa [List.append_nil]) rfl hroot
  exact hdrop.map _ fun e he => ((he.replaceInitial _).nasalizeRoot _).markAkusmiya root

end Entry

section Suffixes

theorem Spoken.addRic (h : d.Spoken) : d.addRic.Spoken := by
  unfold Derivation.addRic
  split
  · exact h
  · rename_i i hi
    split
    · exact (h.suffixAfter (lt_of_findLast? hi) (by decide) _ _).map _ fun e he =>
        he.alter (Term.keepsSpoken_addTag _) _ _
    · exact h

theorem notated_lakara (lakara : Lakara) : lakara.upadesha.Notated := by
  cases lakara <;> decide

theorem Spoken.addLakara (h : d.Spoken) (lakara : Lakara) : (d.addLakara lakara).Spoken := by
  unfold Derivation.addLakara
  split
  · exact h
  · rename_i i hi
    have hlt := lt_of_findLast? hi
    dsimp only
    split
    · exact Spoken.suffixAfter (d := d.addTag .ashih) h hlt (notated_lakara lakara) _ _
    · exact h.suffixAfter hlt (notated_lakara lakara) _ _

theorem Spoken.markPada (h : d.Spoken) (pada : Pada) : (d.markPada pada).Spoken := by
  unfold Derivation.markPada
  dsimp only
  split
  · exact Spoken.update (d := d.addTag (.pada pada)) h (Term.keepsSpoken_addTag _) _
  · exact h

theorem Spoken.markParasmaipada (h : d.Spoken) : d.markParasmaipada.Spoken :=
  (spoken_record _).mpr (h.markPada .parasmaipada)

theorem Spoken.optionalPada (h : d.Spoken) (rule : Rule) : (d.optionalPada rule).Spoken := by
  have hstep := h.optionally (f := (·.markPada .atmanepada)) (fun e he => he.markPada _) rule
  unfold Derivation.optionalPada
  split
  · rename_i e heq
    rw [heq] at hstep
    exact hstep
  · rename_i e heq
    rw [heq] at hstep
    exact hstep.markParasmaipada

theorem Spoken.choosePada (h : d.Spoken) : d.choosePada.Spoken := by
  unfold Derivation.choosePada
  split
  · split
    · exact h.markPada _
    · split
      · exact (spoken_record _).mpr (h.markPada _)
      · split
        · exact (spoken_record _).mpr (h.markPada _)
        · split
          · exact h.optionalPada _
          · split
            · exact h.optionalPada _
            · exact h.markParasmaipada
  · exact h

theorem notated_parasmaipadaEnding (purusha : Purusha) (vacana : Vacana) :
    (parasmaipadaEnding purusha vacana).Notated := by
  cases purusha <;> cases vacana <;> decide

theorem notated_atmanepadaEnding (purusha : Purusha) (vacana : Vacana) :
    (atmanepadaEnding purusha vacana).Notated := by
  cases purusha <;> cases vacana <;> decide

theorem Spoken.giveEnding (h : d.Spoken) (purusha : Purusha) (vacana : Vacana) :
    (d.giveEnding purusha vacana).Spoken := by
  unfold Derivation.giveEnding
  split
  · exact h
  · rename_i i _
    have hmarked := h.update (Term.keepsSpoken_addTags
      [.vibhakti, .tin, .purusha purusha, .vacana vacana]) i
    dsimp only
    refine Outcome.Spoken.map ?_ _ fun e he => he.update (Term.keepsSpoken_removeTag _) _
    split
    · exact hmarked.substitute (notated_atmanepadaEnding purusha vacana) _ i
    · exact hmarked.substitute (notated_parasmaipadaEnding purusha vacana) _ i

theorem Spoken.tagSuffixes (h : d.Spoken) {rules : List (Rule × Tag)} {e : Derivation}
    (he : Alters (TagsSuffix rules) d e) : e.Spoken := by
  refine he.spoken ?_ h
  rintro _ t _ _ ⟨-, x, -, -, rfl⟩ -
  exact Term.keepsSpoken_addTag x.2

theorem Spoken.classifySuffixes (h : d.Spoken) : d.classifySuffixes.Spoken :=
  h.tagSuffixes (alters_classifySuffixes d)

theorem Spoken.extendMarkers (h : d.Spoken) : d.extendMarkers.Spoken :=
  h.tagSuffixes (alters_extendMarkers d)

theorem Spoken.fitWit (h : d.Spoken) (i : Nat) : (d.fitWit i).Spoken := by
  unfold Derivation.fitWit
  split
  · exact h.substitute (by decide) _ i
  · exact h.alter (Term.keepsSpoken_substituteTi (by decide)) _ _

theorem Spoken.fitPerfect (h : d.Spoken) (i : Nat) : (d.fitPerfect i).Spoken := by
  unfold Derivation.fitPerfect
  split
  · exact h
  · split
    · split
      · rename_i sub hsub
        have hall : ∀ sub ∈ ["eS".toList, "irec".toList], Text.Notated sub := by decide
        exact (h.substitute (hall sub (mem_of_corresponding? hsub)) _ i).map _ fun e he =>
          he.update (Term.keepsSpoken_removeTag _) _
      · exact h.fitWit i
    · split
      · rename_i sub hsub
        have hall : ∀ sub ∈ perfectEndings, Text.Notated sub := by decide
        exact h.substitute (hall sub (mem_of_corresponding? hsub)) _ i
      · exact h

theorem Spoken.fitImperativeFinal (h : d.Spoken) (i : Nat) : (d.fitImperativeFinal i).Spoken :=
  h.actsAt (actsAt_fitImperativeFinal i d) Term.keepsSpoken_fitImperativeFinal

theorem Spoken.fitNit (h : d.Spoken) (i : Nat) (keepsI : Bool) : (d.fitNit i keepsI).Spoken :=
  h.actsAt (actsAt_fitNit i keepsI d) (Term.keepsSpoken_fitNit keepsI)

theorem Spoken.fitImperative (h : d.Spoken) (i : Nat) : (d.fitImperative i).Spoken := by
  have hfinal := h.fitImperativeFinal i
  unfold Derivation.fitImperative
  dsimp only
  split
  · rename_i huttama
    obtain ⟨t, ht, -⟩ := term_of_has huttama
    have hlt : i < ((d.fitImperativeFinal i).update i (·.addTag (.it .p))).terms.length := by
      rw [terms_update, List.length_modify]
      exact (List.getElem?_eq_some_iff.mp ht).1
    have hmarked := hfinal.update (Term.keepsSpoken_addTag (.it .p)) i
    exact (hmarked.augmentBefore hlt (by decide) _).map _ fun e he => he.fitNit (i + 1) true
  · exact hfinal.fitNit i true

theorem Spoken.fitEnding (h : d.Spoken) (lakara : Lakara) : (d.fitEnding lakara).Spoken := by
  unfold Derivation.fitEnding
  split
  · exact h
  · rename_i i _
    split
    · exact h.fitPerfect i
    · have hfitted : (if (d.has i fun t => t.hasTag (.pada .atmanepada)) && lakara.isWit then
          d.fitWit i else .done d).Spoken := by
        split
        · exact h.fitWit i
        · exact h
      dsimp only
      split
      · exact hfitted.andThen _ fun e he => he.fitImperative i
      · split
        · exact hfitted.map _ fun e he => he.fitNit i false
        · exact hfitted

theorem Spoken.addStemSuffix (h : d.Spoken) {u : Text} (hu : u.Notated) (rule : Rule) :
    (d.addStemSuffix rule u).Spoken := by
  unfold Derivation.addStemSuffix
  split
  · rename_i i hi
    exact h.suffixAfter (lt_of_findLast? hi) hu _ _
  · exact h

theorem Spoken.addAuxiliary (h : d.Spoken) (i : Nat) : (d.addAuxiliary i).Spoken := by
  unfold Derivation.addAuxiliary
  split
  · exact h
  · split
    · exact h
    · rename_i root _ _ rule _
      have ham := (spoken_record rule).mpr (h.insertTerm (root + 1)
        (t := (Term.ofUpadesha "Am".toList).addTag .pratyaya) (by decide))
      exact (spoken_record _).mpr (ham.insertTerm (i + 1) (by decide))

theorem Spoken.addVikarana (h : d.Spoken) : d.addVikarana.Spoken := by
  unfold Derivation.addVikarana
  split
  · exact h
  · split
    · exact h.addAuxiliary _
    · split
      · exact h.addStemSuffix (by decide) _
      · split
        · exact h
        · split
          · exact h.addStemSuffix (by decide) _
          · split
            · rename_i rule u hu
              obtain ⟨gana, -, hgana⟩ := Option.bind_eq_some_iff.mp hu
              have hall : ∀ u ∈ ["Sap".toList, "Syan".toList, "Sa".toList], Text.Notated u := by
                decide
              exact h.addStemSuffix (hall u (mem_of_classSuffix? hgana)) rule
            · exact h

theorem Spoken.addSuffixes (h : d.Spoken) (form : VerbForm) : (d.addSuffixes form).Spoken := by
  have hgiven := (h.giveEnding form.purusha form.vacana).map Derivation.classifySuffixes
    fun e he => he.classifySuffixes
  unfold Derivation.addSuffixes
  dsimp only
  split
  · exact ((hgiven.andThen _ fun e he => he.fitEnding .lit).andThen _ fun e he =>
      he.addVikarana).map _ fun e he => he.classifySuffixes
  · exact ((hgiven.andThen _ fun e he => he.addVikarana).map _ fun e he =>
      he.classifySuffixes).andThen _ fun e he => he.fitEnding form.lakara

theorem Spoken.addIt (h : d.Spoken) : d.addIt.Spoken := by
  rcases d.addIt_cases with heq | ⟨before, root, after, suffix, hterms, heq⟩
  · rw [heq]
    exact h
  · have hkept := (takesIt_shows root suffix d).1
    have htakes : (d.takesIt root suffix).2.Spoken := by rwa [Spoken, hkept]
    rw [heq]
    split
    · exact htakes.augmentAfter (by rw [hkept, hterms]; simp) (by decide) _
    · exact htakes

end Suffixes

end Derivation

end Vyakarana
