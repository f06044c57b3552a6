import Vyakarana.Proofs.Grammar.SpokenSuffixes

/-!
Only sounds are left in a form.

The grades of a sound and the nearest sounds of a table are sounds, and so is whatever else a rule
puts into the stem or the running text. As the row of the suffixes is one of sounds, every form is.
-/

namespace Vyakarana

-- The grade of a sound, or the sound itself where it has none.
theorem Text.Spoken.orSelf {o : Option Text} (h : (o.getD []).Spoken) {c : Char}
    (hc : c ∈ Sound.alphabet) : (o.getD [c]).Spoken := by
  cases o with
  | none => exact Text.spoken_singleton.mpr hc
  | some s => exact h

theorem spoken_gunaText {c : Char} (h : c ∈ Sound.alphabet) : (gunaText c).Spoken :=
  (Sound.spoken_guna c).orSelf h

theorem spoken_vrddhiText {c : Char} (h : c ∈ Sound.alphabet) : (vrddhiText c).Spoken :=
  (Sound.spoken_vrddhi c).orSelf h

namespace Derivation

variable {d : Derivation}

section Stem

variable {t : Term} {tag : Tag} {tags : List Tag} {rule : Rule} {change : Term → Term}
  {e : Derivation}

theorem keepsSpoken_of_copyChange (h : CopyChange rule change) : Term.KeepsSpoken change := by
  have hone (k : Nat) : Term.KeepsSpoken fun t => t.setText (keepOneConsonant k t.text) :=
    fun t ht => Text.spoken_append.mpr ⟨(ht.drop k).take 1, (ht.drop _).sublist List.filter_sublist⟩
  cases h with
  | firstConsonant => exact hone 0
  | secondConsonant => exact hone 1
  | palatal hsub =>
      have hcu : ∀ c ∈ Sound.cu.sounds, c ∈ Sound.alphabet := by decide
      exact Term.keepsSpoken_setAdi (Text.spoken_singleton.mpr (hcu _ hsub))
  | @shortVowel vowel short hshort =>
      have hspoken := Sound.spoken_hrasva vowel
      rw [hshort] at hspoken
      exact Term.keepsSpoken_replaceText _ hspoken
  | aForF => exact Term.keepsSpoken_replaceText _ (by decide)
  | longInitial => exact Term.keepsSpoken_setAdi (by decide)
  | finalA => exact Term.keepsSpoken_setAntya (by decide)

theorem keepsSpoken_of_preparingChange (h : PreparingChange tag rule change) :
    Term.KeepsSpoken change := by
  cases h with
  | antForJ => exact Term.keepsSpoken_substituteAdi (by decide)
  | finalALost => exact Term.keepsSpoken_setAntya Text.spoken_nil
  | ayForRic => exact Term.keepsSpoken_setText (by decide)
  | ricLost => exact Term.keepsSpoken_elide

theorem keepsSpoken_of_joiningChange (h : JoiningChange tag rule change) :
    Term.KeepsSpoken change := by
  cases h with
  | semivowel | iy | uv | longA => exact Term.keepsSpoken_setAntya (by decide)
  | hiLost => exact Term.keepsSpoken_elide
  | iyForA => exact Term.keepsSpoken_substituteAdi (by decide)

-- The grades that a suffix asks for are those of sounds of the root.
theorem keepsSpoken_of_strengthens (h : t.Strengthens rule change) (ht : t.text.Spoken) :
    Term.KeepsSpoken change := by
  cases h with
  | vrddhi hfinal _ =>
      exact Term.keepsSpoken_setAntya (spoken_vrddhiText (ht _ (Term.mem_of_antya? hfinal)))
  | guna hfinal _ =>
      exact Term.keepsSpoken_setAntya (spoken_gunaText (ht _ (Term.mem_of_antya? hfinal)))
  | gunaOfUpadha hvowel _ =>
      exact Term.keepsSpoken_setUpadha (spoken_gunaText (ht _ (Term.mem_of_upadha? hvowel)))
  | vrddhiOfA | gunaOfMid => exact Term.keepsSpoken_setUpadha (by decide)

theorem Spoken.reduplicate (h : d.Spoken) : d.reduplicate.Spoken := by
  rcases d.reduplicate_cases with heq | ⟨before, root, after, hterms, -, -, -, -, heq⟩
  · rwa [heq]
  · have hroot : root.text.Spoken := h.term (term_of_cut hterms)
    have hcopy := (spoken_record "6.1.8").mpr (h.insertTerm before.length
      (t := { Term.ofText root.text with gana := root.gana }) hroot)
    have hnamed := hcopy.alter (Term.keepsSpoken_addTag .abhyasa) "6.1.4" before.length
    rw [heq]
    refine (spoken_record _).mpr ?_
    exact (hnamed.update (Term.keepsSpoken_addTag _) _).update (Term.keepsSpoken_addTag _) _

theorem Spoken.reduceCopy (h : d.Spoken) : d.reduceCopy.Spoken :=
  (reduceCopy_ends (P := (·.Spoken)) h fun _ _ _ he =>
    he.spoken (fun _ _ _ _ hchange _ => keepsSpoken_of_copyChange hchange.2) h).imp
      (fun _ he => he) fun _ _ => trivial

theorem Spoken.prepare (h : d.Spoken) (he : Alters (OnTagged PreparingChange tags) d e) :
    e.Spoken :=
  he.spoken (fun _ _ _ _ ⟨_, _, _, hchange⟩ _ => keepsSpoken_of_preparingChange hchange) h

theorem Spoken.join (h : d.Spoken) (he : Alters (OnTagged JoiningChange tags) d e) : e.Spoken :=
  he.spoken (fun _ _ _ _ ⟨_, _, _, hchange⟩ _ => keepsSpoken_of_joiningChange hchange) h

theorem Spoken.augmentPast (h : d.Spoken) : d.augmentPast.Spoken := by
  have hnotated : ∀ x ∈ pastAugments, x.2.Notated := by decide
  rcases d.augmentPast_cases with heq | ⟨before, t, after, x, hx, -, hterms, -, heq⟩
  · rw [heq]
    exact h
  · rw [heq]
    exact h.augmentBefore (by rw [hterms]; simp) (hnotated x hx) _

theorem Spoken.augmentBhu (h : d.Spoken) : d.augmentBhu.Spoken := by
  rcases d.augmentBhu_cases with heq | ⟨before, t, after, hterms, -, heq⟩
  · rw [heq]
    exact h
  · rw [heq]
    exact (h.augmentAfter (by rw [hterms]; simp) (by decide) _).map _ fun e he =>
      he.update (Term.keepsSpoken_addTag _) _

theorem Spoken.prepareStem (h : d.Spoken) : d.prepareStem.Spoken := by
  unfold Derivation.prepareStem
  have haugmented := (h.prepare (alters_replaceJ d)).augmentPast.andThen Derivation.augmentBhu
    fun e he => he.augmentBhu
  exact haugmented.map _ fun e he => he.prepare (alters_dropA e)

theorem Spoken.relaxRal (h : d.Spoken) : d.relaxRal.Spoken := by
  rcases d.relaxRal_cases with heq | ⟨i, heq⟩
  · rwa [heq]
  · rw [heq]
    exact h.optionally (fun e he => he.update (Term.keepsSpoken_removeTag _) _) _

theorem Spoken.strengthenStem (h : d.Spoken) : d.strengthenStem.Spoken :=
  (alters_forEach alters_strengthenAt d.relaxRal).spoken
    (fun _ _ _ _ hchange ht => keepsSpoken_of_strengthens hchange.2 ht) h.relaxRal

theorem Spoken.contractPerfect (h : d.Spoken) : d.contractPerfect.Spoken := by
  rcases d.contractPerfect_cases with heq | ⟨i, copy, root, rule, -, -, -, -, -, -, heq⟩
  · rwa [heq]
  · rw [heq]
    exact (spoken_record rule).mpr <|
      (h.update (Term.keepsSpoken_setUpadha (by decide)) _).update Term.keepsSpoken_elide _

theorem Spoken.shapeStem (h : d.Spoken) : d.shapeStem.Spoken :=
  h.prepareStem.map _ fun e he =>
    he.strengthenStem.contractPerfect.join (alters_joined e.strengthenStem.contractPerfect)

end Stem

end Derivation

section Sandhi

namespace Derivation

variable {d : Derivation}

theorem Spoken.joinVowels (h : d.Spoken) : d.joinVowels.Spoken := by
  obtain ⟨e, hdone, hturn⟩ := d.joinVowels_rests
  rw [hdone]
  exact hturn.relates (R := fun d e => d.Spoken → e.Spoken) (fun _ hd => hd)
    (fun _ _ _ hde hef hd => hef (hde hd))
    (fun r hr => (SoundRule.exchanges_of_mem_vowelRules hr).keepsSpoken) h

theorem Spoken.pass (h : d.Spoken) (p : ConsonantPass) : (d.pass p).Spoken := by
  rcases d.pass_rests p with ⟨r, e, hok, hrests, hdone, -⟩ | ⟨fault, -, hfail, -⟩
  · rw [hdone]
    exact hrests.spoken (ConsonantPass.exchanges_of_rule hok).keepsSpoken h
  · rw [hfail]
    trivial

theorem FinishingChange.keepsSpoken {rule : Rule} {change : Term → Term}
    (h : FinishingChange rule change) : Term.KeepsSpoken change := by
  have hcopy : ∀ c ∈ (SoundClass.ofText "jbgqdkcwtpSzs".toList).sounds, c ∈ Sound.alphabet :=
    SoundClass.forall_ofText (by decide)
  cases h with
  | clusterReduced => exact Term.keepsSpoken_setAntya Text.spoken_nil
  | rForS | visarga => exact Term.keepsSpoken_setAntya (by decide)
  | longVowel vowel => exact Term.keepsSpoken_setUpadha (Sound.spoken_dirgha vowel)
  | plainCopy hsub =>
      exact Term.keepsSpoken_substituteAdi (Text.spoken_singleton.mpr (hcopy _ hsub))

theorem Spoken.finishing (h : d.Spoken) {e : Derivation}
    (halters : Alters (fun _ _ => FinishingChange) d e) : e.Spoken :=
  halters.spoken (fun _ _ _ _ hchange _ => hchange.keepsSpoken) h

theorem Spoken.deaspirateCopy (h : d.Spoken) : d.deaspirateCopy.Spoken := by
  rcases d.deaspirateCopy_alters with ⟨e, hdone, halters⟩ | ⟨fault, hfail, -⟩
  · rw [hdone]
    exact h.finishing halters
  · rw [hfail]
    trivial

theorem Spoken.devoiceFinal (h : d.Spoken) : d.devoiceFinal.Spoken := by
  rcases d.devoiceFinal_cases with heq | ⟨fault, -, heq⟩ |
    ⟨i, _, _, sub, _, -, -, -, -, -, -, hmem, -, heq⟩
  · rwa [heq]
  · rw [heq]
    trivial
  · have htargets : ∀ c ∈ SoundClass.car.sounds, c ∈ Sound.alphabet :=
      SoundClass.forall_ofText (by decide)
    have hspoken := Text.spoken_singleton.mpr (htargets sub hmem)
    rw [heq]
    exact h.optionally (fun e he => he.update (Term.keepsSpoken_setAntya hspoken) _) _

theorem Spoken.joinConsonants (h : d.Spoken) : d.joinConsonants.Spoken := by
  have hdropped := h.finishing (alters_dropFinalOfCluster d)
  have hfinish := (hdropped.pass .throat).map Derivation.finishWord
    fun e he => he.finishing (alters_finishWord e)
  exact joinConsonants_ends_of (hfinish.andThen _ fun _ he => he.pass .anusvara)
    (fun p _ _ _ he => he.pass p) (fun _ he => he.deaspirateCopy) (fun _ he => he.devoiceFinal)
    fun _ he => he.pass .nasal

end Derivation

end Sandhi

namespace Derivation

variable {d : Derivation}

-- Once the root has lost its notation, there are sounds and nothing else.
theorem Spoken.conjugate (h : d.Spoken) {root : Root} (hroot : root.upadesha.Notated)
    (form : VerbForm) : (d.conjugate root form).Spoken := by
  have htagged : (d.taggedFor form).Spoken := h
  have hric := (htagged.enterRoot hroot).andThen _ fun _ he => he.addRic
  have hlakara := hric.andThen _ fun _ he => he.addLakara form.lakara
  have hsuffixes := (hlakara.map _ fun _ he => he.choosePada).andThen _ fun _ he =>
    he.addSuffixes form
  have hit := (hsuffixes.map _ fun _ he => he.extendMarkers).andThen _ fun _ he => he.addIt
  have hcopy := (hit.map _ fun _ he => he.reduplicate).andThen _ fun _ he => he.reduceCopy
  have hstem := hcopy.andThen _ fun _ he => he.shapeStem
  exact (hstem.andThen _ fun _ he => he.joinVowels).andThen _ fun _ he => he.joinConsonants

end Derivation

-- Whatever marks a root is taught with, each term of its forms is made of sounds, and of nothing
-- that the notation has besides.
theorem forms_consist_of_sounds {root : Root} (hroot : root.upadesha.Notated) {form : VerbForm}
    {recording : Bool} {table : FeatureTable} {forms : List Derivation}
    (h : verbForms root form recording table = .ok forms) :
    ∀ d ∈ forms, ∀ t ∈ d.terms, (∀ c ∈ t.text, c ∈ Sound.alphabet) ∧
      ∀ mark ∈ ['~', '\\', '^'], mark ∉ t.text := by
  intro d hd t ht
  obtain ⟨choices, hrun⟩ := run_of_mem_verbForms h hd
  have hstart : (Derivation.start choices recording table).Spoken :=
    fun t ht => absurd ht List.not_mem_nil
  have hspoken : t.text.Spoken := of_run_done hrun (hstart.conjugate hroot form) t ht
  refine ⟨hspoken, fun mark hmark hin => ?_⟩
  have hmarks : ∀ mark ∈ ['~', '\\', '^'], mark ∉ Sound.alphabet := by decide
  exact hmarks mark hmark (hspoken mark hin)

-- The root pac, with a marker before it, a low accent, and a nasal vowel with the other accent.
theorem forms_of_pac_consist_of_sounds :
    Text.Notated "qupa\\ca~^z".toList ∧
    ∃ forms, verbForms ⟨"qupa\\ca~^z".toList, 1, none, some 1151⟩
        ⟨.lit, .prathama, .eka, .kartari⟩ true .standard = .ok forms ∧ forms ≠ [] ∧
      ∀ d ∈ forms, ∀ t ∈ d.terms, (∀ c ∈ t.text, c ∈ Sound.alphabet) ∧
        ∀ mark ∈ ['~', '\\', '^'], mark ∉ t.text := by
  have hnotated : Text.Notated "qupa\\ca~^z".toList := by decide
  obtain ⟨forms, hok, hne⟩ := @exists_verbForms ⟨"qupa\\ca~^z".toList, 1, none, some 1151⟩
    ⟨.lit, .prathama, .eka, .kartari⟩ (by decide) (by decide) (by decide) true
  exact ⟨hnotated, forms, hok, hne, forms_consist_of_sounds hnotated hok⟩

end Vyakarana
