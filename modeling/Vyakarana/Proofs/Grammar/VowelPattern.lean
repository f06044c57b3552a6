import Vyakarana.Proofs.Derivation.Cuts
import Vyakarana.Proofs.Grammar.Conjugation
import Vyakarana.Proofs.Grammar.Hiatus

/-!
The last chapters leave the vowels where they are.

They put consonants in the place of consonants and long vowels in the place of short ones. Apart
from the last sound of the word, which may be dropped, nothing is lost, so that no hiatus arises.
-/

namespace Vyakarana

namespace Text

-- Where vowels stand in a text.
def vowelPattern (t : Text) : List Bool := t.map Sound.isAc

@[simp] theorem vowelPattern_append (s t : Text) :
    vowelPattern (s ++ t) = s.vowelPattern ++ t.vowelPattern :=
  List.map_append

@[simp] theorem vowelPattern_nil : vowelPattern [] = [] := rfl

@[simp] theorem vowelPattern_cons (c : Char) (t : Text) :
    vowelPattern (c :: t) = Sound.isAc c :: t.vowelPattern := rfl

theorem hiatusFree_iff_vowelPattern {t : Text} :
    t.HiatusFree ↔ t.vowelPattern.IsChain fun x y => (x && y) = false := by
  rw [vowelPattern, List.isChain_map]
  rfl

theorem HiatusFree.of_vowelPattern {s t : Text} (h : t.HiatusFree)
    (hst : s.vowelPattern = t.vowelPattern) : s.HiatusFree := by
  rw [hiatusFree_iff_vowelPattern, hst]
  exact hiatusFree_iff_vowelPattern.mp h

theorem HiatusFree.left_of_append {s t : Text} (h : HiatusFree (s ++ t)) : s.HiatusFree :=
  List.IsChain.left_of_append h

end Text

namespace SoundRule

-- The rule leaves the vowels where they are.
def KeepsVowels (r : SoundRule) : Prop := ∀ m, r.Keeps fun t => t.vowelPattern = m

-- One consonant is put in the place of another.
theorem Replaces.keepsVowels {r : SoundRule} {P : Char → Option Char → Char → Prop}
    (h : r.Replaces P)
    (hP : ∀ x y sub, P x y sub → Sound.isAc x = false ∧ Sound.isAc sub = false) :
    r.KeepsVowels := by
  refine fun m => h.keeps fun before x after sub hsub hm => ?_
  obtain ⟨hx, hsub⟩ := hP x _ sub hsub
  rw [← hm]
  simp [hx, hsub]

theorem isAc_of_jhal {c : Char} (h : SoundClass.jhal.contains c = true) : Sound.isAc c = false := by
  have hall : ∀ c ∈ SoundClass.jhal.sounds, Sound.isAc c = false :=
    SoundClass.forall_ofText (by decide)
  exact hall c (List.contains_iff_mem.mp h)

theorem keepsVowels_assimilate {T : FeatureTable} {rule : Rule} {group : SoundClass}
    {blocked : Char → Char → Bool} {nearest : SoundMap}
    (h : T.MapsNearest SoundClass.stu.sounds group.sounds nearest) (hne : group.sounds ≠ [])
    (hgroup : ∀ c ∈ group.sounds, Sound.isAc c = false) :
    (assimilate rule group blocked nearest).KeepsVowels := by
  have hstu : ∀ c ∈ SoundClass.stu.sounds, Sound.isAc c = false :=
    SoundClass.forall_ofText (by decide)
  exact (replaces_assimilate h hne).keepsVowels fun x _ sub ⟨hx, hsub, _⟩ =>
    ⟨hstu x hx, hgroup sub hsub⟩

theorem keepsVowels_toNearest {T : FeatureTable} {rule : Rule} {following targets : SoundClass}
    {nearest : SoundMap} (h : T.MapsNearest SoundClass.jhal.sounds targets.sounds nearest)
    (hne : targets.sounds ≠ []) (htargets : ∀ c ∈ targets.sounds, Sound.isAc c = false) :
    (toNearest rule following nearest).KeepsVowels :=
  (replaces_toNearest h hne).keepsVowels fun _ _ sub ⟨hx, _, hsub, _⟩ =>
    ⟨isAc_of_jhal (List.contains_iff_mem.mpr hx), htargets sub hsub⟩

end SoundRule

theorem ConsonantPass.keepsVowels {p : ConsonantPass} {T : FeatureTable} {r : SoundRule}
    (h : p.rule T = .ok r) : r.KeepsVowels := by
  have hne {w : Text} (hw : w ≠ []) := SoundClass.ofText_ne_nil hw
  cases makes_of_rule h with
  | throat _ hmaps =>
      have hcu : ∀ c ∈ Sound.cu.sounds, Sound.isAc c = false := by decide
      have hku : ∀ c ∈ Sound.ku.sounds, Sound.isAc c = false := by decide
      exact (SoundRule.replaces_cuToKu hmaps).keepsVowels fun x _ sub ⟨hx, hsub⟩ =>
        ⟨hcu x hx, hku sub hsub⟩
  | anusvara =>
      have hmn : ∀ x ∈ ['m', 'n'], Sound.isAc x = false := by decide
      refine SoundRule.replaces_toAnusvara.keepsVowels ?_
      rintro x y sub ⟨hx, -, rfl⟩
      exact ⟨hmn x hx, by decide⟩
  | suffixS =>
      refine SoundRule.replaces_retroflexS.keepsVowels ?_
      rintro x y sub ⟨rfl, rfl⟩
      exact ⟨by decide, by decide⟩
  | palatal _ hmaps | retroflex _ hmaps =>
      exact SoundRule.keepsVowels_assimilate hmaps (hne (by decide))
        (SoundClass.forall_ofText (by decide))
  | soft _ hmaps | hard _ hmaps =>
      exact SoundRule.keepsVowels_toNearest hmaps (hne (by decide))
        (SoundClass.forall_ofText (by decide))
  | nasal =>
      have hnasals : ∀ c ∈ SoundClass.nasals.sounds, Sound.isAc c = false := by decide
      refine SoundRule.replaces_anusvaraToNasal.keepsVowels ?_
      rintro x y sub ⟨rfl, stop, -, -, hsub⟩
      exact ⟨by decide,
        hnasals sub (List.contains_iff_mem.mp (Sound.nasals_contains_of_nasalOf? hsub))⟩

namespace Derivation

variable {d : Derivation}

-- The sounds are other ones, perhaps, but where there was a vowel there is one.
def SameVowels (e d : Derivation) : Prop := e.text.vowelPattern = d.text.vowelPattern

theorem pass_sameVowels (p : ConsonantPass) (d : Derivation) :
    (d.pass p).Leaves (·.SameVowels d) := by
  rcases d.pass_rests p with ⟨r, e, hok, hrests, hdone, -⟩ | ⟨fault, -, hfail, -⟩
  · rw [hdone]
    exact hrests.keeps (ConsonantPass.halting_of_rule hok).idle
      (ConsonantPass.keepsVowels hok _) rfl
  · rw [hfail]
    exact rfl

theorem update_sameVowels {i : Nat} {f : Term → Term}
    (h : ∀ t, d.terms[i]? = some t → (f t).text.vowelPattern = t.text.vowelPattern) :
    (d.update i f).SameVowels d := by
  unfold SameVowels
  rcases ht : d.terms[i]? with _ | t
  · rw [text, terms_update, List.modify_eq_self (List.getElem?_eq_none_iff.mp ht), text]
  · obtain ⟨before, after, htext, hupdate⟩ := cut_text ht
    rw [hupdate, htext]
    simp [h t ht]

theorem alter_sameVowels {rule : Rule} {i : Nat} {f : Term → Term}
    (h : ∀ t, d.terms[i]? = some t → (f t).text.vowelPattern = t.text.vowelPattern) :
    (d.alter rule i f).SameVowels d := by
  have hupdate := update_sameVowels h
  unfold alter
  split
  · rw [SameVowels, text_record]
    exact hupdate
  · rfl

theorem optionally_sameVowels {rule : Rule} {i : Nat} {f : Term → Term}
    (h : ∀ t, d.terms[i]? = some t → (f t).text.vowelPattern = t.text.vowelPattern) :
    (d.optionally rule (·.update i f)).2.SameVowels d := by
  rcases optionally_cases rule (·.update i f) d with ⟨-, heq⟩ | ⟨-, heq⟩
  · rw [heq, SameVowels, text_record]
    exact update_sameVowels (d := d.accept rule) h
  · rw [heq]
    exact rfl

theorem replaceFinal_sameVowels {rule : Rule} {final sub : Char}
    (h : Sound.isAc sub = Sound.isAc final) (d : Derivation) :
    (d.replaceFinal rule final sub).SameVowels d := by
  rcases d.replaceFinal_cases rule final sub with heq | ⟨i, -, hfinal, heq⟩
  · rw [heq]
    exact rfl
  · rw [heq]
    refine alter_sameVowels fun t ht => ?_
    have hantya : t.antya? = some final := by
      have hhas : (d.terms[i]?).any (fun t => t.antya? == some final) = true := hfinal
      rw [ht] at hhas
      exact beq_iff_eq.mp hhas
    obtain ⟨init, htext, hset⟩ := Term.cut_antya hantya
    rw [hset, htext]
    simp [h]

theorem lengthenBeforeRv_sameVowels (d : Derivation) (i : Nat) :
    (d.lengthenBeforeRv i).SameVowels d := by
  rcases d.lengthenBeforeRv_cases i with heq |
    ⟨root, vowel, _, hroot, -, hvowel, hik, -, -, heq⟩
  · rw [heq]
    exact rfl
  · rw [heq]
    refine alter_sameVowels fun t ht => ?_
    cases hroot.symm.trans ht
    have hlong : ∀ c ∈ SoundClass.ik.sounds, Sound.isAc c = true ∧
        Text.vowelPattern (Sound.dirgha? c).toList = [true] :=
      SoundClass.forall_ofText (by decide)
    obtain ⟨hac, hdirgha⟩ := hlong vowel (List.contains_iff_mem.mp hik)
    obtain ⟨init, last, htext, hset⟩ := Term.cut_upadha hvowel
    rw [hset, htext]
    simp [hdirgha, hac]

theorem finishWord_sameVowels (d : Derivation) : d.finishWord.SameVowels d := by
  have hr : (d.replaceFinal "8.2.66" 's' 'r').SameVowels d :=
    replaceFinal_sameVowels (by decide) d
  have hlong := forEach_keeps (P := (·.SameVowels d))
    (fun e i he => (lengthenBeforeRv_sameVowels e i).trans he) hr
  exact (replaceFinal_sameVowels (by decide) _).trans hlong

-- Dropping the last sound makes no new neighbours.
theorem dropFinalOfCluster_hiatusFree {d : Derivation} (h : d.text.HiatusFree) :
    d.dropFinalOfCluster.text.HiatusFree := by
  rcases d.dropFinalOfCluster_cases with ⟨-, heq⟩ | ⟨i, hi, -, heq⟩
  · rwa [heq]
  · obtain ⟨t, ht, hheard, before, htext, hupdate⟩ := cut_lastHeard hi
    have hsome : (d.term? i).isSome = true := Option.isSome_iff_exists.mpr ⟨t, ht⟩
    obtain ⟨init, hinit, hset⟩ := Term.cut_antya (List.getLast?_eq_some_getLast hheard)
    rw [heq, alter, if_pos hsome, text_record, hupdate, hset, List.append_nil]
    rw [htext, hinit, ← List.append_assoc] at h
    exact h.left_of_append

theorem deaspirateCopy_sameVowels (d : Derivation) :
    d.deaspirateCopy.Leaves (·.SameVowels d) := by
  rcases d.deaspirateCopy_cases with heq | ⟨fault, -, heq⟩ |
    ⟨i, t, first, sub, nearest, -, ht, hfirst, hjhal, -, -, hmem, -, heq⟩
  · rw [heq]
    exact rfl
  · rw [heq]
    exact rfl
  · have hno : ∀ c ∈ (SoundClass.ofText "jbgqdkcwtpSzs".toList).sounds, Sound.isAc c = false :=
      SoundClass.forall_ofText (by decide)
    rw [heq]
    refine alter_sameVowels fun u hu => ?_
    cases ht.symm.trans hu
    obtain ⟨rest, htext, hset⟩ := Term.cut_adi hfirst
    rw [hset, htext]
    simp [hno sub hmem, SoundRule.isAc_of_jhal hjhal]

theorem devoiceFinal_sameVowels (d : Derivation) :
    d.devoiceFinal.Leaves (·.SameVowels d) := by
  rcases d.devoiceFinal_cases with heq | ⟨fault, -, heq⟩ |
    ⟨i, t, final, sub, nearest, -, ht, hfinal, hjhal, -, -, hmem, -, heq⟩
  · rw [heq]
    exact rfl
  · rw [heq]
    exact rfl
  · have hno : ∀ c ∈ SoundClass.car.sounds, Sound.isAc c = false :=
      SoundClass.forall_ofText (by decide)
    rw [heq]
    refine optionally_sameVowels fun u hu => ?_
    cases ht.symm.trans hu
    obtain ⟨init, htext, hset⟩ := Term.cut_antya hfinal
    rw [hset, htext]
    simp [hno sub hmem, SoundRule.isAc_of_jhal hjhal]

-- From a text without a hiatus the last chapters come to a text without one.
theorem joinConsonants_hiatusFree {d : Derivation} (h : d.text.HiatusFree) :
    d.joinConsonants.Leaves (·.text.HiatusFree) := by
  have hpass (p : ConsonantPass) (e : Derivation) (he : e.text.HiatusFree) :
      (e.pass p).Leaves (·.text.HiatusFree) :=
    Outcome.Leaves.imp (pass_sameVowels p e) fun f hf => he.of_vowelPattern hf
  have hthroat := hpass .throat _ (dropFinalOfCluster_hiatusFree h)
  have hfinish := hthroat.map finishWord fun e he =>
    he.of_vowelPattern (finishWord_sameVowels e)
  have hsoft := (((((hfinish.andThen _ (hpass .anusvara)).andThen _ (hpass .suffixS)).andThen _
    (hpass .palatal)).andThen _ (hpass .retroflex)).andThen _ (hpass .soft))
  have hcopy := hsoft.andThen deaspirateCopy fun e he =>
    Outcome.Leaves.imp (deaspirateCopy_sameVowels e) fun f hf => he.of_vowelPattern hf
  have hfinal := (hcopy.andThen _ (hpass .hard)).andThen devoiceFinal fun e he =>
    Outcome.Leaves.imp (devoiceFinal_sameVowels e) fun f hf => he.of_vowelPattern hf
  rw [joinConsonants_eq]
  exact hfinal.andThen _ (hpass .nasal)

theorem joinVowels_hiatusFree (d : Derivation) :
    ∃ e, d.joinVowels = .done e ∧ e.text.HiatusFree := by
  obtain ⟨e, hdone, hturn⟩ := d.joinVowels_rests
  exact ⟨e, hdone, hiatusFree_of_restsInTurn hturn⟩

theorem conjugate_hiatusFree (root : Root) (form : VerbForm) (d : Derivation) :
    (d.conjugate root form).Ends (·.text.HiatusFree) fun _ => True := by
  unfold conjugate
  have hvowels : ∀ e : Derivation, e.joinVowels.Ends (·.text.HiatusFree) fun _ => True := by
    intro e
    obtain ⟨f, hdone, hfree⟩ := e.joinVowels_hiatusFree
    rw [hdone]
    exact hfree
  refine Outcome.Ends.andThen ((Outcome.ends_trivial _).andThen joinVowels fun e _ => hvowels e)
    joinConsonants fun e he => ?_
  exact (joinConsonants_hiatusFree he).ends

end Derivation

-- No two vowels meet after the vowel rules, however the text is split into terms, and the last
-- chapters do not bring any together, whether they come to their end or lack a sound. So no form
-- has a hiatus.
theorem no_hiatus_survives :
    (∀ d : Derivation, ∃ e, d.joinVowels = .done e ∧ e.text.HiatusFree) ∧
    (∀ d : Derivation, d.text.HiatusFree →
      d.joinConsonants.Leaves (·.text.HiatusFree) ∧
      (d.table.Covers SoundClass.substituted.sounds → ∃ e, d.joinConsonants = .done e)) ∧
    ∀ root form recording table forms, verbForms root form recording table = .ok forms →
      ∀ d ∈ forms, d.text.HiatusFree := by
  refine ⟨Derivation.joinVowels_hiatusFree, fun d hd => ⟨Derivation.joinConsonants_hiatusFree hd,
    fun hcovers => ?_⟩, ?_⟩
  · have hends := Derivation.joinConsonants_ends (List.mem_singleton_self "8.4.56") d
    rcases hjoin : d.joinConsonants with e | ⟨fault, e⟩
    · exact ⟨e, rfl⟩
    · rw [hjoin] at hends
      exact absurd hcovers (FeatureTable.Lacks.not_covers hends)
  · intro root form recording table forms hforms d hd
    obtain ⟨choices, hrun⟩ := run_of_mem_verbForms hforms hd
    exact of_run_done hrun (Derivation.conjugate_hiatusFree root form _)

end Vyakarana
