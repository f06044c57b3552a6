import Vyakarana.Proofs.Derivation.Alteration
import Vyakarana.Proofs.Grammar.FinalSandhi
import Vyakarana.Proofs.Grammar.TermRules

/-!
What the rules of the stem may do.

The copy is reduced, the stem is prepared, strengthened and joined with its suffix by rules that alter
one term or nothing. Here it is said once which of them makes which change of which term. The others
put an augment into the row, ask an optional rule, or contract the perfect; what they do is told by
cases. Each thing that the stem keeps while it is shaped follows from this.
-/

namespace Vyakarana

-- 7.4.59 to 7.4.73, of the copy.
inductive CopyChange : Rule → (Term → Term) → Prop
  | firstConsonant : CopyChange "7.4.60" fun t => t.setText (keepOneConsonant 0 t.text)
  | secondConsonant : CopyChange "7.4.61" fun t => t.setText (keepOneConsonant 1 t.text)
  | palatal {sub : Char} (hsub : sub ∈ Sound.cu.sounds) : CopyChange "7.4.62" (·.setAdi [sub])
  | shortVowel {vowel short : Char} (hshort : Sound.hrasva? vowel = some short) :
      CopyChange "7.4.59" (·.replaceText [vowel] [short])
  | aForF : CopyChange "7.4.66" (·.replaceText ['f'] ['a'])
  | longInitial : CopyChange "7.4.70" (·.setAdi ['A'])
  | finalA : CopyChange "7.4.73" (·.setAntya ['a'])

-- 7.1.3 and 6.4.48 to 6.4.55, before the stem is strengthened.
inductive PreparingChange : Tag → Rule → (Term → Term) → Prop
  | antForJ : PreparingChange .tin "7.1.3" (·.substituteAdi "ant".toList)
  | finalALost : PreparingChange .dhatu "6.4.48" (·.setAntya [])
  | ayForRic : PreparingChange .dhatu "6.4.55" (·.setText "ay".toList)
  | ricLost : PreparingChange .dhatu "6.4.51" (·.elide)

-- 6.4.77 to 6.4.105, 7.2.81 and 7.3.101, where the stem meets its suffix.
inductive JoiningChange : Tag → Rule → (Term → Term) → Prop
  | semivowel : JoiningChange .dhatu "6.4.82" (·.setAntya ['y'])
  | iy : JoiningChange .dhatu "6.4.77" (·.setAntya "iy".toList)
  | uv : JoiningChange .dhatu "6.4.77" (·.setAntya "uv".toList)
  | hiLost : JoiningChange .tin "6.4.105" (·.elide)
  | iyForA : JoiningChange .tin "7.2.81" (·.substituteAdi "iy".toList)
  | longA {tag : Tag} (htag : tag ∈ [.dhatu, .vikarana]) :
      JoiningChange tag "7.3.101" (·.setAntya ['A'])

section Kinds

variable {tag : Tag} {rule : Rule} {change : Term → Term}

theorem CopyChange.kind (h : CopyChange rule change) (t : Term) : (change t).kind = t.kind := by
  cases h <;> simp

theorem PreparingChange.kind (h : PreparingChange tag rule change) (t : Term) :
    (change t).kind = t.kind := by
  cases h <;> simp

theorem JoiningChange.kind (h : JoiningChange tag rule change) (t : Term) :
    (change t).kind = t.kind := by
  cases h <;> simp

end Kinds

-- Guna and vrddhi, of the roots.
def StrengthensRoot (_ : Nat) (t : Term) (rule : Rule) (change : Term → Term) : Prop :=
  t.hasTag .dhatu = true ∧ t.Strengthens rule change

-- 6.4.72 and 6.4.71: the rules of the past tenses, with their augments.
def pastAugments : List (Rule × Text) := [("6.4.72", "Aw".toList), ("6.4.71", "aw".toList)]

namespace Derivation

variable {d : Derivation} {i : Nat}

section Doubling

-- 6.1.8 to 6.1.5 for the root at `i`.
def doubleAt (i : Nat) (root : Term) (d : Derivation) : Derivation :=
  let copy : Term := { Term.ofText root.text with gana := root.gana }
  let d := ((d.insertTerm i copy).record "6.1.8").alter "6.1.4" i (·.addTag .abhyasa)
  ((d.update i (·.addTag .abhyasta)).update ((i + 1 : Nat) : Int) (·.addTag .abhyasta)).record
    "6.1.5"

theorem reduplicate_of_cut {before after : List Term} {t : Term} (h : d.terms = before ++ t :: after)
    (ht : t.hasTag .dhatu = true) (hafter : ∀ u ∈ after, u.hasTag .dhatu = false) :
    d.reduplicate =
      if !d.isPerfect || t.hasTag .abhyasta then d else d.doubleAt before.length t := by
  unfold reduplicate
  rw [lastTagged?_of_cut h ht hafter]
  dsimp only
  rw [term_of_cut h]
  rfl

-- In the perfect the last root is doubled, unless it has been; nothing else happens to a row.
theorem reduplicate_cases (d : Derivation) :
    d.reduplicate = d ∨ ∃ before t after, d.terms = before ++ t :: after ∧
      t.hasTag .dhatu = true ∧ (∀ u ∈ after, u.hasTag .dhatu = false) ∧ d.isPerfect = true ∧
      t.hasTag .abhyasta = false ∧ d.reduplicate = d.doubleAt before.length t := by
  cases hlast : d.lastTagged? .dhatu with
  | none =>
      left
      unfold reduplicate
      rw [hlast]
  | some i =>
      obtain ⟨before, t, after, hterms, rfl, ht, hafter⟩ := cut_of_findLast? hlast
      have hcut := reduplicate_of_cut hterms ht hafter
      by_cases hidle : (!d.isPerfect || t.hasTag .abhyasta) = true
      · left
        rw [hcut, if_pos hidle]
      · right
        rw [if_neg hidle] at hcut
        simp only [Bool.or_eq_true, Bool.not_eq_true', not_or, Bool.not_eq_true,
          Bool.not_eq_false] at hidle
        exact ⟨before, t, after, hterms, ht, hafter, hidle.1, hidle.2, hcut⟩

end Doubling

section Copy

theorem alters_dropConsonants (i : Nat) (d : Derivation) :
    Alters (OnlyAt CopyChange i) d (d.dropConsonants i) := by
  unfold dropConsonants
  split
  · exact .self
  · split
    · exact alters_at .secondConsonant i d
    · split
      · exact alters_at .firstConsonant i d
      · exact .self

theorem decode_kuAndH : SoundClass.decode kuAndH = .ok kuAndHSounds := by rfl

theorem palatalize_alters (i : Nat) (d : Derivation) :
    (d.palatalize i).Ends (Alters (OnlyAt CopyChange i) d)
      (d.table.Lacks (kuAndHSounds.sounds ++ Sound.cu.sounds)) := by
  unfold palatalize
  split
  · exact .self
  · rename_i first _
    split
    · exact .self
    · rcases d.table.mapSounds_cases decode_kuAndH SoundClass.decode_cu (by decide) with
        ⟨palatals, hok, hmaps, -⟩ | ⟨fault, herror, hlacks⟩
      · rw [hok]
        dsimp only
        split
        · rename_i sub hsub
          exact alters_at (.palatal (hmaps.nearest first sub hsub).mem) i d
        · exact .self
      · rw [herror]
        exact hlacks

theorem alters_shortenVowel (i : Nat) (d : Derivation) :
    Alters (OnlyAt CopyChange i) d (d.shortenVowel i) := by
  unfold shortenVowel
  split
  · exact .self
  · split
    · exact .self
    · rename_i short hshort
      split
      · exact .self
      · exact alters_at (.shortVowel hshort) i d

theorem alters_replaceF (i : Nat) (d : Derivation) :
    Alters (OnlyAt CopyChange i) d (d.replaceF i) := by
  unfold replaceF
  split
  · exact alters_at .aForF i d
  · exact .self

theorem alters_fitPerfectVowel (i : Nat) (d : Derivation) :
    Alters (OnlyAt CopyChange i) d (d.fitPerfectVowel i) := by
  have hinitial : Alters (OnlyAt CopyChange i) d
      (if d.has i (·.adi? == some 'a') then d.alter "7.4.70" i (·.setAdi ['A']) else d) := by
    split
    · exact alters_at .longInitial i d
    · exact .self
  unfold fitPerfectVowel
  dsimp only
  generalize (if d.has i (·.adi? == some 'a') then d.alter "7.4.70" i (·.setAdi ['A']) else d) = e
    at hinitial ⊢
  split
  · exact hinitial
  · split
    · exact hinitial.trans (alters_at .finalA i e)
    · exact hinitial

-- If there is a copy it is reduced, and nothing else happens to the row.
theorem reduceCopy_ends {P : Derivation → Prop} (hself : P d)
    (hcopy : ∀ i e, d.firstTagged? .abhyasa = some i → Alters (OnlyAt CopyChange i) d e → P e) :
    d.reduceCopy.Ends P (d.table.Lacks (kuAndHSounds.sounds ++ Sound.cu.sounds)) := by
  unfold reduceCopy
  split
  · exact hself
  · rename_i i hfirst
    have hdrop := alters_dropConsonants i d
    have hpalatal := palatalize_alters i (d.dropConsonants i)
    rw [table_eq_of_background hdrop.background] at hpalatal
    refine hpalatal.map _ fun e he => hcopy i _ hfirst ?_
    have hreduced := ((hdrop.trans he).trans (alters_shortenVowel i e)).trans (alters_replaceF i _)
    dsimp only
    split
    · exact hreduced.trans (alters_fitPerfectVowel i _)
    · exact hreduced

end Copy

section Preparation

theorem alters_replaceJ (d : Derivation) :
    Alters (OnTagged PreparingChange [.tin]) d d.replaceJ := by
  unfold replaceJ
  split
  · exact .self
  · rename_i i hlast
    split
    · exact alters_of_lastTagged? hlast (List.mem_singleton_self _) .antForJ
    · exact .self

theorem augmentPast_cases (d : Derivation) :
    d.augmentPast = .done d ∨ ∃ before t after, ∃ x ∈ pastAugments,
      d.lastEnding?.any (·.hasLakshanaIn ["la~N".toList, "lu~N".toList, "lf~N".toList]) = true ∧
      d.terms = before ++ t :: after ∧ t.hasTag .dhatu = true ∧
      d.augmentPast = d.augmentBefore x.1 before.length x.2 := by
  unfold augmentPast
  split
  · rename_i hpast
    split
    · exact .inl rfl
    · rename_i i hfirst
      obtain ⟨before, t, after, hterms, rfl, hroot⟩ := cut_of_firstTagged? hfirst
      refine .inr ⟨before, t, after, ?_⟩
      split
      · exact ⟨_, List.mem_cons_self, hpast, hterms, hroot, rfl⟩
      · exact ⟨_, List.mem_cons_of_mem _ (List.mem_singleton_self _), hpast, hterms, hroot, rfl⟩
  · exact .inl rfl

theorem cut_of_lastRoot? {u : Text} (h : d.lastRoot? u = some i) :
    ∃ before t after, d.terms = before ++ t :: after ∧ before.length = i ∧
      t.hasTag .dhatu = true := by
  obtain ⟨before, t, after, hterms, hi, ht, -⟩ := cut_of_findLast? h
  rw [Bool.and_eq_true] at ht
  exact ⟨before, t, after, hterms, hi, ht.1⟩

theorem augmentBhu_cases (d : Derivation) :
    d.augmentBhu = .done d ∨ ∃ before t after, d.terms = before ++ t :: after ∧
      t.hasTag .dhatu = true ∧
      d.augmentBhu = (d.augmentAfter "6.4.88" before.length "vu~k".toList).map fun e =>
        e.update before.length (·.addTag .gunaExempt) := by
  unfold augmentBhu
  split
  · exact .inl rfl
  · rename_i i hlast
    obtain ⟨before, t, after, hterms, rfl, hroot⟩ := cut_of_lastRoot? hlast
    split
    · exact .inl rfl
    · split
      · exact .inr ⟨before, t, after, hterms, hroot, rfl⟩
      · exact .inl rfl

theorem alters_dropFinalA (d : Derivation) (i : Nat) :
    Alters (OnTagged PreparingChange [.dhatu]) d (d.dropFinalA i) := by
  unfold dropFinalA
  split
  · rename_i hroot
    obtain ⟨t, ht, hkind⟩ := term_of_has hroot
    simp only [Bool.and_eq_true] at hkind
    split
    · exact alters_of_term ht hkind.1.1 (List.mem_singleton_self _) .finalALost
    · exact .self
  · exact .self

theorem alters_dropRic (d : Derivation) :
    Alters (OnTagged PreparingChange [.dhatu]) d d.dropRic := by
  unfold dropRic
  split
  · exact .self
  · rename_i i hlast
    obtain ⟨before, t, after, hterms, rfl, hroot⟩ := cut_of_lastRoot? hlast
    have hric {rule : Rule} {change : Term → Term} (h : PreparingChange .dhatu rule change) :
        Alters (OnTagged PreparingChange [.dhatu]) d (d.alter rule before.length change) :=
      alters_of_term (term_of_cut hterms) hroot (List.mem_singleton_self _) h
    split
    · exact .self
    · split
      · exact .self
      · split
        · exact hric .ayForRic
        · exact hric .ricLost

-- The last part of the preparation.
theorem alters_dropA (d : Derivation) :
    Alters (OnTagged PreparingChange [.dhatu]) d (d.forEach dropFinalA).dropRic :=
  (alters_forEach alters_dropFinalA d).trans (alters_dropRic _)

end Preparation

section Strengthening

theorem relaxRal_cases (d : Derivation) :
    d.relaxRal = d ∨
      ∃ i : Nat, d.relaxRal = (d.optionally "7.1.91" (·.update i (·.removeTag (.it .R)))).2 := by
  unfold relaxRal
  split
  · exact .inl rfl
  · split
    · exact .inr ⟨_, rfl⟩
    · exact .inl rfl

theorem alters_strengthenAt (d : Derivation) (i : Nat) :
    Alters StrengthensRoot d (d.strengthenAt i) := by
  unfold strengthenAt
  split
  · rename_i root suffix hroot _
    split
    · exact .self
    · rename_i hno
      rw [Bool.not_eq_true, Bool.or_eq_false_iff, Bool.not_eq_false'] at hno
      split
      · rename_i rule change hchange
        exact .alter .self hroot ⟨hno.1, Term.strengthens_of_strengthening? hchange⟩
      · exact .self
  · exact .self

end Strengthening

section Contact

-- A root that begins as its copy does loses the copy, and only then is a step recorded.
theorem contractPerfect_cases (d : Derivation) :
    d.contractPerfect = d ∨ ∃ i copy root, ∃ rule ∈ ["6.4.120", "6.4.121"],
      d.firstTagged? .abhyasa = some i ∧ d.terms[i]? = some copy ∧ d.terms[i + 1]? = some root ∧
      isShortWithA root.text = true ∧ copy.adi? = root.adi? ∧
      d.contractPerfect = ((d.update ((i + 1 : Nat) : Int) (·.setUpadha ['e'])).update i
        (·.elide)).record rule := by
  unfold contractPerfect
  split
  · exact .inl rfl
  · rename_i i hfirst
    split
    · rename_i copy root suffix hcopy hroot _
      split
      · exact .inl rfl
      · rename_i hcontracts
        simp only [Bool.or_eq_true, Bool.not_eq_true', bne_iff_ne, ne_eq, not_or, Bool.not_eq_false,
          Decidable.not_not] at hcontracts
        obtain ⟨⟨-, hshort⟩, hsame⟩ := hcontracts
        dsimp only
        split
        · exact .inr ⟨i, copy, root, "6.4.120", by simp, hfirst, hcopy, hroot, hshort, hsame, rfl⟩
        · split
          · exact .inr ⟨i, copy, root, "6.4.121", by simp, hfirst, hcopy, hroot, hshort, hsame, rfl⟩
          · exact .inl rfl
    · exact .inl rfl

theorem alters_softenFinal (d : Derivation) (i : Nat) :
    Alters (OnTagged JoiningChange [.dhatu]) d (d.softenFinal i) := by
  unfold softenFinal
  split
  · exact .self
  · rename_i root hroot
    split
    · exact .self
    · rename_i hno
      rw [Bool.not_eq_true, Bool.or_eq_false_iff, Bool.not_eq_false'] at hno
      have hsoft {rule : Rule} {change : Term → Term} (h : JoiningChange .dhatu rule change) :
          Alters (OnTagged JoiningChange [.dhatu]) d (d.alter rule i change) :=
        alters_of_term hroot hno.1 (List.mem_singleton_self _) h
      dsimp only
      split
      · split
        · exact hsoft .semivowel
        · exact hsoft .iy
      · split
        · exact hsoft .uv
        · exact .self

theorem alters_dropHi (d : Derivation) : Alters (OnTagged JoiningChange [.tin]) d d.dropHi := by
  unfold dropHi
  split
  · exact .self
  · rename_i i hlast
    split
    · exact alters_of_lastTagged? hlast (List.mem_singleton_self _) .hiLost
    · exact .self

theorem alters_replaceEndingA (d : Derivation) :
    Alters (OnTagged JoiningChange [.tin]) d d.replaceEndingA := by
  unfold replaceEndingA
  split
  · exact .self
  · rename_i i hlast
    split
    · exact alters_of_lastTagged? hlast (List.mem_singleton_self _) .iyForA
    · exact .self

theorem alters_lengthenFinalA (d : Derivation) (i : Nat) :
    Alters (OnTagged JoiningChange [.dhatu, .vikarana]) d (d.lengthenFinalA i) := by
  unfold lengthenFinalA
  split
  · rename_i hstem
    obtain ⟨t, ht, hkind⟩ := term_of_has hstem
    obtain ⟨tag, hmem, htag⟩ := List.any_eq_true.mp ((Bool.and_eq_true _ _).mp hkind).1
    split
    · exact alters_of_term ht htag hmem (.longA hmem)
    · exact .self
  · exact .self

-- The suffixes meet the stem.
theorem alters_fitted (d : Derivation) :
    Alters (OnTagged JoiningChange [.dhatu, .tin, .vikarana]) d
      (d.dropHi.replaceEndingA.forEach lengthenFinalA) :=
  ((alters_dropHi d).trans (alters_replaceEndingA _)).of_tags (by decide) |>.trans <|
    (alters_forEach alters_lengthenFinalA _).of_tags (by decide)

-- All that happens after the perfect has been contracted.
theorem alters_joined (d : Derivation) :
    Alters (OnTagged JoiningChange [.dhatu, .tin, .vikarana]) d
      ((d.forEach softenFinal).dropHi.replaceEndingA.forEach lengthenFinalA) :=
  ((alters_forEach alters_softenFinal d).of_tags (by decide)).trans (alters_fitted _)

end Contact

end Derivation

end Vyakarana
