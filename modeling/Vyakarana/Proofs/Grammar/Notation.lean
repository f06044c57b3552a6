import Vyakarana.Proofs.Derivation.Cuts
import Vyakarana.Proofs.Derivation.Spoken
import Vyakarana.Proofs.Grammar.TermRules

/-!
The notation of taught forms.

A taught form is written sound by sound. A tilde makes a vowel nasal, and an accent may close what
is written for a sound. `followsNotation` reads a text character by character and tells the texts
that are so written; a stripping leaves nothing of them but sounds.
-/

namespace Vyakarana

-- One sound as it is written.
structure NotationUnit where
  sound : Char
  nasal : Bool
  accent : Option Char
  sound_mem : sound ∈ Sound.alphabet
  isAc_of_nasal : nasal = true → Sound.isAc sound = true
  isAccent_of_mem : ∀ c ∈ accent, Stripping.isAccent c = true

namespace NotationUnit

def marks (nasal : Bool) (accent : Option Char) : Text :=
  (if nasal then ['~'] else []) ++ accent.toList

def text (x : NotationUnit) : Text := x.sound :: marks x.nasal x.accent

theorem not_mark_of_mem {c : Char} (h : c ∈ Sound.alphabet) :
    (c == '~') = false ∧ Stripping.isAccent c = false :=
  (by decide : ∀ c ∈ Sound.alphabet, (c == '~') = false ∧ Stripping.isAccent c = false) c h

theorem ne_tilde_of_isAccent {c : Char} (h : Stripping.isAccent c = true) : c ≠ '~' := by
  rintro rfl
  exact absurd h (by decide)

theorem head?_flatMap {units : List NotationUnit} {c : Char}
    (h : (units.flatMap text).head? = some c) : c ∈ Sound.alphabet := by
  cases units with
  | nil => cases h
  | cons x rest =>
      cases h
      exact x.sound_mem

end NotationUnit

namespace Text

open NotationUnit

def Notated (t : Text) : Prop := ∃ units : List NotationUnit, t = units.flatMap NotationUnit.text

-- The flags tell whether a tilde, and whether an accent, can be the next character.
def followsNotation : Bool → Bool → Text → Bool
  | _, _, [] => true
  | tilde, accent, c :: rest =>
    if c == '~' then tilde && followsNotation false true rest
    else if Stripping.isAccent c then accent && followsNotation false false rest
    else Sound.alphabet.contains c && followsNotation (Sound.isAc c) true rest

variable {s t : Text}

theorem followsNotation_of_append {tilde accent : Bool}
    (h : followsNotation tilde accent (s ++ t) = true) : followsNotation tilde accent s = true := by
  induction s generalizing tilde accent with
  | nil => rfl
  | cons c rest ih =>
      rw [List.cons_append, followsNotation] at h
      rw [followsNotation]
      split
      · rename_i htilde
        rw [if_pos htilde, Bool.and_eq_true] at h
        exact (Bool.and_eq_true _ _).mpr ⟨h.1, ih h.2⟩
      · rename_i htilde
        rw [if_neg htilde] at h
        split
        · rename_i haccent
          rw [if_pos haccent, Bool.and_eq_true] at h
          exact (Bool.and_eq_true _ _).mpr ⟨h.1, ih h.2⟩
        · rename_i haccent
          rw [if_neg haccent, Bool.and_eq_true] at h
          exact (Bool.and_eq_true _ _).mpr ⟨h.1, ih h.2⟩

theorem followsNotation_marks {nasal tilde : Bool} {mark : Option Char}
    (hnasal : nasal = true → tilde = true) (hmark : ∀ c ∈ mark, Stripping.isAccent c = true)
    (h : ∀ tilde accent, followsNotation tilde accent t = true) :
    followsNotation tilde true (marks nasal mark ++ t) = true := by
  have haccent : ∀ tilde, followsNotation tilde true (mark.toList ++ t) = true := by
    intro tilde
    cases mark with
    | none => exact h tilde true
    | some c =>
        have hc := hmark c rfl
        rw [Option.toList_some, List.singleton_append, followsNotation,
          if_neg (by simp [ne_tilde_of_isAccent hc]), if_pos hc]
        exact h false false
  cases nasal with
  | false => exact haccent tilde
  | true =>
      rw [hnasal rfl]
      exact haccent false

theorem followsNotation_units (units : List NotationUnit) (tilde accent : Bool) :
    followsNotation tilde accent (units.flatMap NotationUnit.text) = true := by
  induction units generalizing tilde accent with
  | nil => rfl
  | cons x rest ih =>
      obtain ⟨htilde, haccent⟩ := not_mark_of_mem x.sound_mem
      rw [List.flatMap_cons, NotationUnit.text, List.cons_append, followsNotation,
        if_neg (by simp [htilde]), if_neg (by simp [haccent]),
        List.contains_iff_mem.mpr x.sound_mem, Bool.true_and]
      exact followsNotation_marks x.isAc_of_nasal x.isAccent_of_mem ih

-- What a text begins with, where it goes on in the notation: the rest of a unit, and more units.
theorem exists_units {tilde accent : Bool} (h : followsNotation tilde accent t = true) :
    ∃ (nasal : Bool) (mark : Option Char) (units : List NotationUnit),
      t = marks nasal mark ++ units.flatMap NotationUnit.text ∧
      (nasal = true → tilde = true) ∧ (mark.isSome → accent = true ∨ nasal = true) ∧
      ∀ c ∈ mark, Stripping.isAccent c = true := by
  induction t generalizing tilde accent with
  | nil => exact ⟨false, none, [], rfl, by simp, by simp, by simp⟩
  | cons c rest ih =>
      rw [followsNotation] at h
      split at h
      · rename_i hc
        obtain ⟨htilde, hrest⟩ := (Bool.and_eq_true _ _).mp h
        obtain ⟨nasal, mark, units, rfl, hnasal, -, hmark⟩ := ih hrest
        cases nasal with
        | true => cases hnasal rfl
        | false => exact ⟨true, mark, units, by rw [beq_iff_eq.mp hc]; rfl, fun _ => htilde,
            fun _ => .inr rfl, hmark⟩
      · split at h
        · rename_i hc
          obtain ⟨haccent, hrest⟩ := (Bool.and_eq_true _ _).mp h
          obtain ⟨nasal, mark, units, rfl, hnasal, hsome, -⟩ := ih hrest
          cases nasal with
          | true => cases hnasal rfl
          | false =>
              cases mark with
              | some _ => simp at hsome
              | none => exact ⟨false, some c, units, rfl, by simp, fun _ => .inl haccent,
                  by simpa using hc⟩
        · obtain ⟨hc, hrest⟩ := (Bool.and_eq_true _ _).mp h
          obtain ⟨nasal, mark, units, rfl, hnasal, -, hmark⟩ := ih hrest
          let unit : NotationUnit :=
            ⟨c, nasal, mark, List.contains_iff_mem.mp hc, hnasal, hmark⟩
          exact ⟨false, none, unit :: units, rfl, by simp, by simp, by simp⟩

theorem notated_iff : t.Notated ↔ followsNotation false false t = true := by
  constructor
  · rintro ⟨units, rfl⟩
    exact followsNotation_units units false false
  · intro h
    obtain ⟨nasal, mark, units, rfl, hnasal, hsome, -⟩ := exists_units h
    cases nasal with
    | true => cases hnasal rfl
    | false =>
        cases mark with
        | some _ => simp at hsome
        | none => exact ⟨units, rfl⟩

instance (t : Text) : Decidable t.Notated := decidable_of_iff _ notated_iff.symm

example : Notated "YiDf\\za~\\".toList := by decide
example : ¬Notated "k~".toList := by decide

theorem Notated.left_of_append (h : Notated (s ++ t)) : s.Notated :=
  notated_iff.mpr (followsNotation_of_append (notated_iff.mp h))

theorem Notated.take (h : t.Notated) (n : Nat) : Notated (t.take n) :=
  left_of_append (t := t.drop n) (by rwa [List.take_append_drop])

theorem Notated.beforeIr (h : t.Notated) : t.beforeIr.Notated := by
  unfold Text.beforeIr
  split
  · exact h.take _
  · split
    · exact h.take _
    · exact h

end Text

namespace Stripping

open NotationUnit

variable {t : Text}

theorem nasalTail?_eq_none {rest : Text} (h : rest.head? ≠ some '~') (v : Char) :
    nasalTail? v rest = none := by
  rw [nasalTail?, if_neg]
  rw [Bool.and_eq_true, beq_iff_eq]
  exact fun hnasal => h hnasal.2

theorem head?_units (units : List NotationUnit) :
    (units.flatMap NotationUnit.text).head? ≠ some '~' ∧
      (units.flatMap NotationUnit.text).head?.any isAccent = false := by
  rcases hhead : (units.flatMap NotationUnit.text).head? with _ | c
  · simp
  · obtain ⟨htilde, haccent⟩ := not_mark_of_mem (head?_flatMap hhead)
    exact ⟨by simpa using htilde, haccent⟩

-- A nasal vowel goes with all that is written for it, and anything else stays.
theorem withoutNasalsFrom_unit (x : NotationUnit) (rest : List NotationUnit) :
    withoutNasalsFrom 0 (x.text ++ rest.flatMap NotationUnit.text) =
      (if x.nasal then [] else x.text) ++ withoutNasalsFrom 0 (rest.flatMap NotationUnit.text) := by
  obtain ⟨htilde, haccent⟩ := head?_units rest
  generalize rest.flatMap NotationUnit.text = after at htilde haccent ⊢
  obtain ⟨v, nasal, mark, -, hac, hmark⟩ := x
  dsimp only [NotationUnit.text, marks]
  rw [List.cons_append, withoutNasalsFrom]
  cases nasal with
  | true =>
      rw [nasalTail?, hac rfl, if_pos rfl]
      cases mark with
      | none => simp [← List.head?_eq_getElem?, haccent, withoutNasalsFrom]
      | some c => simp [hmark c rfl, withoutNasalsFrom]
  | false =>
      cases mark with
      | none => simp [nasalTail?_eq_none htilde]
      | some c =>
          have hc : (c :: after).head? ≠ some '~' := by
            simpa using ne_tilde_of_isAccent (hmark c rfl)
          simp [nasalTail?_eq_none hc, withoutNasalsFrom, nasalTail?_eq_none htilde]

theorem withoutNasals_units (units : List NotationUnit) :
    withoutNasals (units.flatMap NotationUnit.text) =
      (units.filter (!·.nasal)).flatMap NotationUnit.text := by
  induction units with
  | nil => rfl
  | cons x rest ih =>
      rw [List.flatMap_cons, withoutNasals, withoutNasalsFrom_unit, ← withoutNasals, ih]
      cases hnasal : x.nasal <;> simp [hnasal]

-- Without nasal vowels there is nothing to drop.
theorem withoutNasals_of_nil (h : nasalVowels t = []) : withoutNasals t = t := by
  induction t with
  | nil => rfl
  | cons v rest ih =>
      rw [nasalVowels] at h
      split at h
      · cases h
      · rename_i hnasal
        rw [withoutNasals, withoutNasalsFrom, nasalTail?, if_neg hnasal]
        exact congrArg (v :: ·) (ih h)

theorem ne_nil_of_nasalTags {v : Char} {accent : Option Char} {tags : List Tag}
    (h : nasalTags v accent = .ok tags) : tags ≠ [] := by
  obtain ⟨marker, -, rfl⟩ := exists_of_map_ok h
  split <;> simp

-- Each nasal vowel leaves a tag.
theorem nasalVowels_eq_nil (h : allNasalTags t = .ok []) : nasalVowels t = [] := by
  obtain ⟨rows, hok, hflat⟩ := exists_of_map_ok h
  rcases mapM_cases (fun (v, accent) => nasalTags v accent) (nasalVowels t) with
    ⟨rows', hok', hall⟩ | ⟨_, -, _, -, herror⟩
  · cases hok.symm.trans hok'
    rcases hvowels : nasalVowels t with _ | ⟨x, more⟩
    · rfl
    · rw [hvowels] at hall
      obtain ⟨row, hrow, hx⟩ := exists_of_mem_left hall x List.mem_cons_self
      exact absurd (List.flatten_eq_nil_iff.mp hflat row hrow) (ne_nil_of_nasalTags hx)
  · cases hok.symm.trans herror

theorem text_dropNasals {s : Stripping} {tags : List Tag}
    (h : allNasalTags s.term.text = .ok tags) :
    (s.dropNasals tags).term.text = withoutNasals s.term.text := by
  unfold dropNasals
  split
  · rename_i hempty
    rw [List.isEmpty_iff.mp hempty] at h
    exact (withoutNasals_of_nil (nasalVowels_eq_nil h)).symm
  · exact Term.text_addTags _ _

theorem text_readAccents (s : Stripping) :
    s.readAccents.term.text = s.term.text.filter fun c => !isAccent c := rfl

-- What is kept of a taught form are sounds.
theorem spoken_kept (h : t.Notated) :
    Text.Spoken ((withoutNasals t).filter fun c => !isAccent c) := by
  obtain ⟨units, rfl⟩ := h
  rw [withoutNasals_units]
  intro c hc
  obtain ⟨hc, haccent⟩ := List.mem_filter.mp hc
  obtain ⟨x, hx, hc⟩ := List.mem_flatMap.mp hc
  obtain ⟨-, hnasal⟩ := List.mem_filter.mp hx
  rw [Bool.not_eq_true'] at hnasal haccent
  rw [NotationUnit.text, marks, hnasal] at hc
  rcases List.mem_cons.mp hc with rfl | hc
  · exact x.sound_mem
  · cases haccent.symm.trans (x.isAccent_of_mem c (Option.mem_toList.mp hc))

section

variable (u : Text) (s : Stripping)

theorem dropFinal_sublist : (s.dropFinal u).term.text.Sublist s.term.text := by
  unfold dropFinal
  repeat' split
  all_goals first | exact List.Sublist.refl _ | exact List.dropLast_sublist _

theorem dropRootInitial_sublist : s.dropRootInitial.term.text.Sublist s.term.text := by
  unfold dropRootInitial
  repeat' split
  all_goals first | exact List.Sublist.refl _ | exact List.drop_sublist _ _

theorem dropSuffixInitial_sublist : (s.dropSuffixInitial u).term.text.Sublist s.term.text := by
  unfold dropSuffixInitial
  repeat' split
  all_goals first | exact List.Sublist.refl _ | exact List.drop_sublist _ _

theorem text_conclude : (s.conclude u).term.text = s.term.text := by
  unfold conclude
  split <;> rfl

end

-- A taught form that loses its markers without a fault is left with sounds.
theorem spoken_run {t : Term} {u : Text} (h : t.text.Notated) (hok : (run t u).fault = none) :
    (run t u).term.text.Spoken := by
  unfold run at hok ⊢
  dsimp only at hok ⊢
  split at hok
  · cases hok
  · rename_i tags htags
    set s : Stripping := ⟨dropIr t, [], none⟩ with hs
    have hread : ((s.dropNasals tags).readAccents).term.text.Spoken := by
      rw [text_readAccents, text_dropNasals htags, hs, text_dropIr]
      exact spoken_kept h.beforeIr
    generalize (s.dropNasals tags).readAccents = s' at hread ⊢
    have hfinal : (if endsInIr t.text then s' else s'.dropFinal u).term.text.Spoken := by
      split
      · exact hread
      · exact hread.sublist (dropFinal_sublist u s')
    rw [text_conclude]
    exact (hfinal.sublist (dropRootInitial_sublist _)).sublist (dropSuffixInitial_sublist u _)

end Stripping

namespace Derivation

variable {d : Derivation}

-- Among terms of sounds, a term in its notation loses its markers.
theorem spoken_dropMarkers {before after : List Term} {t : Term} {u : Text}
    (hd : d.terms = before ++ t :: after) (hothers : ∀ x ∈ before ++ after, x.text.Spoken)
    (hu : t.upadesha = some u) (ht : t.text.Notated) :
    (d.dropMarkers (before.length : Int)).Spoken := by
  have hterm := term_of_cut hd
  have hstripped : (d.dropMarkers (before.length : Int)).Ends
      (fun _ => (t.stripped u).text.Spoken) fun _ => True := by
    rw [dropMarkers_of_taught (show d.term? (before.length : Int) = some t from hterm) hu]
    exact (replay_ends _ _ d).imp (fun e he => Stripping.spoken_run ht he.2) fun _ _ => trivial
  refine ((dropMarkers_ends hterm hu).and hstripped).imp (fun e he => ?_) fun _ h => h
  rw [List.forall_mem_append] at hothers
  rw [Spoken, he.1.terms_of_cut hd rfl, List.forall_mem_append, List.forall_mem_cons]
  exact ⟨hothers.1, he.2, hothers.2⟩

theorem Spoken.insertTaught (h : d.Spoken) {n : Nat} (hn : n ≤ d.terms.length) {t : Term}
    {u : Text} (hu : t.upadesha = some u) (ht : t.text.Notated) (rule : Rule) :
    (((d.insertTerm n t).record rule).dropMarkers (n : Int)).Spoken := by
  have hcut : ((d.insertTerm n t).record rule).terms = d.terms.take n ++ t :: d.terms.drop n :=
    terms_record rule _
  have hlength : (d.terms.take n).length = n := by rw [List.length_take, Nat.min_eq_left hn]
  have hdrop := spoken_dropMarkers hcut (by rwa [List.take_append_drop]) hu ht
  rwa [hlength] at hdrop

theorem Spoken.augmentBefore (h : d.Spoken) {i : Nat} (hi : i < d.terms.length) {u : Text}
    (hu : u.Notated) (rule : Rule) : (d.augmentBefore rule i u).Spoken :=
  h.insertTaught (Nat.le_of_lt hi) rfl hu rule

theorem Spoken.augmentAfter (h : d.Spoken) {i : Nat} (hi : i < d.terms.length) {u : Text}
    (hu : u.Notated) (rule : Rule) : (d.augmentAfter rule i u).Spoken :=
  h.insertTaught hi rfl hu rule

theorem Spoken.suffixAfter (h : d.Spoken) {i : Nat} (hi : i < d.terms.length) {u : Text}
    (hu : u.Notated) (rule : Rule) (tags : List Tag) : (d.suffixAfter rule i u tags).Spoken := by
  refine h.insertTaught hi (u := u) ?_ ?_ rule
  · rw [Term.upadesha_addTags]
    rfl
  · rwa [Term.text_addTags]

theorem Spoken.substitute (h : d.Spoken) {sub : Text} (hsub : sub.Notated) (rule : Rule)
    (i : Nat) : (d.substitute rule i sub).Spoken := by
  unfold Derivation.substitute
  split
  · rename_i hsome
    obtain ⟨t, ht⟩ := Option.isSome_iff_exists.mp hsome
    obtain ⟨before, after, hd, rfl⟩ := cut_term (show d.terms[i]? = some t from ht)
    have hcut : ((d.update before.length (·.setUpadesha sub)).record rule).terms =
        before ++ t.setUpadesha sub :: after := by
      rw [terms_record, terms_update_of_cut hd rfl]
    refine spoken_dropMarkers hcut (fun x hx => h x ?_) rfl hsub
    rw [hd]
    exact (List.sublist_append_right [t] after).append_left before |>.subset hx
  · exact h

end Derivation

end Vyakarana
