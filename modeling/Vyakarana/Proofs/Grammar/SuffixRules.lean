import Vyakarana.Grammar.Forms
import Vyakarana.Proofs.Derivation.Alteration
import Vyakarana.Proofs.Grammar.TermRules

/-!
What the rules of the suffixes may do.

A suffix gets its class, and counts as having a marker, by a tag. Before the augment iw comes into the
row, rules are recorded and optional ones are asked; what is kept by that is kept by all of 7.2.10 to
7.2.66. After that the augment comes in behind the last root, or it does not.
-/

namespace Vyakarana

-- 3.4.113 to 3.4.115, with the class that each gives.
def classRules : List (Rule × Tag) :=
  [("3.4.113", .sarvadhatuka), ("3.4.114", .ardhadhatuka), ("3.4.115", .ardhadhatuka)]

-- 1.2.4 and 1.2.5, with the marker that a suffix then counts as having.
def markerRules : List (Rule × Tag) := [("1.2.4", .it .N), ("1.2.5", .it .k)]

-- A rule adds its tag to a suffix.
def TagsSuffix (rules : List (Rule × Tag)) (_ : Nat) (t : Term) (rule : Rule)
    (change : Term → Term) : Prop :=
  t.hasTag .pratyaya = true ∧ ∃ x ∈ rules, rule = x.1 ∧ change = (·.addTag x.2)

-- The rules that keep the augment iw away, or say that it is wanted.
def itRules : List Rule := ["7.2.10", "7.2.13", "7.2.61", "7.2.62", "7.2.65", "7.2.66"]

namespace Derivation

variable {d : Derivation}

section Tags

theorem alters_tagSuffix {rules : List (Rule × Tag)} {x : Rule × Tag} {i : Nat} {t : Term}
    (ht : d.terms[i]? = some t) (hsuffix : t.hasTag .pratyaya = true) (hx : x ∈ rules) :
    Alters (TagsSuffix rules) d (d.alter x.1 i (·.addTag x.2)) :=
  .alter .self ht ⟨hsuffix, x, hx, rfl, rfl⟩

theorem alters_classifySuffixes (d : Derivation) :
    Alters (TagsSuffix classRules) d d.classifySuffixes := by
  refine alters_forEach (fun e i => ?_) d
  unfold classifySuffix
  split
  · exact .self
  · rename_i t ht
    split
    · exact .self
    · rename_i hno
      rw [Bool.not_eq_true, Bool.or_eq_false_iff, Bool.not_eq_false'] at hno
      split
      · exact alters_tagSuffix (x := ("3.4.115", .ardhadhatuka)) ht hno.1 (by decide)
      · split
        · exact alters_tagSuffix (x := ("3.4.113", .sarvadhatuka)) ht hno.1 (by decide)
        · exact alters_tagSuffix (x := ("3.4.114", .ardhadhatuka)) ht hno.1 (by decide)

theorem alters_extendMarkers (d : Derivation) :
    Alters (TagsSuffix markerRules) d d.extendMarkers := by
  refine alters_forEach (fun e i => ?_) d
  unfold extendMarker
  split
  · exact .self
  · rename_i t ht
    split
    · exact .self
    · rename_i hno
      rw [Bool.not_eq_true, Bool.or_eq_false_iff, Bool.not_eq_false'] at hno
      have hN : Alters (TagsSuffix markerRules) e (e.alter "1.2.4" i (·.addTag (.it .N))) :=
        alters_tagSuffix (x := ("1.2.4", .it .N)) ht hno.1 (by decide)
      have hk : Alters (TagsSuffix markerRules) e (e.alter "1.2.5" i (·.addTag (.it .k))) :=
        alters_tagSuffix (x := ("1.2.5", .it .k)) ht hno.1 (by decide)
      repeat' split
      all_goals first | exact .self | exact hN | exact hk

end Tags

section Augment

-- What stays true where such a rule is recorded, or an optional one is asked.
structure KeptByAsking (P : Derivation → Prop) : Prop where
  record : ∀ rule ∈ itRules, ∀ e : Derivation, P e → P (e.record rule)
  accept : ∀ rule ∈ optionalRules, ∀ e : Derivation, P e → P (e.accept rule)
  decline : ∀ rule ∈ optionalRules, ∀ e : Derivation, P e → P (e.decline rule)

namespace KeptByAsking

variable {P : Derivation → Prop} (hP : KeptByAsking P)
include hP

theorem talTakesItAfterVowel (root : Term) (h : P d) : P (d.talTakesItAfterVowel root).2 := by
  unfold Derivation.talTakesItAfterVowel
  split
  · exact hP.record _ (by decide) d h
  · split
    · exact hP.record _ (by decide) d h
    · rcases consult_cases "7.2.63" d with ⟨-, heq⟩ | ⟨-, heq⟩
      · rw [heq]
        exact hP.accept _ (by decide) d h
      · rw [heq]
        exact hP.record _ (by decide) _ (hP.decline _ (by decide) d h)

theorem talRefusesIt {rule : Rule} (hoptional : rule ∈ optionalRules) (hit : rule ∈ itRules)
    (h : P d) : P (d.talRefusesIt rule).2 := by
  unfold Derivation.talRefusesIt
  rcases consult_cases rule d with ⟨-, heq⟩ | ⟨-, heq⟩
  · rw [heq]
    exact hP.record _ hit _ (hP.accept _ hoptional d h)
  · rw [heq]
    exact hP.decline _ hoptional d h

theorem perfectTakesIt (root : Term) (tal : Bool) (h : P d) : P (d.perfectTakesIt root tal).2 := by
  unfold Derivation.perfectTakesIt
  split
  · exact hP.record _ (by decide) d h
  · split
    · exact h
    · split
      · exact hP.talTakesItAfterVowel root h
      · split
        · exact hP.talRefusesIt (by decide) (by decide) h
        · split
          · exact hP.talRefusesIt (by decide) (by decide) h
          · exact h

theorem takesIt (root : Term) (suffix : View) (h : P d) : P (d.takesIt root suffix).2 := by
  unfold Derivation.takesIt
  split
  · exact hP.perfectTakesIt root _ h
  · split
    · exact hP.record _ (by decide) d h
    · exact h

end KeptByAsking

end Augment

theorem addIt_cases (d : Derivation) :
    d.addIt = .done d ∨ ∃ before root after suffix, d.terms = before ++ root :: after ∧
      d.addIt = if (d.takesIt root suffix).1 then
          (d.takesIt root suffix).2.augmentAfter "7.2.35" before.length "iw".toList
        else .done (d.takesIt root suffix).2 := by
  unfold addIt
  split
  · exact .inl rfl
  · rename_i i hlast
    obtain ⟨before, t, after, hterms, rfl, -⟩ := cut_of_findLast? hlast
    rw [term_of_cut hterms]
    split
    · rename_i root suffix hroot _
      cases hroot
      split
      · exact .inl rfl
      · refine .inr ⟨before, t, after, suffix, hterms, ?_⟩
        rcases d.takesIt t suffix with ⟨_ | _, e⟩ <;> rfl
    · exact .inl rfl

end Derivation

end Vyakarana
