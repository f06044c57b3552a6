import Vyakarana.Proofs.Grammar.StemRow
import Vyakarana.Proofs.Grammar.Trace

/-!
The guna steps of a stem.

Whether a root takes guna is told by its text and by what the suffix after it asks for. The stem is
strengthened in one pass, so that the guna steps of a derivation are those of the row which that pass
begins with: `gunaOf` reads them off the row.
-/

namespace Vyakarana

-- What a suffix asks of the vowel of the root before it.
inductive Grade
  | plain | guna | vrddhi
deriving DecidableEq, Repr

-- 7.3.84 or 7.3.86, whichever gives guna to a root with this text.
def gunaRule? (t : Text) : Option Rule := (Term.ofText t).gunaChange?.map (·.1)

-- The same before a suffix that asks for a grade. Vrddhi comes first where there is one.
def Grade.guna? (t : Text) : Grade → Option Rule
  | .plain => none
  | .guna => gunaRule? t
  | .vrddhi => if (Term.ofText t).vrddhiChange?.isSome then none else gunaRule? t

def anyTagged (tags : List Tag) (units : List Term) : Bool :=
  tags.any fun tag => units.any (·.hasTag tag)

-- What the suffix with these terms asks for.
def gradeOf (units : List Term) : Grade :=
  if !anyTagged [.sarvadhatuka, .ardhadhatuka] units || anyTagged [.it .k, .it .N] units then .plain
  else if units.getLast?.any (·.hasTagIn [.it .Y, .it .R]) then .vrddhi
  else .guna

section Grades

variable {root : Term} {suffix : View} {t : Text} {act : Rule × (Term → Term)}

theorem isGuna_of_gunaChange? (h : root.gunaChange? = some act) : isGuna act.1 = true := by
  unfold Term.gunaChange? at h
  repeat' split at h
  all_goals cases h
  all_goals rfl

theorem not_isGuna_of_vrddhiChange? (h : root.vrddhiChange? = some act) : isGuna act.1 = false := by
  unfold Term.vrddhiChange? at h
  repeat' split at h
  all_goals cases h
  all_goals rfl

-- Which rule gives guna is told by the text, and so is whether there is vrddhi.
theorem gunaRule?_text (root : Term) : root.gunaChange?.map (·.1) = gunaRule? root.text := rfl

theorem vrddhiChange?_text (root : Term) :
    (Term.ofText root.text).vrddhiChange?.isSome = root.vrddhiChange?.isSome := rfl

theorem filter_gunaChange? (root : Term) :
    (root.gunaChange?.map (·.1)).toList.filter isGuna = (gunaRule? root.text).toList := by
  rw [← gunaRule?_text]
  cases h : root.gunaChange? with
  | none => rfl
  | some act =>
      rw [Option.map_some, Option.toList_some]
      exact List.filter_cons_of_pos (isGuna_of_gunaChange? h)

-- Of the steps of a root before its suffix, those for guna. After 7.3.82 there is none.
theorem filter_strengthening? (hlast : suffix.units.getLast? = some suffix.last)
    (hS : suffix.hasTag (.it .S) = true → gradeOf suffix.units = .plain) :
    ((root.strengthening? suffix).map (·.1)).toList.filter isGuna =
      ((gradeOf suffix.units).guna? root.text).toList := by
  have hclass : anyTagged [.sarvadhatuka, .ardhadhatuka] suffix.units =
      suffix.hasTagIn [.sarvadhatuka, .ardhadhatuka] := rfl
  have hknit : anyTagged [.it .k, .it .N] suffix.units = suffix.isKnit := rfl
  unfold Term.strengthening?
  by_cases hmid : root.isTaught "YimidA~".toList && suffix.hasTag (.it .S)
  · rw [hS ((Bool.and_eq_true _ _).mp hmid).2]
    split <;> rfl
  · rw [if_neg hmid, gradeOf, hclass, hknit, hlast, Option.any_some]
    by_cases hno : suffix.hasTagIn [.sarvadhatuka, .ardhadhatuka] = true
    · rw [hno, if_neg (by decide), Bool.not_true, Bool.false_or]
      by_cases hblocked : suffix.isKnit = true
      · rw [if_pos hblocked, if_pos hblocked]
        rfl
      · rw [if_neg hblocked, if_neg hblocked]
        split
        · rw [Grade.guna?, vrddhiChange?_text]
          cases hvrddhi : root.vrddhiChange? with
          | none => exact filter_gunaChange? root
          | some act =>
              have hother := not_isGuna_of_vrddhiChange? hvrddhi
              exact List.filter_cons_of_neg (by rw [hother]; exact Bool.false_ne_true)
        · exact filter_gunaChange? root
    · rw [Bool.eq_false_of_not_eq_true hno]
      rfl

-- The last sound of such a text is a consonant, and so is the one before it.
theorem gunaRule?_of_samyoganta (h : Sound.isSamyoganta t = true) : gunaRule? t = none := by
  have hvowel : ∀ c ∈ SoundClass.ik.sounds, Sound.isHal c = false := by decide
  have hno {c : Char} (hc : Sound.isHal c = true) : SoundClass.ik.contains c = false := by
    by_contra hik
    rw [Bool.not_eq_false] at hik
    rw [hvowel c (List.contains_iff_mem.mp hik)] at hc
    cases hc
  rw [Sound.isSamyoganta, Bool.and_eq_true, Option.any_eq_true, Option.any_eq_true] at h
  obtain ⟨⟨final, hfinal, hhal⟩, ⟨before, hbefore, hhal'⟩⟩ := h
  have hantya : (Term.ofText t).antya? = some final := hfinal
  have hupadha : (Term.ofText t).upadha? = some before := hbefore
  rw [gunaRule?, Term.gunaChange?, hantya]
  dsimp only
  rw [hno hhal, if_neg (by decide), hupadha]
  dsimp only
  rw [hno hhal', Bool.false_and, Bool.false_and, if_neg (by decide)]
  rfl

theorem Grade.guna?_of_samyoganta (h : Sound.isSamyoganta t = true) (grade : Grade) :
    grade.guna? t = none := by
  cases grade with
  | plain => rfl
  | guna => exact gunaRule?_of_samyoganta h
  | vrddhi => rw [Grade.guna?, gunaRule?_of_samyoganta h, ite_self]

theorem Grade.guna?_nil (grade : Grade) : grade.guna? [] = none := by
  cases grade <;> rfl

end Grades

namespace Term

-- 7.1.91: the ending Ral without the R, if the rule is taken.
def relaxed (taken : Bool) (t : Term) : Term :=
  if t.ralRule?.isSome && taken then t.removeTag (.it .R) else t

theorem kind_relaxed (taken : Bool) (t : Term) : (t.relaxed taken).kind = t.kind := by
  unfold relaxed
  split
  · exact kind_removeTag_of_isMark rfl t
  · rfl

theorem hasTag_relaxed {x : Tag} (hx : x.isMark = false) (taken : Bool) (t : Term) :
    (t.relaxed taken).hasTag x = t.hasTag x := hasTag_eq_of_kind (t.kind_relaxed taken) hx

end Term

namespace Derivation

variable {d e : Derivation} {root t x : Term} {init augments before after : List Term}

-- The rules of the guna steps taken so far.
def gunaSteps (d : Derivation) : List Rule := d.rules.filter isGuna

theorem gunaSteps_of_recountsBy {told : Rule → Bool} (h : e.RecountsBy told d)
    (htold : ∀ rule, told rule = true → isGuna rule = false) : e.gunaSteps = d.gunaSteps := by
  have hsteps (f : Derivation) :
      f.gunaSteps = (f.history.filter (isGuna ·.rule)).map (·.rule) := List.filter_map
  rw [hsteps, hsteps, h.filter_history htold]

theorem not_isGuna_of_isPlain (rule : Rule) (h : isPlain rule = true) : isGuna rule = false := by
  rw [isPlain, Bool.and_eq_true, Bool.not_eq_true'] at h
  exact h.1

theorem not_isGuna_of_isContraction (rule : Rule) (h : isContraction rule = true) :
    isGuna rule = false := by
  rw [isContraction, Bool.or_eq_true, beq_iff_eq, beq_iff_eq] at h
  rcases h with rfl | rfl
  · rfl
  · rfl

-- The guna steps that the terms of a row get.
def gunaOf (row : List Term) : List Rule := (aheadRules strengtheningOf row).filter isGuna

theorem gunaOf_cons (t : Term) (after : List Term) :
    gunaOf (t :: after) =
      ((strengtheningOf t after).map (·.1)).toList.filter isGuna ++ gunaOf after := by
  rw [gunaOf, aheadRules, List.filter_append, gunaOf]

theorem gunaOf_append (h : ∀ t ∈ before, t.hasTag .dhatu = false) :
    gunaOf (before ++ after) = gunaOf after := by
  rw [gunaOf, aheadRules_append fun t ht => strengtheningOf_of_rootless (h t ht), gunaOf]

theorem gunaOf_of_rootless (h : ∀ t ∈ before, t.hasTag .dhatu = false) : gunaOf before = [] := by
  rw [gunaOf, aheadRules_eq_nil fun t ht => strengtheningOf_of_rootless (h t ht)]
  rfl

section Suffix

variable (haugments : ∀ t ∈ augments, t.hasTag .agama = true) (hx : x.hasTag .agama = false)
include haugments hx

-- The guna of a root before its suffix.
theorem filter_strengtheningOf (hroot : root.hasTag .dhatu = true)
    (hguna : root.hasTag .gunaExempt = false)
    (hS : anyTagged [.it .S] (augments ++ [x]) = true → gradeOf (augments ++ [x]) = .plain)
    (rest : List Term) :
    ((strengtheningOf root (augments ++ x :: rest)).map (·.1)).toList.filter isGuna =
      ((gradeOf (augments ++ [x])).guna? root.text).toList := by
  obtain ⟨v, hview, hunits, hlast, -⟩ := View.ofRow?_augmented 0 rest haugments hx
  have hend : v.units.getLast? = some v.last := by rw [hunits, hlast, List.getLast?_concat]
  have hS' : v.hasTag (.it .S) = true → gradeOf v.units = .plain := by
    intro h
    rw [hunits]
    apply hS
    rw [← hunits, anyTagged, List.any_cons, List.any_nil, Bool.or_false]
    exact h
  rw [strengtheningOf, hroot, hguna, hview, ← hunits]
  exact filter_strengthening? hend hS'

-- Before a suffix that asks for no grade there is no guna.
theorem filter_strengtheningOf_plain (hplain : gradeOf (augments ++ [x]) = .plain) (t : Term)
    (rest : List Term) :
    ((strengtheningOf t (augments ++ x :: rest)).map (·.1)).toList.filter isGuna = [] := by
  by_cases hno : (!t.hasTag .dhatu || t.hasTag .gunaExempt) = true
  · rw [strengtheningOf, if_pos hno]
    rfl
  · rw [Bool.or_eq_true, not_or, Bool.not_eq_true, Bool.not_eq_false', Bool.not_eq_true] at hno
    rw [filter_strengtheningOf haugments hx hno.1 hno.2 fun _ => hplain, hplain]
    rfl

end Suffix

-- 7.1.91
theorem relaxRal_of_last (hd : d.terms = init ++ [t]) (ht : t.hasTag .tin = true) :
    d.relaxRal.terms = init ++ [t.relaxed (d.choices.permits "7.1.91")] := by
  have hral : t.ralRule?.isSome = (t.isTaught "Ral".toList && t.hasTag (.purusha .uttama)) := by
    unfold Term.ralRule?
    cases t.isTaught "Ral".toList && t.hasTag (.purusha .uttama) <;> rfl
  unfold relaxRal Term.relaxed
  rw [lastTagged?_of_cut hd ht (by simp), hral]
  dsimp only
  rw [has_of_cut hd]
  by_cases hkind : (t.isTaught "Ral".toList && t.hasTag (.purusha .uttama)) = true
  · rw [if_pos hkind, hkind, Bool.true_and]
    rcases optionally_cases "7.1.91" (·.update init.length (·.removeTag (.it .R))) d with
      ⟨hpermits, heq⟩ | ⟨hpermits, heq⟩
    · rw [heq, hpermits]
      exact ((actsAt_update init.length (·.removeTag (.it .R)) (d.accept "7.1.91")).record
        "7.1.91").terms_of_cut hd rfl
    · rw [heq, hpermits]
      exact hd
  · rw [if_neg hkind, Bool.eq_false_of_not_eq_true hkind]
    exact hd

-- The guna steps of a stem are those of its row, the ending being relaxed first.
theorem gunaSteps_strengthenStem (hd : d.terms = init ++ [t]) (ht : t.hasTag .tin = true)
    (hon : d.recording = true) :
    d.strengthenStem.gunaSteps =
      d.gunaSteps ++ gunaOf (init ++ [t.relaxed (d.choices.permits "7.1.91")]) := by
  have hrelax := recountsBy_relaxRal d
  have hrules := (looksAhead_strengthenAt.forEach d.relaxRal).2.2 (hrelax.recording.trans hon)
  rw [relaxRal_of_last hd ht] at hrules
  rw [strengthenStem, gunaSteps, hrules, List.filter_append,
    ← gunaSteps_of_recountsBy hrelax not_isGuna_of_isPlain]
  rfl

end Derivation

end Vyakarana
