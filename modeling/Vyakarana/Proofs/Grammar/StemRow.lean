import Vyakarana.Proofs.Grammar.OptionalRules
import Vyakarana.Proofs.Grammar.Passes

/-!
The row of a stem, cut at its last root.

Between the suffixes and the strengthened stem each rule finds its term from the last root or from
the ending. Of a row that is cut there it can be told exactly what the rule makes of it: which terms
get a marker, whether the augment iw stands after the root, and what the root is before its suffix.
-/

namespace Vyakarana

namespace Term

-- A suffix with the marker that it is to count as having.
def marked (light : Bool) (t : Term) : Term :=
  (t.dueMarker? light).elim t fun mark => t.addTag mark.2

theorem hasTag_marked {x : Tag} (hx : x ≠ .it .N ∧ x ≠ .it .k) (light : Bool) (t : Term) :
    (t.marked light).hasTag x = t.hasTag x := by
  unfold marked
  cases hdue : t.dueMarker? light with
  | none => rfl
  | some mark =>
      rw [Option.elim_some]
      apply hasTag_addTag_of_ne
      rcases mem_dueMarkers hdue with ⟨htag, -⟩ | ⟨htag, -⟩
      · rw [htag]
        exact hx.1
      · rw [htag]
        exact hx.2

theorem lakshanas_marked (light : Bool) (t : Term) : (t.marked light).lakshanas = t.lakshanas := by
  unfold marked
  cases t.dueMarker? light <;> rfl

theorem tags_setAntya (s : Text) (t : Term) : (t.setAntya s).tags = t.tags := by
  unfold setAntya
  split <;> rfl

theorem marked_of_suffixless {t : Term} (h : t.hasTag .pratyaya = false) (light : Bool) :
    t.marked light = t := by
  rw [marked, dueMarker?, h]
  rfl

end Term

namespace Derivation

variable {d : Derivation} {before after init : List Term} {root t : Term}

theorem suffix?_of_cut (hd : d.terms = before ++ t :: after) :
    d.suffix? before.length = View.ofRow? (before.length + 1) after := by
  have hdrop : d.terms.drop (before.length + 1) = after := by
    rw [hd, List.append_cons, List.drop_left']
    simp
  calc d.suffix? before.length
      = View.ofRow? (before.length + 1) (d.terms.drop (before.length + 1)) := rfl
    _ = View.ofRow? (before.length + 1) after := by rw [hdrop]

section LastRoot

variable (hd : d.terms = before ++ root :: after) (hroot : root.hasTag .dhatu = true)
  (hafter : ∀ t ∈ after, t.hasTag .dhatu = false)
include hd hroot hafter

theorem followsLightRoot_of_cut {i : Nat} (hi : before.length < i) :
    d.followsLightRoot i = !root.isSamyoganta := by
  obtain ⟨k, rfl⟩ : ∃ k, i = before.length + (k + 1) := ⟨i - before.length - 1, by omega⟩
  have htake : d.terms.take (before.length + (k + 1)) = before ++ root :: after.take k := by
    rw [hd, List.take_length_add_append, List.take_succ_cons]
  have hlast : d.lastBefore? (before.length + (k + 1)) (·.hasTag .dhatu) = some before.length := by
    rw [lastBefore?, htake]
    exact lastIndex?_of_cut hroot fun u hu => hafter u (List.mem_of_mem_take hu)
  rw [followsLightRoot, hlast, Option.any_some, has_of_cut hd]

-- 1.2.4 and 1.2.5 mark what follows the last root.
theorem extendMarkers_of_cut (hplain : root.hasTag .pratyaya = false)
    (hbefore : ∀ t ∈ before, ∀ light, t.dueMarker? light = none) :
    d.extendMarkers.terms = before ++ root :: after.map (Term.marked (!root.isSamyoganta)) := by
  have hmap {row : List Term} {f : Nat → Term → Term} {g : Term → Term}
      (h : ∀ (i : Nat) (t : Term), t ∈ row → f i t = g t) : row.mapIdx f = row.map g := by
    refine List.ext_getElem? fun i => ?_
    rw [List.getElem?_mapIdx, List.getElem?_map]
    cases ht : row[i]? with
    | none => rfl
    | some t => exact congrArg some (h i t (List.mem_of_getElem? ht))
  rw [extendMarkers_eq_tagVisits, dueOnce_marker.forEach_terms, hd, List.mapIdx_append,
    List.mapIdx_cons]
  congr 1
  · rw [hmap (g := id) fun i t ht => by rw [hbefore t ht]; rfl, List.map_id]
  · congr 1
    · exact root.marked_of_suffixless hplain _
    · exact hmap fun i t _ => by
        rw [followsLightRoot_of_cut hd hroot hafter (by omega)]
        rfl

end LastRoot

end Derivation

-- The augment iw as it stands in the row.
def iwTerm : Term := (Term.ofAgama "iw".toList).stripped "iw".toList

-- Suffixes that the augment iw is not for.
def View.refusesIt (suffix : View) : Bool :=
  suffix.first.hasTag .agama || !suffix.hasTag .ardhadhatuka || !suffix.hasAdi (.oneOf .val)

namespace Derivation

variable {d : Derivation} {before after init : List Term} {root t : Term} {suffix : View}

section LastRoot

variable (hd : d.terms = before ++ root :: after) (hroot : root.hasTag .dhatu = true)
  (hafter : ∀ t ∈ after, t.hasTag .dhatu = false)
include hd hroot hafter

-- 7.2.35
theorem addIt_of_cut (hview : View.ofRow? (before.length + 1) after = some suffix) :
    d.addIt.Ends (fun e => e.terms = before ++ root ::
      ((if !suffix.refusesIt && (d.takesIt root suffix).1 then [iwTerm] else []) ++ after))
      fun _ => True := by
  have hat : d.view? ((before.length + 1 : Nat) : Int) = some suffix :=
    (suffix?_of_cut hd).trans hview
  have hskip : (suffix.first.hasTag .agama || !suffix.hasTag .ardhadhatuka ||
      !suffix.hasAdi (.oneOf .val)) = suffix.refusesIt := rfl
  have hkept := (takesIt_shows root suffix d).1
  unfold addIt
  rw [lastTagged?_of_cut hd hroot hafter]
  dsimp only
  rw [term_of_cut hd, hat]
  dsimp only
  rw [hskip]
  by_cases hrefuses : suffix.refusesIt = true
  · rw [if_pos hrefuses, hrefuses]
    exact hd
  · rw [if_neg hrefuses, Bool.eq_false_of_not_eq_true hrefuses]
    rcases htakes : d.takesIt root suffix with ⟨_ | _, e⟩
    · rw [htakes] at hkept
      exact hkept.trans hd
    · rw [htakes] at hkept
      exact (augmentAfter_ends (hkept.trans hd) "7.2.35" "iw".toList).imp (fun f hf => hf.1)
        fun _ h => h

end LastRoot

-- A root that is taught without the low accent, and named in none of the rules, takes the augment.
theorem takesIt_of_free (hanit : root.isAnit = false)
    (hkradi : root.hasTextIn kradi = false)
    (hsfj : root.hasTextIn ["sfj".toList, "dfS".toList] = false) (suffix : View) (d : Derivation) :
    (d.takesIt root suffix).1 = true := by
  unfold takesIt perfectTakesIt
  rw [hanit, hkradi, hsfj]
  simp only [Bool.false_and, Bool.false_eq_true, if_false]
  repeat' split
  all_goals rfl

section Ending

variable (hd : d.terms = init ++ [t]) (ht : t.hasTag .tin = true)
include hd ht

theorem isPerfect_of_last : d.isPerfect = t.hasLakshana "li~w".toList := by
  rw [isPerfect, lastTagged?_of_cut hd ht (by simp)]
  exact has_of_cut hd _

-- 7.1.3
theorem replaceJ_of_last : d.replaceJ.terms = init ++ [t.antForJ] := by
  have hacts := actsAt_ite (·.adi? == some 'J')
    (actsAt_alter "7.1.3" init.length (·.substituteAdi "ant".toList) d)
  have hrow := hacts.terms_of_cut hd rfl
  unfold replaceJ
  rw [lastTagged?_of_cut hd ht (by simp)]
  exact hrow

theorem lastEnding?_of_last : d.lastEnding? = some t := by
  rw [lastEnding?, lastTagged?_of_cut hd ht (by simp), Option.bind_some, term_of_cut hd]

theorem augmentPast_of_last (hpast : t.hasLakshanaIn pastLakaras = false) :
    d.augmentPast = .done d := by
  have hno : t.hasLakshanaIn ["la~N".toList, "lu~N".toList, "lf~N".toList] = false := hpast
  rw [augmentPast, lastEnding?_of_last hd ht, Option.any_some, hno]
  rfl

end Ending

-- 6.4.71 and 6.4.72: the augment of the past, if there is one, stands before the first root.
theorem augmentPast_of_first (hd : d.terms = root :: after) (hroot : root.hasTag .dhatu = true) :
    d.augmentPast.Ends (fun e => ∃ augments, e.terms = augments ++ root :: after ∧
      ∀ t ∈ augments, t.hasTag .dhatu = false) fun _ => True := by
  have hnone : ∃ augments, d.terms = augments ++ root :: after ∧
      ∀ t ∈ augments, t.hasTag .dhatu = false := ⟨[], hd, by simp⟩
  have haugment (rule : Rule) (u : Text) : (d.augmentBefore rule ((0 : Nat) : Int) u).Ends
      (fun e => ∃ augments, e.terms = augments ++ root :: after ∧
        ∀ t ∈ augments, t.hasTag .dhatu = false) fun _ => True := by
    have hcut : d.terms = [] ++ root :: after := hd
    refine (augmentBefore_ends hcut rule u).imp (fun e he => ⟨[_], he.1, ?_⟩) fun _ h => h
    rw [List.forall_mem_singleton]
    exact (isAugment_stripped u).dhatu
  unfold augmentPast
  split
  · have hcut : d.terms = [] ++ root :: after := hd
    rw [firstTagged?_of_cut hcut hroot (by simp)]
    dsimp only
    split
    · exact haugment _ _
    · exact haugment _ _
  · exact hnone

-- The copy of the root is the one term that is reduced.
theorem reduceCopy_of_cut {copy : Term} (hd : d.terms = before ++ copy :: after)
    (hcopy : copy.hasTag .abhyasa = true) (hbefore : ∀ t ∈ before, t.hasTag .abhyasa = false) :
    d.reduceCopy.Ends (fun e => ∃ copy', copy'.kind = copy.kind ∧
      e.terms = before ++ copy' :: after) fun _ => True := by
  refine (recastsAt_reduceCopy (firstTagged?_of_cut hd hcopy hbefore)).imp (fun e he => ?_)
    fun _ h => h
  obtain ⟨f, hf, hacts⟩ := he
  exact ⟨f copy, hf copy, hacts.terms_of_cut hd rfl⟩

-- Without a copy there is nothing to reduce.
theorem reduceCopy_of_uncopied (h : ∀ t ∈ d.terms, t.hasTag .abhyasa = false) :
    d.reduceCopy = .done d := by
  rw [reduceCopy, firstTagged?_eq_none h]

-- The last root that is taught as `u`, if it is the last root at all.
theorem lastRoot?_of_cut {u : Text} (hd : d.terms = before ++ root :: after)
    (hroot : root.hasTag .dhatu = true) (hafter : ∀ t ∈ after, t.hasTag .dhatu = false)
    (hu : root.isTaught u = true) : d.lastRoot? u = some before.length := by
  apply findLast?_of_cut hd
  · rw [hroot, hu, Bool.true_and]
  · intro t ht
    rw [hafter t ht, Bool.false_and]

theorem lastRoot?_eq_none {u : Text}
    (h : ∀ t ∈ d.terms, t.hasTag .dhatu = true → t.isTaught u = false) : d.lastRoot? u = none := by
  apply lastIndex?_eq_none.mpr
  intro t ht
  cases hdhatu : t.hasTag .dhatu with
  | false => rw [Bool.false_and]
  | true => rw [Bool.true_and, h t ht hdhatu]

-- 6.4.48: what a suffix does to a root that ends in a.
def lossOfA (t : Term) (after : List Term) : Option (Rule × (Term → Term)) :=
  if t.hasTag .dhatu && !t.hasTag .abhyasa && t.antya? == some 'a' then
    if (View.ofRow? 0 after).any (·.hasTag .ardhadhatuka) then some ("6.4.48", (·.setAntya []))
    else none
  else none

theorem looksAhead_dropFinalA : LooksAhead dropFinalA lossOfA := by
  intro e before t after he
  have hsuffix : (e.suffix? before.length).any (·.hasTag .ardhadhatuka) =
      (View.ofRow? 0 after).any (·.hasTag .ardhadhatuka) := by
    rw [suffix?_of_cut he, View.ofRow?_start]
    cases View.ofRow? 0 after <;> rfl
  unfold dropFinalA lossOfA
  rw [has_of_cut he, hsuffix]
  split
  · split <;> rfl
  · rfl

-- What a suffix does to the vowel of a root.
def strengtheningOf (t : Term) (after : List Term) : Option (Rule × (Term → Term)) :=
  if !t.hasTag .dhatu || t.hasTag .gunaExempt then none
  else (View.ofRow? 0 after).bind t.strengthening?

theorem looksAhead_strengthenAt : LooksAhead strengthenAt strengtheningOf := by
  intro e before t after he
  unfold strengthenAt strengtheningOf
  rw [term_of_cut he, suffix?_of_cut he, View.ofRow?_start]
  cases hview : View.ofRow? 0 after with
  | none =>
      rw [Option.bind_none, ite_self]
      rfl
  | some v =>
      have hsame : t.strengthening? { v with start := before.length + 1 } = t.strengthening? v := rfl
      rw [Option.map_some, Option.bind_some]
      dsimp only
      rw [hsame]
      split
      · rfl
      · cases t.strengthening? v <;> rfl

theorem lossOfA_of_rootless (h : t.hasTag .dhatu = false) (after : List Term) :
    lossOfA t after = none := by
  rw [lossOfA, h]
  rfl

theorem lossOfA_keeps (t : Term) (after : List Term) :
    ((lossOfA t after).elim t fun a => a.2 t).kind = t.kind ∧
      ((lossOfA t after).elim t fun a => a.2 t).tags = t.tags := by
  unfold lossOfA
  split
  · split
    · exact ⟨Term.kind_setAntya [] t, t.tags_setAntya []⟩
    · exact ⟨rfl, rfl⟩
  · exact ⟨rfl, rfl⟩

theorem strengtheningOf_of_rootless (h : t.hasTag .dhatu = false) (after : List Term) :
    strengtheningOf t after = none := by
  rw [strengtheningOf, h]
  rfl

end Derivation

namespace Derivation

variable {d : Derivation} {before after init : List Term} {root t : Term} {suffix : View}

theorem augmentBhu_of_other
    (h : ∀ t ∈ d.terms, t.hasTag .dhatu = true → t.isTaught "BU".toList = false) :
    d.augmentBhu = .done d := by
  rw [augmentBhu, lastRoot?_eq_none h]

theorem dropRic_of_other
    (h : ∀ t ∈ d.terms, t.hasTag .dhatu = true → t.isTaught "Ric".toList = false) :
    d.dropRic = d := by
  rw [dropRic, lastRoot?_eq_none h]

section OneRoot

variable (hd : d.terms = before ++ root :: after) (hroot : root.hasTag .dhatu = true)
  (hbefore : ∀ t ∈ before, t.hasTag .dhatu = false) (hafter : ∀ t ∈ after, t.hasTag .dhatu = false)
include hd

-- A property of all roots, where there is but one.
theorem forall_roots {P : Term → Prop} (hbefore : ∀ t ∈ before, t.hasTag .dhatu = false)
    (hafter : ∀ t ∈ after, t.hasTag .dhatu = false) (h : P root) :
    ∀ t ∈ d.terms, t.hasTag .dhatu = true → P t := by
  intro t ht hdhatu
  rw [hd, List.mem_append, List.mem_cons] at ht
  rcases ht with ht | rfl | ht
  · exact absurd hdhatu (by rw [hbefore t ht]; decide)
  · exact h
  · exact absurd hdhatu (by rw [hafter t ht]; decide)

include hroot hbefore hafter

-- 6.4.88 is for the perfect and the aorist.
theorem augmentBhu_of_suffix (hview : View.ofRow? (before.length + 1) after = some suffix)
    (hno : suffix.hasLakshanaIn ["li~w".toList, "lu~N".toList] = false) :
    d.augmentBhu = .done d := by
  cases hu : root.isTaught "BU".toList with
  | false => exact augmentBhu_of_other (forall_roots hd hbefore hafter hu)
  | true =>
      unfold augmentBhu
      rw [lastRoot?_of_cut hd hroot hafter hu]
      dsimp only
      rw [suffix?_of_cut hd, hview]
      dsimp only
      rw [hno, Bool.and_false]
      rfl

omit hbefore in
theorem augmentBhu_of_bhu (hu : root.isTaught "BU".toList = true)
    (hview : View.ofRow? (before.length + 1) after = some suffix)
    (hac : suffix.adi?.any Sound.isAc = true)
    (hperfect : suffix.hasLakshanaIn ["li~w".toList, "lu~N".toList] = true) :
    d.augmentBhu.Ends (fun e => ∃ augment, augment.hasTag .dhatu = false ∧
      e.terms = before ++ root.addTag .gunaExempt :: augment :: after) fun _ => True := by
  unfold augmentBhu
  rw [lastRoot?_of_cut hd hroot hafter hu]
  dsimp only
  rw [suffix?_of_cut hd, hview]
  dsimp only
  rw [hac, hperfect, if_pos (Bool.and_self true)]
  refine (augmentAfter_ends hd "6.4.88" "vu~k".toList).map _ fun e he => ?_
  exact ⟨_, (isAugment_stripped _).dhatu,
    (actsAt_update before.length (·.addTag .gunaExempt) e).terms_of_cut he.1 rfl⟩

end OneRoot

end Derivation

-- Whether a suffix, with its augments, is ardhadhatuka.
def isArdhadhatuka (units : List Term) : Bool := units.any (·.hasTag .ardhadhatuka)

namespace Term

-- 6.4.48: a root before an ardhadhatuka suffix.
def withoutFinalA (t : Term) : Term := if t.antya? == some 'a' then t.setAntya [] else t

-- 6.4.48 and 6.4.51: a root before the suffix with these terms.
def beforeSuffix (units : List Term) (t : Term) : Term :=
  if !isArdhadhatuka units then t
  else if t.isTaught "Ric".toList && !units.head?.any (·.isTaught "iw".toList) then
    t.withoutFinalA.elide
  else t.withoutFinalA

theorem kind_withoutFinalA (t : Term) : t.withoutFinalA.kind = t.kind := by
  unfold withoutFinalA
  split
  · exact kind_setAntya _ _
  · rfl

theorem tags_withoutFinalA (t : Term) : t.withoutFinalA.tags = t.tags := by
  unfold withoutFinalA
  split
  · exact t.tags_setAntya []
  · rfl

theorem tags_beforeSuffix (units : List Term) (t : Term) : (t.beforeSuffix units).tags = t.tags := by
  unfold beforeSuffix
  split
  · rfl
  · split
    · exact t.tags_withoutFinalA
    · exact t.tags_withoutFinalA

end Term

namespace Derivation

variable {d : Derivation} {before after augments rest : List Term} {root x : Term}

-- What a view with these terms answers.
theorem isArdhadhatuka_units (v : View) : v.hasTag .ardhadhatuka = isArdhadhatuka v.units := rfl

theorem isTaught_units (v : View) (u : Text) : v.isTaught u = v.units.head?.any (·.isTaught u) := rfl

theorem lossOfA_of_root (rest : List Term) (haugments : ∀ t ∈ augments, t.hasTag .agama = true)
    (hx : x.hasTag .agama = false) (hroot : root.hasTag .dhatu = true)
    (hcopy : root.hasTag .abhyasa = false) :
    ((lossOfA root (augments ++ x :: rest)).elim root fun a => a.2 root) =
      if isArdhadhatuka (augments ++ [x]) then root.withoutFinalA else root := by
  obtain ⟨v, hview, hunits, -⟩ := View.ofRow?_augmented 0 rest haugments hx
  rw [lossOfA, hview, Option.any_some, isArdhadhatuka_units, hunits, hroot, hcopy]
  unfold Term.withoutFinalA
  simp only [Bool.not_false, Bool.true_and]
  cases isArdhadhatuka (augments ++ [x]) with
  | false => simp only [Bool.false_eq_true, if_false, ite_self, Option.elim_none]
  | true =>
      simp only [if_true]
      split <;> rfl

-- The only root of a row before its suffix.
theorem dropRic_dropFinalA_of_cut (hd : d.terms = before ++ root :: (augments ++ x :: rest))
    (hroot : root.hasTag .dhatu = true) (hcopy : root.hasTag .abhyasa = false)
    (hbefore : ∀ t ∈ before, t.hasTag .dhatu = false)
    (hafter : ∀ t ∈ augments ++ x :: rest, t.hasTag .dhatu = false)
    (haugments : ∀ t ∈ augments, t.hasTag .agama = true) (hx : x.hasTag .agama = false)
    (ham : (augments ++ [x]).head?.any (·.isTaught "Am".toList) = false) :
    (d.forEach dropFinalA).dropRic.terms =
      before ++ root.beforeSuffix (augments ++ [x]) :: (augments ++ x :: rest) := by
  obtain ⟨hrow, -, -⟩ := looksAhead_dropFinalA.forEach d
  have hnone : ∀ t : Term, t.hasTag .dhatu = false → ∀ after, lossOfA t after = none :=
    fun t ht after => lossOfA_of_rootless ht after
  rw [hd, aheadRow_append fun t ht => hnone t (hbefore t ht), aheadRow,
    aheadRow_eq_self fun t ht => hnone t (hafter t ht),
    lossOfA_of_root rest haugments hx hroot hcopy] at hrow
  generalize hbare : (if isArdhadhatuka (augments ++ [x]) then root.withoutFinalA else root) = bare
    at hrow
  have hkind : bare.kind = root.kind := by
    rw [← hbare]
    split
    · exact root.kind_withoutFinalA
    · rfl
  have hdhatu : bare.hasTag .dhatu = true := (Term.hasTag_eq_of_kind hkind rfl).trans hroot
  have htaught (u : Text) : bare.isTaught u = root.isTaught u := by
    rw [Term.isTaught, Term.upadesha_eq_of_kind hkind, Term.isTaught]
  cases hric : root.isTaught "Ric".toList with
  | false =>
      rw [dropRic_of_other (forall_roots hrow hbefore hafter ((htaught _).trans hric)), hrow, ← hbare,
        Term.beforeSuffix, hric, Bool.false_and, if_neg (by decide : ¬false = true)]
      cases isArdhadhatuka (augments ++ [x]) <;> rfl
  | true =>
      obtain ⟨v, hview, hunits, -⟩ := View.ofRow?_augmented (before.length + 1) rest haugments hx
      unfold dropRic
      rw [lastRoot?_of_cut hrow hdhatu hafter ((htaught _).trans hric)]
      dsimp only
      rw [suffix?_of_cut hrow, hview]
      dsimp only
      rw [isArdhadhatuka_units, isTaught_units, isTaught_units, hunits, ham, Term.beforeSuffix, hric,
        Bool.true_and]
      have helided :=
        (actsAt_alter "6.4.51" before.length (·.elide) (d.forEach dropFinalA)).terms_of_cut hrow rfl
      cases hardha : isArdhadhatuka (augments ++ [x]) with
      | false =>
          rw [hardha] at hbare
          simp only [Bool.not_false, Bool.true_or, if_true]
          exact hrow.trans (by rw [← hbare]; rfl)
      | true =>
          rw [hardha] at hbare
          simp only [Bool.not_true, Bool.false_or, Bool.false_eq_true, if_false]
          cases (augments ++ [x]).head?.any (·.isTaught "iw".toList) with
          | true => exact hrow.trans (by rw [← hbare]; rfl)
          | false => exact helided.trans (by rw [← hbare]; rfl)

end Derivation

end Vyakarana
