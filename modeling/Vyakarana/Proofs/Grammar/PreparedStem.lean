import Vyakarana.Proofs.Grammar.StemRow

/-!
The row of a stem before it is strengthened.

After the last root there is one suffix, which the augment iw may stand before. Outside the perfect
it is the suffix of the stem, and an augment of the past may stand before the root. In the perfect it
is the ending, and the last root has its copy before it; a root that takes Am stands before both.
-/

namespace Vyakarana

namespace Term

theorem kind_marked (light : Bool) (t : Term) : (t.marked light).kind = t.kind := by
  unfold marked
  cases hdue : t.dueMarker? light with
  | none => rfl
  | some mark =>
      apply kind_addTag_of_isMark
      rcases mem_dueMarkers hdue with ⟨htag, -⟩ | ⟨htag, -⟩
      · rw [htag]
        rfl
      · rw [htag]
        rfl

-- A root that none of the rules on iw keeps from it.
structure IsFree (root : Term) : Prop where
  anit : root.isAnit = false
  kradi : root.hasTextIn kradi = false
  sfj : root.hasTextIn ["sfj".toList, "dfS".toList] = false

-- The suffix alone.
def refusesIt (x : Term) : Bool := (View.mk 0 x [] []).refusesIt

end Term

theorem IsBack.marked {form : VerbForm} {back : List Term} (h : IsBack form back) (light : Bool) :
    IsBack form (back.map (Term.marked light)) := by
  apply h.of_kinds
  rw [List.map_map]
  exact List.map_congr_left fun t _ => t.kind_marked light

theorem iwTerm_agama : iwTerm.hasTag .agama = true := by decide +kernel

theorem iwTerm_taught : iwTerm.isTaught "iw".toList = true := by decide +kernel

theorem iwTerm_rootless : iwTerm.hasTag .dhatu = false := (isAugment_stripped _).dhatu

theorem iwTerm_uncopied : iwTerm.hasTag .abhyasa = false := (isAugment_stripped _).isPlain.abhyasa

namespace Root

variable (root : Root)

theorem dhatu_entered : root.entered.hasTag .dhatu = true := root.hasTag_entered rfl

theorem pratyaya_entered : root.entered.hasTag .pratyaya = false := root.hasTag_entered rfl

theorem abhyasa_entered : root.entered.hasTag .abhyasa = false := root.hasTag_entered rfl

theorem isTaught_entered (u : Text) : root.entered.isTaught u = (root.upadesha == u) := by
  rw [Term.isTaught, Term.upadesha_eq_of_kind root.kind_entered]
  rfl

end Root

namespace Derivation

variable {d : Derivation} {root : Root} {form : VerbForm} {before after init its : List Term}
  {last x e copy : Term}

-- What stands between a root and its suffix after 7.2.35.
def ItBefore (root x : Term) (its : List Term) : Prop :=
  its = [iwTerm] ∧ x.refusesIt = false ∨ its = [] ∧ (root.IsFree → x.refusesIt = true)

theorem ItBefore.forall (h : ItBefore last x its) {P : Term → Prop} (hP : P iwTerm) :
    ∀ t ∈ its, P t := by
  rcases h with ⟨rfl, -⟩ | ⟨rfl, -⟩
  · exact List.forall_mem_singleton.mpr hP
  · exact List.forall_mem_nil _

theorem ItBefore.mem (h : ItBefore last x its) : its ∈ [[], [iwTerm]] := by
  rcases h with ⟨rfl, -⟩ | ⟨rfl, -⟩
  · simp
  · simp

theorem ItBefore.augments (h : ItBefore last x its) : ∀ t ∈ its, t.hasTag .agama = true :=
  h.forall iwTerm_agama

theorem ItBefore.noRoot (h : ItBefore last x its)
    (hafter : ∀ t ∈ x :: after, t.hasTag .dhatu = false) :
    ∀ t ∈ its ++ x :: after, t.hasTag .dhatu = false :=
  List.forall_mem_append.mpr ⟨h.forall iwTerm_rootless, hafter⟩

theorem ItBefore.noAm (h : ItBefore last x its) (hx : x.isTaught "Am".toList = false) :
    (its ++ [x]).head?.any (·.isTaught "Am".toList) = false := by
  have hiw : iwTerm.isTaught "Am".toList = false := by decide +kernel
  rcases h with ⟨rfl, -⟩ | ⟨rfl, -⟩
  · exact hiw
  · exact hx

-- The row after 7.2.35, cut at the last root.
def ShowsIt (before : List Term) (root x : Term) (after : List Term) (d : Derivation) : Prop :=
  ∃ its, ItBefore root x its ∧ d.terms = before ++ root :: (its ++ x :: after)

theorem addIt_showsIt (hd : d.terms = before ++ last :: x :: after)
    (hlast : last.hasTag .dhatu = true) (hx : x.hasTag .agama = false)
    (hafter : ∀ t ∈ x :: after, t.hasTag .dhatu = false) :
    d.addIt.Ends (ShowsIt before last x after) fun _ => True := by
  have hview : View.ofRow? (before.length + 1) (x :: after) =
      some ⟨before.length + 1, x, [], after⟩ := by simp [View.ofRow?, hx]
  have hrefuses : (View.mk (before.length + 1) x [] after).refusesIt = x.refusesIt := rfl
  refine (addIt_of_cut hd hlast hafter hview).imp (fun f hf => ⟨_, ?_, hf⟩) fun _ h => h
  rw [hrefuses]
  by_cases hrefused : x.refusesIt = true
  · rw [hrefused]
    exact .inr ⟨rfl, fun _ => hrefused⟩
  · rw [Bool.eq_false_of_not_eq_true hrefused, Bool.not_false, Bool.true_and]
    split
    · exact .inl ⟨rfl, Bool.eq_false_of_not_eq_true hrefused⟩
    · rename_i hno
      refine .inr ⟨rfl, fun hfree => absurd ?_ hno⟩
      exact takesIt_of_free hfree.anit hfree.kradi hfree.sfj _ d

end Derivation

-- What the rules ask of the suffix of a stem.
structure IsStemSuffix (x : Term) : Prop where
  agama : x.hasTag .agama = false
  am : x.isTaught "Am".toList = false
  lakshanas : x.lakshanas = []

instance (x : Term) : Decidable (IsStemSuffix x) :=
  decidable_of_iff (x.hasTag .agama = false ∧ x.isTaught "Am".toList = false ∧ x.lakshanas = [])
    ⟨fun h => ⟨h.1, h.2.1, h.2.2⟩, fun h => ⟨h.agama, h.am, h.lakshanas⟩⟩

theorem IsStemSuffix.marked {x : Term} (h : IsStemSuffix x) (light : Bool) :
    IsStemSuffix (x.marked light) where
  agama := (Term.hasTag_marked (by decide) light x).trans h.agama
  am := by
    rw [Term.isTaught, Term.upadesha_eq_of_kind (x.kind_marked light)]
    exact h.am
  lakshanas := (x.lakshanas_marked light).trans h.lakshanas

namespace Derivation

variable {d : Derivation} {root : Root} {form : VerbForm} {before after init its : List Term}
  {last x e copy : Term}

-- Where the last ending is none of the perfect, no root is doubled, and no copy reduced.
theorem reduplicate_of_other (hd : d.terms = before ++ last :: init ++ [e])
    (hlast : last.hasTag .dhatu = true) (hafter : ∀ t ∈ init ++ [e], t.hasTag .dhatu = false)
    (he : e.hasTag .tin = true) (hother : e.hasLakshana "li~w".toList = false) :
    d.reduplicate = d := by
  have hcut : d.terms = before ++ last :: (init ++ [e]) := by rw [hd, List.append_assoc]; rfl
  rw [reduplicate_of_cut hcut hlast hafter, isPerfect_of_last hd he, hother]
  rfl

theorem doubled_of_first (hd : d.terms = root.entered :: x :: (init ++ [e]))
    (hx : x.hasTag .agama = false) (hback : IsBack form (x :: (init ++ [e])))
    (hlit : form.lakara ≠ .lit) :
    ((d.addIt.map reduplicate).andThen reduceCopy).Ends
      (ShowsIt [] root.entered x (init ++ [e])) fun _ => True := by
  have hgiven : IsBack form ((x :: init) ++ [e]) := hback
  have hother : e.hasLakshana "li~w".toList = false := by
    rw [hgiven.last.2.perfect]
    simpa using hlit
  have hcut : d.terms = [] ++ root.entered :: x :: (init ++ [e]) := hd
  have hit := addIt_showsIt hcut root.dhatu_entered hx hback.noRoot
  have hsingle : (d.addIt.map reduplicate).Ends (ShowsIt [] root.entered x (init ++ [e]))
      fun _ => True := by
    refine hit.map _ fun f hf => ?_
    obtain ⟨its, hits, hterms⟩ := hf
    have hrow : f.terms = [] ++ root.entered :: (its ++ x :: init) ++ [e] := by
      rw [hterms]
      simp
    have hafter := hits.noRoot hback.noRoot
    rw [← List.cons_append, ← List.append_assoc] at hafter
    rw [reduplicate_of_other hrow root.dhatu_entered hafter hgiven.last.1.tin hother]
    exact ⟨its, hits, hterms⟩
  refine hsingle.andThen _ fun f hf => ?_
  obtain ⟨its, hits, hterms⟩ := hf
  have huncopied : ∀ t ∈ f.terms, t.hasTag .abhyasa = false := by
    rw [hterms, List.nil_append, List.forall_mem_cons, List.forall_mem_append]
    exact ⟨root.abhyasa_entered, hits.forall iwTerm_uncopied, hback.noCopy⟩
  rw [reduceCopy_of_uncopied huncopied]
  exact ⟨its, hits, hterms⟩

-- A root before its suffix, where the ending is none of the perfect.
theorem prepareStem_of_first (hd : d.terms = root.entered :: (its ++ x :: (init ++ [e])))
    (hits : ItBefore root.entered x its) (hx : IsStemSuffix x)
    (hback : IsBack form (x :: (init ++ [e]))) :
    d.prepareStem.Ends (fun f => ∃ augments rest t,
      f.terms = augments ++ root.entered.beforeSuffix (its ++ [x]) ::
          (its ++ x :: (rest ++ [t])) ∧ t.hasTag .tin = true ∧
        (∀ t ∈ augments, t.hasTag .dhatu = false) ∧ ∀ u ∈ rest ++ [t], u.hasTag .dhatu = false)
      fun _ => True := by
  have hgiven : IsBack form ((x :: init) ++ [e]) := hback
  have htin : e.hasTag .tin = true := hgiven.last.1.tin
  have htin' : e.antForJ.hasTag .tin = true :=
    (Term.hasTag_eq_of_kind (Term.kind_antForJ e) rfl).trans htin
  have hfitted : ∀ t ∈ x :: (init ++ [e.antForJ]), t.hasTag .dhatu = false := by
    have hno := hback.noRoot
    rw [List.forall_mem_cons, List.forall_mem_append, List.forall_mem_singleton] at hno ⊢
    rwa [Term.hasTag_eq_of_kind (Term.kind_antForJ e) rfl]
  have hafter := hits.noRoot hfitted
  have hrow : d.terms = (root.entered :: (its ++ x :: init)) ++ [e] := by
    rw [hd]
    simp
  have hJ : d.replaceJ.terms = root.entered :: (its ++ x :: (init ++ [e.antForJ])) := by
    rw [replaceJ_of_last hrow htin]
    simp
  have hunits : ∀ t ∈ its ++ [x], t.hasLakshanaIn ["li~w".toList, "lu~N".toList] = false := by
    rw [List.forall_mem_append, List.forall_mem_singleton, Term.hasLakshanaIn, hx.lakshanas]
    exact ⟨hits.forall (by decide +kernel), rfl⟩
  have hpast : (d.replaceJ.augmentPast.andThen augmentBhu).Ends (fun f => ∃ augments,
      f.terms = augments ++ root.entered :: (its ++ x :: (init ++ [e.antForJ])) ∧
        ∀ t ∈ augments, t.hasTag .dhatu = false) fun _ => True := by
    refine (augmentPast_of_first hJ root.dhatu_entered).andThen _ fun f hf => ?_
    obtain ⟨augments, hterms, hrootless⟩ := hf
    obtain ⟨v, hview, hshown, -⟩ := View.ofRow?_augmented (augments.length + 1)
      (init ++ [e.antForJ]) hits.augments hx.agama
    have hnone : v.hasLakshanaIn ["li~w".toList, "lu~N".toList] = false := by
      rw [View.hasLakshanaIn, hshown]
      exact List.any_eq_false.mpr fun t ht => by rw [hunits t ht]; exact Bool.false_ne_true
    rw [augmentBhu_of_suffix hterms root.dhatu_entered hrootless hafter hview hnone]
    exact ⟨augments, hterms, hrootless⟩
  refine hpast.map _ fun f hf => ?_
  obtain ⟨augments, hterms, hrootless⟩ := hf
  refine ⟨augments, init, e.antForJ, ?_, htin', hrootless, (List.forall_mem_cons.mp hfitted).2⟩
  exact dropRic_dropFinalA_of_cut hterms root.dhatu_entered root.abhyasa_entered hrootless hafter
    hits.augments hx.agama (hits.noAm hx.am)

-- The row of a stem outside the perfect.
theorem prepared_of_first (hd : d.terms = root.entered :: x :: (init ++ [e]))
    (hx : IsStemSuffix x) (hback : IsBack form (x :: (init ++ [e]))) (hlit : form.lakara ≠ .lit)
    {x' : Term} (hx' : x.marked (!root.entered.isSamyoganta) = x') :
    d.prepared.Ends (fun f => ∃ augments its rest t, ItBefore root.entered x' its ∧
      f.terms = augments ++ root.entered.beforeSuffix (its ++ [x']) ::
          (its ++ x' :: (rest ++ [t])) ∧ t.hasTag .tin = true ∧
        (∀ t ∈ augments, t.hasTag .dhatu = false) ∧ ∀ u ∈ rest ++ [t], u.hasTag .dhatu = false)
      fun _ => True := by
  have hcut : d.terms = [] ++ root.entered :: (x :: (init ++ [e])) := hd
  have hmarked := extendMarkers_of_cut hcut root.dhatu_entered hback.noRoot root.pratyaya_entered
    (by simp)
  have hback' := hback.marked (!root.entered.isSamyoganta)
  have hsuffix := hx.marked (!root.entered.isSamyoganta)
  rw [List.map_cons, List.map_append, List.map_singleton, hx'] at hmarked hback'
  rw [hx'] at hsuffix
  have hdoubled := doubled_of_first hmarked hsuffix.agama hback' hlit
  refine hdoubled.andThen _ fun f hf => ?_
  obtain ⟨its, hits, hterms⟩ := hf
  refine (prepareStem_of_first hterms hits hsuffix hback').imp (fun g hg => ?_) fun _ h => h
  obtain ⟨augments, rest, t, hg⟩ := hg
  exact ⟨augments, its, rest, t, hits, hg⟩

end Derivation

-- What the rules ask of an ending of the perfect.
structure IsPerfectSuffix (e : Term) : Prop where
  tin : e.hasTag .tin = true
  dhatu : e.hasTag .dhatu = false
  agama : e.hasTag .agama = false
  ardhadhatuka : e.hasTag .ardhadhatuka = true
  am : e.isTaught "Am".toList = false
  perfect : e.hasLakshana "li~w".toList = true
  past : e.hasLakshanaIn pastLakaras = false
  fitted : e.antForJ = e
  vowel : e.refusesIt = true → e.adi?.any Sound.isAc = true

instance (e : Term) : Decidable (IsPerfectSuffix e) :=
  decidable_of_iff (e.hasTag .tin = true ∧ e.hasTag .dhatu = false ∧ e.hasTag .agama = false ∧
      e.hasTag .ardhadhatuka = true ∧ e.isTaught "Am".toList = false ∧
      e.hasLakshana "li~w".toList = true ∧ e.hasLakshanaIn pastLakaras = false ∧
      e.antForJ = e ∧ (e.refusesIt = true → e.adi?.any Sound.isAc = true))
    ⟨fun ⟨htin, hdhatu, hagama, hardha, ham, hperfect, hpast, hfitted, hvowel⟩ =>
        ⟨htin, hdhatu, hagama, hardha, ham, hperfect, hpast, hfitted, hvowel⟩,
      fun h => ⟨h.tin, h.dhatu, h.agama, h.ardhadhatuka, h.am, h.perfect, h.past, h.fitted, h.vowel⟩⟩

namespace Term

theorem withoutFinalA_addTag (tag : Tag) (t : Term) :
    (t.addTag tag).withoutFinalA = t.withoutFinalA.addTag tag := by
  have hsame : (t.addTag tag).antya? = t.antya? := rfl
  unfold withoutFinalA
  rw [hsame]
  split
  · unfold setAntya
    have htext : (t.addTag tag).text = t.text := rfl
    rw [htext]
    split <;> rfl
  · rfl

theorem beforeSuffix_addTag (units : List Term) (tag : Tag) (t : Term) :
    (t.addTag tag).beforeSuffix units = (t.beforeSuffix units).addTag tag := by
  have hsame : (t.addTag tag).isTaught "Ric".toList = t.isTaught "Ric".toList := rfl
  unfold beforeSuffix
  rw [hsame]
  split
  · rfl
  · split
    · rw [withoutFinalA_addTag]
      rfl
    · exact t.withoutFinalA_addTag tag

theorem withoutFinalA_of_hal {t : Term} {c : Char} (h : t.antya? = some c)
    (hc : Sound.isHal c = true) : t.withoutFinalA = t := by
  have hno : c ≠ 'a' := by
    rintro rfl
    exact absurd hc (by decide)
  rw [withoutFinalA, h, if_neg (by simpa using hno)]

end Term

namespace Derivation

variable {d : Derivation} {root : Root} {form : VerbForm} {before after init its : List Term}
  {last x e copy : Term}

-- The last root of the perfect, doubled, with its copy reduced.
theorem doubled_of_last (hd : d.terms = before ++ [last, e]) (hlast : last.hasTag .dhatu = true)
    (hplain : last.hasTag .pratyaya = false) (hsingle : last.hasTag .abhyasta = false)
    (hbefore : ∀ t ∈ before, t.hasTag .abhyasa = false ∧ ∀ light, t.dueMarker? light = none)
    {e' : Term} (he' : e.marked (!last.isSamyoganta) = e') (he : IsPerfectSuffix e') :
    ((d.extendMarkers.addIt.map reduplicate).andThen reduceCopy).Ends (fun f => ∃ copy its,
      copy.hasTag .dhatu = false ∧ ItBefore last e' its ∧
        f.terms = before ++ copy :: last.addTag .abhyasta :: (its ++ [e'])) fun _ => True := by
  have hno : ∀ t ∈ [e'], t.hasTag .dhatu = false := List.forall_mem_singleton.mpr he.dhatu
  have hgiven : ∀ t ∈ [e], t.hasTag .dhatu = false := by
    rw [List.forall_mem_singleton, ← Term.hasTag_marked (by decide) (!last.isSamyoganta), he']
    exact he.dhatu
  have hmarked := extendMarkers_of_cut hd hlast hgiven hplain fun t ht => (hbefore t ht).2
  rw [List.map_singleton, he'] at hmarked
  have hdoubled : (d.extendMarkers.addIt.map reduplicate).Ends (fun f => ∃ its,
      ItBefore last e' its ∧
        f.terms = before ++ copyOf last :: last.addTag .abhyasta :: (its ++ [e'])) fun _ => True := by
    refine (addIt_showsIt hmarked hlast he.agama hno).map _ fun f hf => ?_
    obtain ⟨its, hits, hterms⟩ := hf
    have hrow : f.terms = (before ++ last :: its) ++ [e'] := by
      rw [hterms]
      simp
    rw [reduplicate_of_cut hterms hlast (hits.noRoot hno), isPerfect_of_last hrow he.tin,
      he.perfect, hsingle]
    exact ⟨its, hits, (doubleAt_shows hterms).1⟩
  refine hdoubled.andThen _ fun f hf => ?_
  obtain ⟨its, hits, hterms⟩ := hf
  refine (reduceCopy_of_cut hterms (isCopy_copyOf last).abhyasa fun t ht => (hbefore t ht).1).imp
    (fun g hg => ?_) fun _ h => h
  obtain ⟨copy, hkind, hg⟩ := hg
  exact ⟨copy, its, (Term.hasTag_eq_of_kind hkind rfl).trans (isCopy_copyOf last).dhatu, hits, hg⟩

-- A perfect has no augment of the past, and its ending no J.
theorem augmentPast_of_perfect (hd : d.terms = init ++ [e]) (he : IsPerfectSuffix e) :
    ∃ f, d.replaceJ.augmentPast = .done f ∧ f.terms = d.terms := by
  have hJ := replaceJ_of_last hd he.tin
  rw [he.fitted] at hJ
  exact ⟨_, augmentPast_of_last hJ he.tin he.past, hJ.trans hd.symm⟩

section DoubledRoot

variable (hd : d.terms = [copy] ++ root.entered.addTag .abhyasta :: (its ++ [e]))
  (hcopy : copy.hasTag .dhatu = false) (hits : ItBefore root.entered e its)
  (he : IsPerfectSuffix e)
include hd hcopy hits he

-- The root before its suffix in the perfect.
theorem prepareStem_of_perfect (hu : root.upadesha ≠ "BU".toList) :
    ∃ f, d.prepareStem = .done f ∧ f.terms =
      [copy] ++ (root.entered.beforeSuffix (its ++ [e])).addTag .abhyasta :: (its ++ [e]) := by
  have hrow : d.terms = ([copy] ++ root.entered.addTag .abhyasta :: its) ++ [e] := by
    rw [hd]
    simp
  obtain ⟨f, hf, hsame⟩ := augmentPast_of_perfect hrow he
  have hcut := hsame.trans hd
  have hdhatu : (root.entered.addTag .abhyasta).hasTag .dhatu = true :=
    (Term.hasTag_addTag_of_ne (by decide) _).trans root.dhatu_entered
  have hnocopy : (root.entered.addTag .abhyasta).hasTag .abhyasa = false :=
    (Term.hasTag_addTag_of_ne (by decide) _).trans root.abhyasa_entered
  have hbefore : ∀ t ∈ [copy], t.hasTag .dhatu = false := List.forall_mem_singleton.mpr hcopy
  have hafter := hits.noRoot (List.forall_mem_singleton.mpr he.dhatu)
  have htaught : (root.entered.addTag .abhyasta).isTaught "BU".toList = false :=
    (root.isTaught_entered _).trans (beq_eq_false_iff_ne.mpr hu)
  have hroots : ∀ t ∈ f.terms, t.hasTag .dhatu = true → t.isTaught "BU".toList = false :=
    forall_roots hcut hbefore hafter htaught
  have hdone := dropRic_dropFinalA_of_cut hcut hdhatu hnocopy hbefore hafter hits.augments he.agama
    (hits.noAm he.am)
  refine ⟨(f.forEach dropFinalA).dropRic, ?_, hdone.trans ?_⟩
  · rw [prepareStem, hf, Outcome.andThen_done, augmentBhu_of_other hroots]
    rfl
  · rw [Term.beforeSuffix_addTag]

omit hcopy in
-- BU takes its v before every ending of the perfect, or before iw.
theorem augmentBhu_of_perfect (hu : root.upadesha = "BU".toList) (hfree : root.entered.IsFree) :
    d.augmentBhu.Ends (fun f => ∃ augment, augment.hasTag .dhatu = false ∧
      f.terms = [copy] ++ (root.entered.addTag .abhyasta).addTag .gunaExempt ::
        augment :: (its ++ [e])) fun _ => True := by
  have hdhatu : (root.entered.addTag .abhyasta).hasTag .dhatu = true :=
    (Term.hasTag_addTag_of_ne (by decide) _).trans root.dhatu_entered
  have hafter := hits.noRoot (List.forall_mem_singleton.mpr he.dhatu)
  have htaught : (root.entered.addTag .abhyasta).isTaught "BU".toList = true :=
    (root.isTaught_entered _).trans (beq_iff_eq.mpr hu)
  obtain ⟨v, hview, hunits, -⟩ := View.ofRow?_augmented ([copy].length + 1) [] hits.augments he.agama
  have hperfect : v.hasLakshanaIn ["li~w".toList, "lu~N".toList] = true := by
    have hli : e.lakshanas.contains "li~w".toList = true := he.perfect
    rw [View.hasLakshanaIn, hunits, List.any_append, List.any_cons, Term.hasLakshanaIn,
      List.any_cons, hli, Bool.true_or, Bool.true_or, Bool.or_true]
  have hac : v.adi?.any Sound.isAc = true := by
    rw [View.adi?, hunits]
    rcases hits with ⟨rfl, -⟩ | ⟨rfl, hrefuses⟩
    · have hiw : iwTerm.adi? = some 'i' := by decide +kernel
      rw [List.singleton_append, List.findSome?_cons, hiw]
      rfl
    · have hvowel := he.vowel (hrefuses hfree)
      obtain ⟨c, hc, hac⟩ := (Option.any_eq_true _ _).mp hvowel
      rw [List.nil_append, List.findSome?_cons, hc]
      exact hac
  exact augmentBhu_of_bhu hd hdhatu hafter htaught hview hac hperfect

-- BU is exempt from guna before the endings of the perfect.
theorem prepareStem_of_bhu (hu : root.upadesha = "BU".toList) (hfree : root.entered.IsFree) :
    d.prepareStem.Ends (fun f => ∃ bare augment, bare.hasTag .gunaExempt = true ∧
      augment.hasTag .dhatu = false ∧ f.terms = [copy] ++ bare :: augment :: (its ++ [e]))
      fun _ => True := by
  have hrow : d.terms = ([copy] ++ root.entered.addTag .abhyasta :: its) ++ [e] := by
    rw [hd]
    simp
  obtain ⟨f, hf, hsame⟩ := augmentPast_of_perfect hrow he
  have hprepare : d.prepareStem = f.augmentBhu.map fun g => (g.forEach dropFinalA).dropRic := by
    rw [prepareStem, hf]
    rfl
  rw [hprepare]
  refine (augmentBhu_of_perfect (hsame.trans hd) hits he hu hfree).map _ fun g hg => ?_
  obtain ⟨augment, haugment, hg⟩ := hg
  have hbefore : ∀ t ∈ [copy], t.hasTag .dhatu = false := List.forall_mem_singleton.mpr hcopy
  have hafter : ∀ t ∈ augment :: (its ++ [e]), t.hasTag .dhatu = false :=
    List.forall_mem_cons.mpr ⟨haugment, hits.noRoot (List.forall_mem_singleton.mpr he.dhatu)⟩
  obtain ⟨hlost, -, -⟩ := looksAhead_dropFinalA.forEach g
  rw [hg, aheadRow_append fun t ht => lossOfA_of_rootless (hbefore t ht), aheadRow,
    aheadRow_eq_self fun t ht => lossOfA_of_rootless (hafter t ht)] at hlost
  obtain ⟨hkind, htags⟩ := lossOfA_keeps ((root.entered.addTag .abhyasta).addTag .gunaExempt)
    (augment :: (its ++ [e]))
  generalize ((lossOfA ((root.entered.addTag .abhyasta).addTag .gunaExempt)
    (augment :: (its ++ [e]))).elim ((root.entered.addTag .abhyasta).addTag .gunaExempt)
      fun a => a.2 ((root.entered.addTag .abhyasta).addTag .gunaExempt)) = bare at *
  have hric : bare.isTaught "Ric".toList = false := by
    have hother : (root.upadesha == "Ric".toList) = false := by
      rw [hu]
      decide
    rw [Term.isTaught, Term.upadesha_eq_of_kind hkind]
    exact (root.isTaught_entered _).trans hother
  rw [dropRic_of_other (forall_roots hlost hbefore hafter hric)]
  refine ⟨bare, augment, ?_, haugment, hlost⟩
  rw [Term.hasTag, htags]
  exact Term.hasTag_addTag_self _ _

end DoubledRoot

end Derivation

-- Am as it stands in the row.
def amTerm : Term := ((Term.ofUpadesha "Am".toList).addTag .pratyaya).classify

theorem amTerm_plain : amTerm.hasTag .dhatu = false ∧ amTerm.hasTag .agama = false ∧
    amTerm.hasTag .abhyasa = false ∧ isArdhadhatuka [amTerm] = true ∧
      ∀ light, amTerm.dueMarker? light = none := by
  decide +kernel

namespace Derivation

variable {d : Derivation} {root : Root} {its : List Term} {e copy : Term}

-- The row of a perfect with Am: its first root has lost a final a.
theorem prepareStem_of_auxiliary (htaught : ∀ u ∈ ["BU".toList, "Ric".toList], root.upadesha ≠ u)
    (hd : d.terms = [root.entered, amTerm] ++ copy :: auxiliaryRoot.addTag .abhyasta :: (its ++ [e]))
    (hcopy : copy.hasTag .dhatu = false) (hits : ItBefore auxiliaryRoot e its)
    (he : IsPerfectSuffix e) :
    ∃ f, d.prepareStem = .done f ∧ f.terms = root.entered.withoutFinalA :: amTerm :: copy ::
      auxiliaryRoot.addTag .abhyasta :: (its ++ [e]) := by
  obtain ⟨hrootless, hagama, -, hardha, -⟩ := amTerm_plain
  have hrow : d.terms = ([root.entered, amTerm] ++ copy :: auxiliaryRoot.addTag .abhyasta :: its) ++
      [e] := by
    rw [hd]
    simp
  obtain ⟨f, hf, hsame⟩ := augmentPast_of_perfect hrow he
  have hcut : f.terms = root.entered :: amTerm :: copy :: auxiliaryRoot.addTag .abhyasta ::
      (its ++ [e]) := hsame.trans hd
  have hafter := hits.noRoot (List.forall_mem_singleton.mpr he.dhatu)
  have hno {t : Term} {u : Text} (ht : t.hasTag .dhatu = false) :
      t.hasTag .dhatu = true → t.isTaught u = false := by
    intro h
    rw [ht] at h
    cases h
  -- The first root is neither BU nor Ric, and the second is kf.
  have hothers {u : Text} (hu : u ∈ ["BU".toList, "Ric".toList]) {g : Derivation} {first : Term}
      (hg : g.terms = first :: amTerm :: copy :: auxiliaryRoot.addTag .abhyasta :: (its ++ [e]))
      (hfirst : first.kind = root.entered.kind) :
      ∀ t ∈ g.terms, t.hasTag .dhatu = true → t.isTaught u = false := by
    have haux : ∀ u ∈ ["BU".toList, "Ric".toList],
        (auxiliaryRoot.addTag .abhyasta).isTaught u = false := by decide
    rw [hg, List.forall_mem_cons, List.forall_mem_cons, List.forall_mem_cons, List.forall_mem_cons]
    refine ⟨fun _ => ?_, hno hrootless, hno hcopy, fun _ => haux u hu, fun t ht => hno (hafter t ht)⟩
    rw [Term.isTaught, Term.upadesha_eq_of_kind hfirst]
    exact (root.isTaught_entered u).trans (beq_eq_false_iff_ne.mpr (htaught u hu))
  obtain ⟨hlost, -, -⟩ := looksAhead_dropFinalA.forEach f
  have hkf (after : List Term) : lossOfA (auxiliaryRoot.addTag .abhyasta) after = none := by
    have hends : (auxiliaryRoot.addTag .abhyasta).antya? = some 'f' := rfl
    rw [lossOfA, hends, if_neg]
    simp
  have hfirst := lossOfA_of_root (copy :: auxiliaryRoot.addTag .abhyasta :: (its ++ [e]))
    (List.forall_mem_nil _) hagama root.dhatu_entered root.abhyasa_entered
  rw [List.nil_append, List.nil_append, hardha, if_pos rfl] at hfirst
  rw [hcut, aheadRow, hfirst, aheadRow, lossOfA_of_rootless hrootless, aheadRow,
    lossOfA_of_rootless hcopy, aheadRow, hkf,
    aheadRow_eq_self fun t ht => lossOfA_of_rootless (hafter t ht)] at hlost
  refine ⟨(f.forEach dropFinalA).dropRic, ?_, ?_⟩
  · rw [prepareStem, hf, Outcome.andThen_done, augmentBhu_of_other (hothers (by simp) hcut rfl)]
    rfl
  · rw [dropRic_of_other (hothers (by simp) hlost (Term.kind_withoutFinalA _))]
    exact hlost

end Derivation

end Vyakarana
