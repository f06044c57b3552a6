import Vyakarana.Proofs.Grammar.Contraction
import Vyakarana.Proofs.Grammar.Disguise
import Vyakarana.Proofs.Grammar.Grades
import Vyakarana.Proofs.Grammar.PreparedStem
import Vyakarana.Proofs.Grammar.Replay
import Vyakarana.Proofs.Grammar.RootInitial

/-!
The guna of the roots of the sixth class.

The suffixes Sa and yak ask for no grade, so that such a root takes guna before sya and in the
perfect alone. There the endings Ral and Tal ask for a grade, and the root takes guna if it has a
vowel for it and is not given vrddhi instead; if it takes Am, it has guna before Am, and the ending
asks kf for a grade. Of the sub-lists of the class no rule takes notice: a root of the kutadi list
takes guna as the others do, though the suffixes after it should count as having the marker N.
-/

namespace Vyakarana

-- The suffix of a stem, as it stands in the row.
def stemTerm (u : Text) : Term := (suffixTerm u [.pratyaya, .vikarana]).classify

-- The suffix of the stem after a root of the sixth class.
def stemTaught (form : VerbForm) : Text :=
  if form.lakara = .lrt then "sya".toList
  else if form.prayoga != .kartari then "yak".toList
  else "Sa".toList

-- What an ending of the perfect asks for; `taken` tells whether 7.1.91 is taken.
def perfectGrade (pada : Pada) (purusha : Purusha) (vacana : Vacana) (taken : Bool) : Grade :=
  match pada, vacana, purusha with
  | .parasmaipada, .eka, .prathama => .vrddhi
  | .parasmaipada, .eka, .madhyama => .guna
  | .parasmaipada, .eka, .uttama => if taken then .guna else .vrddhi
  | _, _, _ => .plain

namespace Root

variable (root : Root)

-- The text of a root before an ardhadhatuka suffix, which a final a is lost before.
def bare : Text := root.entered.withoutFinalA.text

-- The guna steps in the perfect of a root that is itself doubled. BU is exempt, and without its
-- augment a suffix leaves nothing of Ric.
def gunaOfPerfect (purusha : Purusha) (grade : Grade) : List Rule :=
  if root.upadesha = "BU".toList ∨ root.upadesha = "Ric".toList ∧ purusha ≠ .madhyama then []
  else (grade.guna? root.bare).toList

-- The rules of the guna steps in a form of a root of the sixth class.
def gunaRules (form : VerbForm) (choices : Choices) : List Rule :=
  let pada := ((root.padaChoice form.prayoga).resolve choices).1
  let grade := perfectGrade pada form.purusha form.vacana (choices.permits "7.1.91")
  if form.lakara = .lrt then (gunaRule? root.bare).toList
  else if form.lakara = .lit then
    if root.entered.amRule?.isSome then
      (gunaRule? root.bare).toList ++ (grade.guna? "kf".toList).toList
    else root.gunaOfPerfect form.purusha grade
  else []

end Root

theorem stemSuffix?_of_six {form : VerbForm} (hform : form.lakara ∈ supportedLakaras)
    (hlit : form.lakara ≠ .lit) (pada : Pada) :
    stemSuffix? form 6 pada = some (stemTerm (stemTaught form)) := by
  have hall := forall_endings (P := fun lakara pada purusha vacana => lakara ≠ .lit →
      ∀ passive : Bool, (givenEnding lakara pada purusha vacana).stemSuffix? passive (some 6) =
        some (if lakara = .lrt then "sya".toList
          else if passive then "yak".toList else "Sa".toList))
    (by decide +kernel) hform pada form.purusha form.vacana hlit (form.prayoga != .kartari)
  rw [stemSuffix?, if_neg hlit, hall]
  rfl

theorem stemTaught_cases (form : VerbForm) :
    form.lakara = .lrt ∧ stemTaught form = "sya".toList ∨
      form.lakara ≠ .lrt ∧ stemTaught form ∈ ["yak".toList, "Sa".toList] := by
  unfold stemTaught
  by_cases hlrt : form.lakara = .lrt
  · exact .inl ⟨hlrt, if_pos hlrt⟩
  · refine .inr ⟨hlrt, ?_⟩
    rw [if_neg hlrt]
    split
    · simp
    · simp

theorem isStemSuffix_stemTerm (form : VerbForm) :
    IsStemSuffix (stemTerm (stemTaught form)) ∧
      (stemTerm (stemTaught form)).hasTag .dhatu = false := by
  have hall : ∀ u ∈ ["sya".toList, "yak".toList, "Sa".toList],
      IsStemSuffix (stemTerm u) ∧ (stemTerm u).hasTag .dhatu = false := by decide +kernel
  apply hall
  rcases stemTaught_cases form with ⟨-, htaught⟩ | ⟨-, htaught⟩
  · rw [htaught]
    simp
  · exact List.mem_cons_of_mem _ htaught

-- Sa and yak ask for nothing once they are marked; sya asks for guna, and takes iw where it can.
theorem stemTerm_asks :
    ∀ light : Bool, ∀ its ∈ [[], [iwTerm]],
      (∀ u ∈ ["yak".toList, "Sa".toList], gradeOf (its ++ [(stemTerm u).marked light]) = .plain) ∧
      gradeOf (its ++ [(stemTerm "sya".toList).marked light]) = .guna ∧
      anyTagged [.it .S] (its ++ [(stemTerm "sya".toList).marked light]) = false ∧
      isArdhadhatuka (its ++ [(stemTerm "sya".toList).marked light]) = true ∧
      ((stemTerm "sya".toList).marked light).refusesIt = false := by
  decide +kernel

-- An ending of the perfect asks for a grade. Only a light root is to get it: after the others the
-- ending has not been marked.
structure AsksGrade (grade : Grade) (purusha : Purusha) (light taken : Bool) (its : List Term)
    (e : Term) : Prop where
  suffix : IsPerfectSuffix e
  asked : light = true → gradeOf (its ++ [e.relaxed taken]) = grade
  mid : anyTagged [.it .S] (its ++ [e.relaxed taken]) = false
  refuses : grade ≠ .plain → e.refusesIt = (purusha != .madhyama)
  other : grade ≠ .plain → e.isTaught "iw".toList = false

instance (grade : Grade) (purusha : Purusha) (light taken : Bool) (its : List Term) (e : Term) :
    Decidable (AsksGrade grade purusha light taken its e) :=
  decidable_of_iff (IsPerfectSuffix e ∧
      (light = true → gradeOf (its ++ [e.relaxed taken]) = grade) ∧
      anyTagged [.it .S] (its ++ [e.relaxed taken]) = false ∧
      (grade ≠ .plain → e.refusesIt = (purusha != .madhyama)) ∧
      (grade ≠ .plain → e.isTaught "iw".toList = false))
    ⟨fun ⟨hsuffix, hasked, hmid, hrefuses, hother⟩ => ⟨hsuffix, hasked, hmid, hrefuses, hother⟩,
      fun h => ⟨h.suffix, h.asked, h.mid, h.refuses, h.other⟩⟩

theorem perfectEnding_asks (pada : Pada) (purusha : Purusha) (vacana : Vacana)
    (light taken : Bool) : ∀ its ∈ [[], [iwTerm]],
      AsksGrade (perfectGrade pada purusha vacana taken) purusha light taken its
        ((endingOf .lit pada purusha vacana).marked light) := by
  have hlit : Lakara.lit ∈ supportedLakaras := by decide
  exact forall_endings (P := fun lakara pada purusha vacana => lakara = .lit →
      ∀ light taken : Bool, ∀ its ∈ [[], [iwTerm]],
        AsksGrade (perfectGrade pada purusha vacana taken) purusha light taken its
          ((endingOf .lit pada purusha vacana).marked light))
    (by decide +kernel) hlit pada purusha vacana rfl light taken

namespace Term

theorem replaceInitial_renumber (f : Option Int → Option Int) (t : Term) :
    (t.renumber f).replaceInitial = t.replaceInitial.renumber f := by
  unfold replaceInitial
  simp only [adi?_renumber, hasTextIn_renumber, startsWithAny_renumber, text_renumber,
    setText_renumber, substituteAdi_renumber]
  repeat' split
  all_goals rfl

theorem nasalize_renumber (f : Option Int → Option Int) (t : Term) :
    (t.renumber f).nasalize = t.nasalize.renumber f := by
  unfold nasalize
  rw [hasTag_renumber, insertAfterVowel_renumber]
  split <;> rfl

end Term

namespace Root

variable {root : Root} {grade : Grade} {units : List Term}

-- The number of a root and its sub-list stand beside what becomes of it.
theorem entered_renumber (root : Root) : root.entered =
    (entered ⟨root.upadesha, root.gana, none, none⟩).renumber fun _ => root.number := by
  have hstart : (Term.ofRoot root.upadesha root.gana root.number).addTag .dhatu =
      ((Term.ofRoot root.upadesha root.gana none).addTag .dhatu).renumber fun _ => root.number := rfl
  have hstripped (f : Option Int → Option Int) (t : Term) :
      (t.renumber f).stripped root.upadesha = (t.stripped root.upadesha).renumber f := by
    rw [Term.stripped, Stripping.run_renumber]
    rfl
  rw [entered, hstart, hstripped, Term.replaceInitial_renumber, Term.nasalize_renumber]
  rfl

-- A root comes without the exemption from guna.
theorem exempt_entered (root : Root) : root.entered.hasTag .gunaExempt = false := by
  have hnasalize (t : Term) : t.nasalize.hasTag .gunaExempt = t.hasTag .gunaExempt := by
    rw [t.nasalize_eq_setText]
    rfl
  have hinitial (t : Term) : t.replaceInitial.hasTag .gunaExempt = t.hasTag .gunaExempt := by
    rw [t.replaceInitial_eq_setText]
    rfl
  rw [entered, hnasalize, hinitial, Term.stripped,
    (Stripping.run_sheds _ root.upadesha).term.exempt]
  rfl

-- BU and Ric are free to take the augment, and are reduplicated themselves.
theorem entered_bhu_or_ric (hgana : root.gana = 6)
    (hu : root.upadesha = "BU".toList ∨ root.upadesha = "Ric".toList) :
    root.entered.IsFree ∧ root.entered.amRule? = none := by
  have hall : ∀ u ∈ ["BU".toList, "Ric".toList], (entered ⟨u, 6, none, none⟩).isAnit = false ∧
      (entered ⟨u, 6, none, none⟩).hasTextIn kradi = false ∧
      (entered ⟨u, 6, none, none⟩).hasTextIn ["sfj".toList, "dfS".toList] = false ∧
      (entered ⟨u, 6, none, none⟩).amRule? = none := by decide +kernel
  obtain ⟨hanit, hkradi, hsfj, ham⟩ := hall root.upadesha (by simpa using hu)
  rw [root.entered_renumber, hgana]
  exact ⟨⟨hanit, hkradi, hsfj⟩, ham⟩

-- Without its augment a suffix takes Ric away, and there is nothing left of the root.
theorem text_beforeSuffix (root : Root) (hardha : isArdhadhatuka units = true) :
    (root.entered.beforeSuffix units).text =
      if root.upadesha = "Ric".toList ∧ units.head?.any (·.isTaught "iw".toList) = false then []
      else root.bare := by
  rw [Term.beforeSuffix, hardha, root.isTaught_entered, Bool.not_true, if_neg Bool.false_ne_true]
  by_cases hric : root.upadesha = "Ric".toList
  · rw [beq_iff_eq.mpr hric, Bool.true_and]
    cases units.head?.any (·.isTaught "iw".toList) with
    | false =>
        rw [Bool.not_false, if_pos rfl, if_pos ⟨hric, rfl⟩]
        rfl
    | true =>
        rw [Bool.not_true, if_neg Bool.false_ne_true, if_neg fun h => Bool.noConfusion h.2]
        rfl
  · rw [beq_eq_false_iff_ne.mpr hric, Bool.false_and, if_neg Bool.false_ne_true,
      if_neg fun h => hric h.1]
    rfl

theorem bare_of_samyoganta (h : root.entered.isSamyoganta = true) :
    Sound.isSamyoganta root.bare = true := by
  have hand := h
  rw [Term.isSamyoganta, Sound.isSamyoganta, Bool.and_eq_true, Option.any_eq_true] at hand
  obtain ⟨⟨c, hc, hhal⟩, -⟩ := hand
  rw [bare, Term.withoutFinalA_of_hal hc hhal]
  exact h

theorem gunaOfPerfect_of_none (purusha : Purusha) (h : grade.guna? root.bare = none) :
    root.gunaOfPerfect purusha grade = [] := by
  rw [gunaOfPerfect, h]
  exact ite_self []

theorem stem_of_six (hgana : root.gana = 6) :
    root.stemInit = [] ∧ root.stemLast.classify = root.entered := by
  have hten : ¬root.gana = 10 := by omega
  refine ⟨if_neg hten, ?_⟩
  rw [stemLast, if_neg hten, root.classify_entered]

end Root

namespace Derivation

variable {d : Derivation} {root : Root} {form : VerbForm} {augments rest its : List Term}
  {last e copy : Term} {taken : Bool} {pada : Pada} {purusha : Purusha} {vacana : Vacana}

-- The row of a stem, before the ending Ral is relaxed, if its guna steps are to be `rules`.
def ShowsGuna (taken : Bool) (rules : List Rule) (d : Derivation) : Prop :=
  ∃ init t, d.terms = init ++ [t] ∧ t.hasTag .tin = true ∧
    gunaOf (init ++ [t.relaxed taken]) = rules

section NonPerfect

-- The guna of a root before the suffix of its stem.
theorem gunaOf_first (hgana : root.gana = 6) (light : Bool)
    (hits : ItBefore root.entered ((stemTerm (stemTaught form)).marked light) its)
    (haugments : ∀ t ∈ augments, t.hasTag .dhatu = false)
    (hrest : ∀ t ∈ rest, t.hasTag .dhatu = false) :
    gunaOf (augments ++ root.entered.beforeSuffix
        (its ++ [(stemTerm (stemTaught form)).marked light]) ::
      (its ++ (stemTerm (stemTaught form)).marked light :: rest)) =
        if form.lakara = .lrt then (gunaRule? root.bare).toList else [] := by
  obtain ⟨hplain, hguna, hS, hardha, htakes⟩ := stemTerm_asks light its hits.mem
  obtain ⟨hsuffix, hrootless⟩ := isStemSuffix_stemTerm form
  have hagama := (hsuffix.marked light).agama
  have hnone : gunaOf (its ++ (stemTerm (stemTaught form)).marked light :: rest) = [] := by
    apply gunaOf_of_rootless
    apply hits.noRoot
    rw [List.forall_mem_cons, Term.hasTag_marked (by decide)]
    exact ⟨hrootless, hrest⟩
  rw [gunaOf_append haugments, gunaOf_cons, hnone, List.append_nil]
  rcases stemTaught_cases form with ⟨hlrt, htaught⟩ | ⟨hlrt, htaught⟩
  · rw [if_pos hlrt]
    rw [htaught] at hits hagama ⊢
    have hleft : ¬(root.upadesha = "Ric".toList ∧
        (its ++ [(stemTerm "sya".toList).marked light]).head?.any
          (·.isTaught "iw".toList) = false) := by
      rintro ⟨hric, hno⟩
      rcases hits with ⟨rfl, -⟩ | ⟨rfl, hfree⟩
      · rw [List.singleton_append, List.head?_cons, Option.any_some, iwTerm_taught] at hno
        cases hno
      · rw [hfree (root.entered_bhu_or_ric hgana (.inr hric)).1] at htakes
        cases htakes
    have htags := Term.tags_beforeSuffix (its ++ [(stemTerm "sya".toList).marked light]) root.entered
    rw [filter_strengtheningOf hits.augments hagama, hguna, root.text_beforeSuffix hardha,
      if_neg hleft]
    · rfl
    · rw [Term.hasTag, htags]
      exact root.dhatu_entered
    · rw [Term.hasTag, htags]
      exact root.exempt_entered
    · intro h
      rw [hS] at h
      cases h
  · rw [if_neg hlrt]
    exact filter_strengtheningOf_plain hits.augments hagama (hplain _ htaught) _ _

theorem suffixedRow_of_other (hgana : root.gana = 6) (hform : form.lakara ∈ supportedLakaras)
    (hlit : form.lakara ≠ .lit) (pada : Pada) :
    ∃ init e, suffixesOf form root.gana pada = stemTerm (stemTaught form) :: (init ++ [e]) ∧
      suffixedRow root form pada = root.entered :: stemTerm (stemTaught form) :: (init ++ [e]) := by
  obtain ⟨hinit, hlast⟩ := Root.stem_of_six hgana
  have hsuffixes : suffixesOf form root.gana pada = stemTerm (stemTaught form) ::
      ((givenEnding form.lakara pada form.purusha form.vacana).augments form.lakara ++
        [endingOf form.lakara pada form.purusha form.vacana]) := by
    rw [suffixesOf, hgana, stemSuffix?_of_six hform hlit]
    rfl
  refine ⟨_, _, hsuffixes, ?_⟩
  rw [suffixedRow, Root.front, if_neg hlit, hinit, hlast, hsuffixes]
  rfl

theorem prepared_of_other (hgana : root.gana = 6) (hform : form.lakara ∈ supportedLakaras)
    (hlit : form.lakara ≠ .lit) (taken : Bool) (hd : d.terms = suffixedRow root form pada) :
    d.prepared.Ends (ShowsGuna taken
      (if form.lakara = .lrt then (gunaRule? root.bare).toList else [])) fun _ => True := by
  obtain ⟨init, e, hsuffixes, hrow⟩ := suffixedRow_of_other hgana hform hlit pada
  have hback := isBack_suffixesOf hform root.gana pada
  rw [hrow] at hd
  rw [hsuffixes] at hback
  refine (prepared_of_first hd (isStemSuffix_stemTerm form).1 hback hlit rfl).imp (fun f hf => ?_)
    fun _ h => h
  obtain ⟨augments, its, rest, t, hits, hterms, htin, haugments, hrest⟩ := hf
  have hrelaxed : ∀ u ∈ rest ++ [t.relaxed taken], u.hasTag .dhatu = false := by
    rw [List.forall_mem_append, List.forall_mem_singleton] at hrest ⊢
    rw [Term.hasTag_relaxed rfl]
    exact hrest
  have hguna := gunaOf_first hgana (!root.entered.isSamyoganta) hits haugments hrelaxed
  generalize (stemTerm (stemTaught form)).marked (!root.entered.isSamyoganta) = x at hterms hguna
  generalize root.entered.beforeSuffix (its ++ [x]) = stem at hterms hguna
  refine ⟨augments ++ stem :: (its ++ x :: rest), t, hterms.trans (by simp), htin, ?_⟩
  rw [← hguna]
  exact congrArg gunaOf (by simp)

end NonPerfect

section Perfect

theorem suffixedRow_of_lit (hgana : root.gana = 6) (hlit : form.lakara = .lit) (pada : Pada) :
    suffixedRow root form pada = root.entered ::
      ((if root.entered.amRule?.isSome then [amTerm, auxiliaryRoot] else []) ++
        [endingOf .lit pada form.purusha form.vacana]) := by
  obtain ⟨hinit, hlast⟩ := Root.stem_of_six hgana
  have haugments : (givenEnding form.lakara pada form.purusha form.vacana).augments form.lakara =
      [] := by
    apply if_neg
    rw [hlit]
    exact fun h => Lakara.noConfusion h.1
  rw [suffixedRow, Root.front, suffixesOf, stemSuffix?, if_pos hlit, haugments, hlit, if_pos rfl,
    hinit, hlast, Term.auxiliaries]
  cases root.entered.amRule? with
  | none => rfl
  | some rule => rfl

-- The guna of the last root, doubled, before an ending of the perfect.
theorem gunaOf_last (hits : ItBefore copy e its) (he : IsPerfectSuffix e)
    (hlast : last.hasTag .dhatu = true) (hguna : last.hasTag .gunaExempt = false)
    (hS : anyTagged [.it .S] (its ++ [e.relaxed taken]) = false) :
    gunaOf (last :: (its ++ [e.relaxed taken])) =
      ((gradeOf (its ++ [e.relaxed taken])).guna? last.text).toList := by
  have hno : ∀ t ∈ [e.relaxed taken], t.hasTag .dhatu = false := by
    rw [List.forall_mem_singleton, Term.hasTag_relaxed rfl]
    exact he.dhatu
  have hagama : (e.relaxed taken).hasTag .agama = false :=
    (Term.hasTag_relaxed rfl taken e).trans he.agama
  have hS' : anyTagged [.it .S] (its ++ [e.relaxed taken]) = true →
      gradeOf (its ++ [e.relaxed taken]) = .plain := by
    intro h
    rw [hS] at h
    cases h
  have hunits : ∀ t ∈ its ++ [e.relaxed taken], t.hasTag .dhatu = false :=
    List.forall_mem_append.mpr ⟨hits.forall iwTerm_rootless, hno⟩
  rw [gunaOf_cons, gunaOf_of_rootless hunits, List.append_nil]
  exact filter_strengtheningOf hits.augments hagama hlast hguna hS' []

-- Ric is left before the endings that take iw.
theorem startsWithIt_of_ric (hfree : root.entered.IsFree) (hits : ItBefore root.entered e its)
    (hrefuses : e.refusesIt = (purusha != .madhyama)) (hother : e.isTaught "iw".toList = false) :
    (its ++ [e]).head?.any (·.isTaught "iw".toList) = false ↔ purusha ≠ .madhyama := by
  rcases hits with ⟨rfl, hno⟩ | ⟨rfl, hyes⟩
  · rw [hrefuses, bne_eq_false_iff_eq] at hno
    rw [List.singleton_append, List.head?_cons, Option.any_some, iwTerm_taught, hno]
    simp
  · have hne := hyes hfree
    rw [hrefuses, bne_iff_ne] at hne
    rw [List.nil_append, List.head?_cons, Option.any_some, hother]
    exact iff_of_true rfl hne

-- The guna of the root before an ending of the perfect.
theorem guna?_of_perfect (hgana : root.gana = 6) (hu : root.upadesha ≠ "BU".toList)
    (hits : ItBefore root.entered e its) {grade : Grade}
    (hasks : AsksGrade grade purusha (!root.entered.isSamyoganta) taken its e) :
    ((gradeOf (its ++ [e.relaxed taken])).guna?
        (root.entered.beforeSuffix (its ++ [e])).text).toList =
      root.gunaOfPerfect purusha grade := by
  have hardha : isArdhadhatuka (its ++ [e]) = true := by
    rw [isArdhadhatuka, List.any_append, List.any_cons, hasks.suffix.ardhadhatuka, Bool.true_or,
      Bool.or_true]
  rw [root.text_beforeSuffix hardha]
  by_cases hheavy : root.entered.isSamyoganta = true
  -- Such a root has no guna whatever the ending asks for.
  · have hnone (grade : Grade) : grade.guna? root.bare = none :=
      Grade.guna?_of_samyoganta (Root.bare_of_samyoganta hheavy) grade
    rw [Root.gunaOfPerfect_of_none purusha (hnone _)]
    split
    · rw [Grade.guna?_nil]
      rfl
    · rw [hnone]
      rfl
  · have hlight : (!root.entered.isSamyoganta) = true := by
      rw [Bool.eq_false_of_not_eq_true hheavy]
      rfl
    rw [hasks.asked hlight]
    by_cases hplain : grade = .plain
    · rw [hplain, Root.gunaOfPerfect_of_none purusha rfl]
      rfl
    · rw [Root.gunaOfPerfect]
      by_cases hric : root.upadesha = "Ric".toList
      · have hiff := startsWithIt_of_ric (root.entered_bhu_or_ric hgana (.inr hric)).1 hits
          (hasks.refuses hplain) (hasks.other hplain)
        by_cases hmadhyama : purusha = .madhyama
        · rw [if_neg fun h => hiff.mp h.2 hmadhyama, if_neg]
          rintro (h | h)
          · exact hu h
          · exact h.2 hmadhyama
        · rw [if_pos ⟨hric, hiff.mpr hmadhyama⟩, if_pos (.inr ⟨hric, hmadhyama⟩), Grade.guna?_nil]
          rfl
      · rw [if_neg fun h => hric h.1, if_neg]
        rintro (h | h)
        · exact hu h
        · exact hric h.1

-- A root that is exempt gets no guna.
theorem showsGuna_of_exempt {bare augment : Term}
    (hd : d.terms = [copy] ++ bare :: augment :: (its ++ [e])) (hcopy : copy.hasTag .dhatu = false)
    (hexempt : bare.hasTag .gunaExempt = true) (haugment : augment.hasTag .dhatu = false)
    (hits : ItBefore last e its) (he : IsPerfectSuffix e) : d.ShowsGuna taken [] := by
  have hbefore : ∀ t ∈ [copy], t.hasTag .dhatu = false := List.forall_mem_singleton.mpr hcopy
  have hidle (after : List Term) : strengtheningOf bare after = none := by
    rw [strengtheningOf, hexempt, Bool.or_true, if_pos rfl]
  have hafter : ∀ t ∈ augment :: (its ++ [e.relaxed taken]), t.hasTag .dhatu = false := by
    rw [List.forall_mem_cons, List.forall_mem_append, List.forall_mem_singleton,
      Term.hasTag_relaxed rfl]
    exact ⟨haugment, hits.forall iwTerm_rootless, he.dhatu⟩
  refine ⟨[copy] ++ bare :: augment :: its, e, hd.trans (by simp), he.tin, ?_⟩
  calc gunaOf ([copy] ++ bare :: augment :: its ++ [e.relaxed taken])
      = gunaOf ([copy] ++ bare :: augment :: (its ++ [e.relaxed taken])) := rfl
    _ = [] := by
        rw [gunaOf_append hbefore, gunaOf_cons, hidle, gunaOf_of_rootless hafter]
        rfl

theorem showsGuna_of_perfect (hgana : root.gana = 6) (hu : root.upadesha ≠ "BU".toList)
    (hd : d.terms =
      [copy] ++ (root.entered.beforeSuffix (its ++ [e])).addTag .abhyasta :: (its ++ [e]))
    (hcopy : copy.hasTag .dhatu = false) (hits : ItBefore root.entered e its) {grade : Grade}
    (hasks : AsksGrade grade purusha (!root.entered.isSamyoganta) taken its e) :
    d.ShowsGuna taken (root.gunaOfPerfect purusha grade) := by
  have hbefore : ∀ t ∈ [copy], t.hasTag .dhatu = false := List.forall_mem_singleton.mpr hcopy
  generalize hstem : (root.entered.beforeSuffix (its ++ [e])).addTag .abhyasta = stem at hd
  have htag {x : Tag} (hx : x ≠ .abhyasta) : stem.hasTag x = root.entered.hasTag x := by
    rw [← hstem, Term.hasTag_addTag_of_ne hx, Term.hasTag, Term.tags_beforeSuffix]
    rfl
  refine ⟨[copy] ++ stem :: its, e, hd.trans (by simp), hasks.suffix.tin, ?_⟩
  calc gunaOf ([copy] ++ stem :: its ++ [e.relaxed taken])
      = gunaOf ([copy] ++ (stem :: (its ++ [e.relaxed taken]))) := rfl
    _ = gunaOf (stem :: (its ++ [e.relaxed taken])) := gunaOf_append hbefore
    _ = ((gradeOf (its ++ [e.relaxed taken])).guna? stem.text).toList :=
        gunaOf_last hits hasks.suffix ((htag (by decide)).trans root.dhatu_entered)
          ((htag (by decide)).trans root.exempt_entered) hasks.mid
    _ = ((gradeOf (its ++ [e.relaxed taken])).guna?
          (root.entered.beforeSuffix (its ++ [e])).text).toList := by rw [← hstem]; rfl
    _ = root.gunaOfPerfect purusha grade := guna?_of_perfect hgana hu hits hasks

-- The row of a stem in the perfect, if the root is itself doubled.
theorem prepared_of_single (hgana : root.gana = 6) (taken : Bool)
    (hd : d.terms = [root.entered, endingOf .lit pada purusha vacana]) :
    d.prepared.Ends (ShowsGuna taken
      (root.gunaOfPerfect purusha (perfectGrade pada purusha vacana taken))) fun _ => True := by
  have hasks := perfectEnding_asks pada purusha vacana (!root.entered.isSamyoganta) taken
  generalize he : (endingOf .lit pada purusha vacana).marked (!root.entered.isSamyoganta) = e
    at hasks
  have hsuffix : IsPerfectSuffix e := (hasks [] (by simp)).suffix
  have hcut : d.terms = [] ++ [root.entered, endingOf .lit pada purusha vacana] := hd
  have hdoubled := doubled_of_last hcut root.dhatu_entered root.pratyaya_entered
    (root.hasTag_entered rfl) (List.forall_mem_nil _) he hsuffix
  refine hdoubled.andThen _ fun f hf => ?_
  obtain ⟨copy, its, hcopy, hits, hterms⟩ := hf
  by_cases hu : root.upadesha = "BU".toList
  · have hnone : root.gunaOfPerfect purusha (perfectGrade pada purusha vacana taken) = [] :=
      if_pos (.inl hu)
    have hfree := (root.entered_bhu_or_ric hgana (.inl hu)).1
    rw [hnone]
    refine (prepareStem_of_bhu hterms hcopy hits hsuffix hu hfree).imp (fun g hg => ?_) fun _ h => h
    obtain ⟨bare, augment, hexempt, haugment, hrow⟩ := hg
    exact showsGuna_of_exempt hrow hcopy hexempt haugment hits hsuffix
  · obtain ⟨g, hg, hrow⟩ := prepareStem_of_perfect hterms hcopy hits hsuffix hu
    rw [hg]
    exact showsGuna_of_perfect hgana hu hrow hcopy hits (hasks its hits.mem)

-- Am asks for guna, so that the root has it before Am, and kf what the ending asks for.
theorem showsGuna_of_auxiliary
    (hd : d.terms = root.entered.withoutFinalA :: amTerm :: copy ::
      auxiliaryRoot.addTag .abhyasta :: (its ++ [e]))
    (hcopy : copy.hasTag .dhatu = false) (hits : ItBefore auxiliaryRoot e its) {grade : Grade}
    (hasks : AsksGrade grade purusha (!auxiliaryRoot.isSamyoganta) taken its e) :
    d.ShowsGuna taken ((gunaRule? root.bare).toList ++ (grade.guna? "kf".toList).toList) := by
  obtain ⟨hrootless, hagama, -⟩ := amTerm_plain
  have hfirst (rest : List Term) : ((strengtheningOf root.entered.withoutFinalA
      ([] ++ amTerm :: rest)).map (·.1)).toList.filter isGuna = (gunaRule? root.bare).toList := by
    have hguna : gradeOf ([] ++ [amTerm]) = .guna := by decide +kernel
    have hS : anyTagged [.it .S] ([] ++ [amTerm]) = false := by decide +kernel
    have htags := root.entered.tags_withoutFinalA
    rw [filter_strengtheningOf (List.forall_mem_nil _) hagama, hguna]
    · rfl
    · rw [Term.hasTag, htags]
      exact root.dhatu_entered
    · rw [Term.hasTag, htags]
      exact root.exempt_entered
    · intro h
      rw [hS] at h
      cases h
  have hlast : gunaOf (auxiliaryRoot.addTag .abhyasta :: (its ++ [e.relaxed taken])) =
      (grade.guna? "kf".toList).toList := by
    rw [gunaOf_last hits hasks.suffix rfl rfl hasks.mid, hasks.asked (by decide)]
    rfl
  have hnone : ∀ t ∈ [amTerm, copy], t.hasTag .dhatu = false := by
    rw [List.forall_mem_cons, List.forall_mem_singleton]
    exact ⟨hrootless, hcopy⟩
  refine ⟨root.entered.withoutFinalA :: amTerm :: copy :: auxiliaryRoot.addTag .abhyasta :: its, e,
    hd.trans (by simp), hasks.suffix.tin, ?_⟩
  calc gunaOf (root.entered.withoutFinalA :: amTerm :: copy ::
          auxiliaryRoot.addTag .abhyasta :: its ++ [e.relaxed taken])
      = gunaOf (root.entered.withoutFinalA :: ([amTerm, copy] ++
          (auxiliaryRoot.addTag .abhyasta :: (its ++ [e.relaxed taken])))) := rfl
    _ = (gunaRule? root.bare).toList ++
          gunaOf ([amTerm, copy] ++
            (auxiliaryRoot.addTag .abhyasta :: (its ++ [e.relaxed taken]))) := by
        rw [gunaOf_cons]
        exact congrArg (· ++ _) (hfirst _)
    _ = (gunaRule? root.bare).toList ++ (grade.guna? "kf".toList).toList := by
        rw [gunaOf_append hnone, hlast]

theorem prepared_of_auxiliary (htaught : ∀ u ∈ ["BU".toList, "Ric".toList], root.upadesha ≠ u)
    (taken : Bool)
    (hd : d.terms = [root.entered, amTerm, auxiliaryRoot, endingOf .lit pada purusha vacana]) :
    d.prepared.Ends (ShowsGuna taken ((gunaRule? root.bare).toList ++
      ((perfectGrade pada purusha vacana taken).guna? "kf".toList).toList)) fun _ => True := by
  obtain ⟨-, -, huncopied, -, hunmarked⟩ := amTerm_plain
  have hasks := perfectEnding_asks pada purusha vacana (!auxiliaryRoot.isSamyoganta) taken
  generalize he : (endingOf .lit pada purusha vacana).marked (!auxiliaryRoot.isSamyoganta) = e
    at hasks
  have hsuffix : IsPerfectSuffix e := (hasks [] (by simp)).suffix
  have hbefore : ∀ t ∈ [root.entered, amTerm],
      t.hasTag .abhyasa = false ∧ ∀ light, t.dueMarker? light = none := by
    rw [List.forall_mem_cons, List.forall_mem_singleton]
    refine ⟨⟨root.abhyasa_entered, fun light => ?_⟩, huncopied, hunmarked⟩
    rw [Term.dueMarker?, root.pratyaya_entered]
    rfl
  have hcut : d.terms = [root.entered, amTerm] ++
      [auxiliaryRoot, endingOf .lit pada purusha vacana] := hd
  have hdoubled := doubled_of_last hcut rfl rfl rfl hbefore he hsuffix
  refine hdoubled.andThen _ fun f hf => ?_
  obtain ⟨copy, its, hcopy, hits, hterms⟩ := hf
  obtain ⟨g, hg, hrow⟩ := prepareStem_of_auxiliary htaught hterms hcopy hits hsuffix
  rw [hg]
  exact showsGuna_of_auxiliary hrow hcopy hits (hasks its hits.mem)

end Perfect

-- The row of a stem shows what its guna steps are to be.
theorem prepared_showsGuna (hgana : root.gana = 6) (hform : form.lakara ∈ supportedLakaras)
    (choices : Choices)
    (hd : d.terms = suffixedRow root form ((root.padaChoice form.prayoga).resolve choices).1) :
    d.prepared.Ends (ShowsGuna (choices.permits "7.1.91") (root.gunaRules form choices))
      fun _ => True := by
  by_cases hlit : form.lakara = .lit
  · have hlrt : form.lakara ≠ .lrt := by
      rw [hlit]
      decide
    rw [suffixedRow_of_lit hgana hlit] at hd
    rw [Root.gunaRules, if_neg hlrt, if_pos hlit]
    cases ham : root.entered.amRule? with
    | none =>
        rw [ham] at hd
        exact prepared_of_single hgana _ hd
    | some rule =>
        rw [ham] at hd
        refine prepared_of_auxiliary (fun u hu hsame => ?_) _ hd
        have hnone := (root.entered_bhu_or_ric hgana (by subst hsame; simpa using hu)).2
        rw [ham] at hnone
        cases hnone
  · rw [Root.gunaRules, if_neg hlit]
    exact prepared_of_other hgana hform hlit _ hd

theorem gunaSteps_of_andThen {o : Outcome} {told : Rule → Bool} {steps : List Rule}
    (h : o.Ends (fun e => e.gunaSteps = steps) fun _ => True)
    (htold : ∀ rule, told rule = true → isGuna rule = false) {next : Derivation → Outcome}
    (hnext : ∀ e : Derivation, (next e).RecountsBy told e) :
    (o.andThen next).Ends (fun e => e.gunaSteps = steps) fun _ => True :=
  h.andThen next fun e he =>
    (hnext e).imp (fun _ hf => (gunaSteps_of_recountsBy hf htold).trans he) fun _ h => h

theorem gunaSteps_hardenStem (d : Derivation) :
    d.hardenStem.gunaSteps = d.strengthenStem.gunaSteps := by
  have hsoftened : d.hardenStem.gunaSteps = d.strengthenStem.contractPerfect.gunaSteps :=
    gunaSteps_of_recountsBy (recountsBy_joining (alters_forEach alters_softenFinal _))
      not_isGuna_of_isPlain
  exact hsoftened.trans
    (gunaSteps_of_recountsBy (recountsBy_contractPerfect _) not_isGuna_of_isContraction)

-- The stem is strengthened once; nothing before or after it is guna.
theorem conjugate_gunaSteps (hgana : root.gana = 6) (hform : form.lakara ∈ supportedLakaras)
    (hterms : d.terms = []) (htags : d.tags = []) (hon : d.recording = true)
    (hnone : d.gunaSteps = []) :
    (d.conjugate root form).Ends (fun e => e.gunaSteps = root.gunaRules form d.choices)
      fun _ => True := by
  have hsuffixed := Outcome.Ends.and (@suffixed_decides d root form hform hterms htags)
    (recountsBy_suffixed root form d)
  have hshaped : ((d.suffixed root form).andThen shaped).Ends
      (fun e => e.gunaSteps = root.gunaRules form d.choices) fun _ => True := by
    refine hsuffixed.andThen _ fun e he => ?_
    obtain ⟨⟨hrow, hchoices, -, -⟩, htold⟩ := he
    have hnone' : (d.taggedFor form).gunaSteps = [] := hnone
    have hprepared := ((prepared_showsGuna hgana hform d.choices hrow).and
      (prepared_makes hform hrow)).and (recountsBy_prepared e)
    refine hprepared.map hardenStem fun f hf => ?_
    obtain ⟨⟨⟨init, t, hterms, htin, hguna⟩, -, hrest⟩, htold'⟩ := hf
    have hchoices' : f.choices = d.choices :=
      (choices_eq_of_rest hrest).trans ((choices_decided _ e).trans hchoices)
    have hon' : f.recording = true := htold'.recording.trans (htold.recording.trans hon)
    calc f.hardenStem.gunaSteps = f.strengthenStem.gunaSteps := gunaSteps_hardenStem f
      _ = f.gunaSteps ++ gunaOf (init ++ [t.relaxed (f.choices.permits "7.1.91")]) :=
          gunaSteps_strengthenStem hterms htin hon'
      _ = e.gunaSteps ++ root.gunaRules form d.choices := by
          rw [gunaSteps_of_recountsBy htold' not_isGuna_of_isPlain, hchoices', hguna]
      _ = root.gunaRules form d.choices := by
          rw [gunaSteps_of_recountsBy htold not_isGuna_of_isPlain, hnone', List.nil_append]
  have hfitted : (((d.suffixed root form).andThen shaped).map fitSuffixes).Ends
      (fun e => e.gunaSteps = root.gunaRules form d.choices) fun _ => True :=
    gunaSteps_of_andThen hshaped not_isGuna_of_isPlain recountsBy_fitSuffixes
  rw [conjugate_eq_shaped]
  exact gunaSteps_of_andThen
    (gunaSteps_of_andThen hfitted not_isGuna_of_isPlain recountsBy_joinVowels)
    not_isGuna_of_isPlain recountsBy_joinConsonants

end Derivation

section Kutadi

variable {root : Root} {form : VerbForm}

theorem gunaSteps_of_mem_verbForms (hgana : root.gana = 6) {table : FeatureTable}
    {forms : List Derivation} (hforms : verbForms root form true table = .ok forms)
    {d : Derivation} (hd : d ∈ forms) :
    d.gunaSteps = root.gunaRules form (.ofLedger d.ledger) := by
  obtain ⟨choices, hrun⟩ := run_of_mem_verbForms hforms hd
  have hagain := (Derivation.accountable_conjugate root form).run_ofLedger true table hrun
  exact of_run_done hagain (Derivation.conjugate_gunaSteps hgana
    (mem_supportedLakaras_of_verbForms hforms) rfl rfl rfl rfl)

-- The sub-list of a root is read for akusmiya alone.
theorem conjugationRun_of_kutadi (hkutadi : root.antargana = some .kutadi) (recording : Bool)
    (table : FeatureTable) : conjugationRun root form recording table =
      conjugationRun { root with antargana := none } form recording table := by
  obtain ⟨u, gana, antargana, number⟩ := root
  cases hkutadi
  rfl

theorem verbForms_of_kutadi (hkutadi : root.antargana = some .kutadi) (recording : Bool)
    (table : FeatureTable) : verbForms root form recording table =
      verbForms { root with antargana := none } form recording table := by
  unfold verbForms
  rw [conjugationRun_of_kutadi hkutadi]
  rfl

-- A root of the kutadi list has the forms that it would have outside the list. Each of them has the
-- guna steps of its class, those before sya and before an ending with neither Y nor R among them.
theorem kutadi_takes_guna (hgana : root.gana = 6) (hkutadi : root.antargana = some .kutadi)
    (table : FeatureTable) :
    (∀ recording, verbForms root form recording table =
      verbForms { root with antargana := none } form recording table) ∧
    ∀ forms, verbForms root form true table = .ok forms → ∀ d ∈ forms,
      d.gunaSteps = root.gunaRules form (.ofLedger d.ledger) :=
  ⟨fun recording => verbForms_of_kutadi hkutadi recording table,
    fun _ hforms _ hd => gunaSteps_of_mem_verbForms hgana hforms hd⟩

-- The root kuw, and its form with lrt.
def rootKut : Root := ⟨"kuwa~".toList, 6, some .kutadi, some 93⟩

def lrtForm : VerbForm := ⟨.lrt, .prathama, .eka, .kartari⟩

-- It has guna before sya, as it would outside the list.
theorem kut_takes_guna :
    verbForms rootKut lrtForm true .standard =
        verbForms { rootKut with antargana := none } lrtForm true .standard ∧
      ∃ forms, verbForms rootKut lrtForm true .standard = .ok forms ∧ forms ≠ [] ∧
        ∀ d ∈ forms, d.gunaSteps = ["7.3.86"] := by
  obtain ⟨hsame, hsteps⟩ := @kutadi_takes_guna rootKut lrtForm rfl rfl .standard
  obtain ⟨forms, hok, hne⟩ := @exists_verbForms rootKut lrtForm (by decide) (by decide) (by decide)
    true
  refine ⟨hsame true, forms, hok, hne, fun d hd => ?_⟩
  have hlrt : lrtForm.lakara = .lrt := rfl
  have hguna : gunaRule? rootKut.bare = some "7.3.86" := by decide +kernel
  rw [hsteps forms hok d hd, Root.gunaRules, if_pos hlrt, hguna]
  rfl

def futureOfKut : Outcome := conjugationRun rootKut lrtForm true .standard []

-- Whether no suffix after a root has the marker Y or R.
def Derivation.asksNoVrddhi (d : Derivation) : Bool :=
  (List.range d.terms.length).all fun i =>
    !d.has i (·.hasTag .dhatu) ||
      (d.suffix? i).all fun suffix => !suffix.last.hasTagIn [.it .Y, .it .R]

-- The suffix of this form is sya, which the list was to keep the guna from.
theorem kutadi_is_not_kept_from_guna :
    ¬∀ (root : Root) (form : VerbForm) (forms : List Derivation), root.gana = 6 →
      root.antargana = some .kutadi → verbForms root form true .standard = .ok forms →
      ∀ d ∈ forms, d.asksNoVrddhi = true → ∀ step ∈ d.history, isGuna step.rule = false := by
  intro h
  obtain ⟨forms, hok, -⟩ := @exists_verbForms rootKut lrtForm (by decide) (by decide) (by decide)
    true
  obtain ⟨d, hd, hrun⟩ := mem_verbForms_of_run hok
  have hrecorded : futureOfKut.left.asksNoVrddhi = true ∧
      futureOfKut.left.history.any (isGuna ·.rule) = true := by decide +kernel
  rw [futureOfKut, hrun] at hrecorded
  obtain ⟨step, hstep, hguna⟩ := List.any_eq_true.mp hrecorded.2
  have hno := h rootKut lrtForm forms rfl rfl hok d hd hrecorded.1 step hstep
  rw [hguna] at hno
  cases hno

end Kutadi

end Vyakarana
