import Vyakarana.Proofs.Grammar.SuffixRow

/-!
What a verb form is made of.

The row of a form has two parts. In front stand the roots, with the augments that they take and, in
the perfect, the copy of the last of them; behind stand the suffix of the stem, its augment and the
ending. The rules that shape the stem change what is heard of the terms, put augments into the front
and double the last root. The suffixes stay what they are.
-/

namespace Vyakarana

namespace Term

-- A suffix belongs to one class and not to the other.
def IsClassed (t : Term) : Prop :=
  t.hasTag .pratyaya = true → t.hasTag .sarvadhatuka ≠ t.hasTag .ardhadhatuka

instance (t : Term) : Decidable t.IsClassed :=
  inferInstanceAs (Decidable (t.hasTag .pratyaya = true → _))

-- Neither an ending nor a copy.
structure IsPlain (t : Term) : Prop where
  tin : t.hasTag .tin = false
  abhyasa : t.hasTag .abhyasa = false
  classed : t.IsClassed

instance (t : Term) : Decidable t.IsPlain :=
  decidable_of_iff (t.hasTag .tin = false ∧ t.hasTag .abhyasa = false ∧ t.IsClassed)
    ⟨fun h => ⟨h.1, h.2.1, h.2.2⟩, fun h => ⟨h.tin, h.abhyasa, h.classed⟩⟩

-- The copy of a root is no root.
structure IsCopy (t : Term) : Prop where
  abhyasa : t.hasTag .abhyasa = true
  tin : t.hasTag .tin = false
  dhatu : t.hasTag .dhatu = false
  pratyaya : t.hasTag .pratyaya = false

-- The ending of a form: its person, its number and its lakara are those of the form.
structure IsEnding (form : VerbForm) (t : Term) : Prop where
  tin : t.hasTag .tin = true
  pratyaya : t.hasTag .pratyaya = true
  vibhakti : t.hasTag .vibhakti = true
  purusha : ∀ purusha, t.hasTag (.purusha purusha) = (purusha == form.purusha)
  vacana : ∀ vacana, t.hasTag (.vacana vacana) = (vacana == form.vacana)
  lakshana : t.lakshanas.head? = some form.lakara.upadesha

variable {t t' : Term} {form : VerbForm}

theorem IsClassed.of_kind (h : t.IsClassed) (hkind : t'.kind = t.kind) : t'.IsClassed := by
  unfold IsClassed
  rw [hasTag_eq_of_kind hkind rfl, hasTag_eq_of_kind hkind rfl, hasTag_eq_of_kind hkind rfl]
  exact h

theorem IsPlain.of_kind (h : t.IsPlain) (hkind : t'.kind = t.kind) : t'.IsPlain where
  tin := (hasTag_eq_of_kind hkind rfl).trans h.tin
  abhyasa := (hasTag_eq_of_kind hkind rfl).trans h.abhyasa
  classed := h.classed.of_kind hkind

theorem IsCopy.of_kind (h : t.IsCopy) (hkind : t'.kind = t.kind) : t'.IsCopy where
  abhyasa := (hasTag_eq_of_kind hkind rfl).trans h.abhyasa
  tin := (hasTag_eq_of_kind hkind rfl).trans h.tin
  dhatu := (hasTag_eq_of_kind hkind rfl).trans h.dhatu
  pratyaya := (hasTag_eq_of_kind hkind rfl).trans h.pratyaya

theorem IsEnding.of_kind (h : t.IsEnding form) (hkind : t'.kind = t.kind) : t'.IsEnding form where
  tin := (hasTag_eq_of_kind hkind rfl).trans h.tin
  pratyaya := (hasTag_eq_of_kind hkind rfl).trans h.pratyaya
  vibhakti := (hasTag_eq_of_kind hkind rfl).trans h.vibhakti
  purusha purusha := (hasTag_eq_of_kind hkind rfl).trans (h.purusha purusha)
  vacana vacana := (hasTag_eq_of_kind hkind rfl).trans (h.vacana vacana)
  lakshana := (congrArg List.head? (lakshanas_eq_of_kind hkind)).trans h.lakshana

-- A plain term that is tagged as part of a reduplicated root is still plain.
theorem IsPlain.abhyasta (h : t.IsPlain) : (t.addTag .abhyasta).IsPlain := by
  have htag (x : Tag) (hx : x ≠ .abhyasta) : (t.addTag .abhyasta).hasTag x = t.hasTag x :=
    hasTag_addTag_of_ne hx t
  refine ⟨(htag _ (by decide)).trans h.tin, (htag _ (by decide)).trans h.abhyasa, ?_⟩
  unfold IsClassed
  rw [htag _ (by decide), htag _ (by decide), htag _ (by decide)]
  exact h.classed

end Term

-- An augment as it stands in the row, whatever its markers.
def IsAugment (t : Term) : Prop := ∃ u, t.kind = (Term.ofAgama u).kind

theorem isAugment_stripped (u : Text) : IsAugment ((Term.ofAgama u).stripped u) :=
  ⟨u, Term.kind_stripped u _⟩

namespace IsAugment

variable {t : Term}

theorem isPlain (h : IsAugment t) : t.IsPlain := by
  obtain ⟨u, hkind⟩ := h
  exact Term.IsPlain.of_kind (t := Term.ofAgama u) ⟨rfl, rfl, fun h => by cases h⟩ hkind

theorem abhyasta (h : IsAugment t) : t.hasTag .abhyasta = false := by
  obtain ⟨u, hkind⟩ := h
  rw [Term.hasTag_eq_of_kind hkind rfl]
  rfl

theorem dhatu (h : IsAugment t) : t.hasTag .dhatu = false := by
  obtain ⟨u, hkind⟩ := h
  rw [Term.hasTag_eq_of_kind hkind rfl]
  rfl

end IsAugment

-- The front of a row, before and after the last root is doubled.
inductive Front : Bool → List Term → Prop
  | single {front : List Term} (plain : ∀ t ∈ front, t.IsPlain ∧ t.hasTag .abhyasta = false) :
      Front false front
  | doubled {before after : List Term} {copy root : Term}
      (plain : ∀ t ∈ before ++ root :: after, t.IsPlain) (hcopy : copy.IsCopy)
      (hroot : root.hasTag .dhatu = true) (last : ∀ t ∈ after, t.hasTag .dhatu = false) :
      Front true (before ++ copy :: root :: after)

-- What holds of the terms of a row holds of terms of their kind.
theorem forall_of_kinds {P : Term → Prop} (hP : ∀ t t' : Term, t'.kind = t.kind → P t → P t')
    {row row' : List Term} (hrow : row'.map Term.kind = row.map Term.kind) (h : ∀ t ∈ row, P t) :
    ∀ t ∈ row', P t := by
  intro t' ht'
  have hmem : t'.kind ∈ row.map Term.kind := hrow ▸ List.mem_map_of_mem ht'
  obtain ⟨t, ht, hkind⟩ := List.mem_map.mp hmem
  exact hP t t' hkind.symm (h t ht)

namespace Front

variable {doubled : Bool} {front front' before after : List Term} {t a : Term}

theorem of_kinds (h : Front doubled front) (hkinds : front'.map Term.kind = front.map Term.kind) :
    Front doubled front' := by
  cases h with
  | single hplain =>
      refine .single (forall_of_kinds (fun t t' hkind ht => ⟨ht.1.of_kind hkind, ?_⟩) hkinds hplain)
      exact (Term.hasTag_eq_of_kind hkind rfl).trans ht.2
  | @doubled before after copy root hplain hcopy hroot hlast =>
      simp only [List.map_append, List.map_cons, List.map_eq_append_iff, List.map_eq_cons_iff]
        at hkinds
      obtain ⟨before', _, rfl, hbefore, copy', _, rfl, hcopy', root', after', rfl, hroot', hafter⟩ :=
        hkinds
      refine .doubled (forall_of_kinds (fun t t' hkind ht => ht.of_kind hkind) ?_ hplain)
        (hcopy.of_kind hcopy') ((Term.hasTag_eq_of_kind hroot' rfl).trans hroot)
        (forall_of_kinds (fun t t' hkind ht => ?_) hafter hlast)
      · rw [List.map_append, List.map_cons, List.map_append, List.map_cons, hbefore, hroot', hafter]
      · exact (Term.hasTag_eq_of_kind hkind rfl).trans ht

theorem noEnding (h : Front doubled front) : ∀ t ∈ front, t.hasTag .tin = false := by
  cases h with
  | single hplain => exact fun t ht => (hplain t ht).1.tin
  | doubled hplain hcopy =>
      simp only [List.forall_mem_append, List.forall_mem_cons] at hplain ⊢
      exact ⟨fun t ht => (hplain.1 t ht).tin, hcopy.tin, hplain.2.1.tin,
        fun t ht => (hplain.2.2 t ht).tin⟩

-- Before the root is doubled an augment may stand anywhere.
theorem insert (h : Front false (before ++ after)) (ha : IsAugment a) :
    Front false (before ++ a :: after) := by
  cases h with
  | single hplain =>
      rw [List.forall_mem_append] at hplain
      exact .single (List.forall_mem_append.mpr
        ⟨hplain.1, List.forall_mem_cons.mpr ⟨⟨ha.isPlain, ha.abhyasta⟩, hplain.2⟩⟩)

-- An augment after a root does not come between the copy and its root.
theorem insert_after (h : Front doubled (before ++ t :: after)) (ht : t.hasTag .dhatu = true)
    (ha : IsAugment a) : Front doubled (before ++ t :: a :: after) := by
  generalize hrow : before ++ t :: after = row at h
  cases h with
  | single hplain =>
      have hfront : Front false ((before ++ [t]) ++ after) := by
        rw [List.append_assoc, List.singleton_append, hrow]
        exact .single hplain
      have := hfront.insert ha
      rwa [List.append_assoc, List.singleton_append] at this
  | @doubled first last copy root hplain hcopy hroot hlast =>
      have hnot : t ≠ copy := fun h => by
        rw [h, hcopy.dhatu] at ht
        cases ht
      simp only [List.forall_mem_append, List.forall_mem_cons] at hplain
      rcases cut_cases hrow hnot with ⟨more, rfl, rfl⟩ | ⟨more, rfl, hmore⟩
      · rw [show before ++ t :: a :: (more ++ copy :: root :: last) =
          (before ++ t :: a :: more) ++ copy :: root :: last by simp]
        refine .doubled ?_ hcopy hroot hlast
        simp only [List.forall_mem_append, List.forall_mem_cons] at hplain ⊢
        exact ⟨⟨hplain.1.1, hplain.1.2.1, ha.isPlain, hplain.1.2.2⟩, hplain.2⟩
      · rcases more with _ | ⟨u, more⟩
        · obtain ⟨rfl, rfl⟩ := List.cons.inj hmore
          rw [List.append_assoc, List.singleton_append]
          refine .doubled ?_ hcopy hroot (List.forall_mem_cons.mpr ⟨ha.dhatu, hlast⟩)
          simp only [List.forall_mem_append, List.forall_mem_cons]
          exact ⟨hplain.1, hplain.2.1, ha.isPlain, hplain.2.2⟩
        · obtain ⟨rfl, rfl⟩ := List.cons.inj hmore
          have := hlast t (by simp)
          rw [ht] at this
          cases this

theorem double (h : Front false (before ++ t :: after)) (ht : t.hasTag .dhatu = true)
    (hafter : ∀ u ∈ after, u.hasTag .dhatu = false) {copy : Term} (hcopy : copy.IsCopy) :
    Front true (before ++ copy :: t.addTag .abhyasta :: after) := by
  cases h with
  | single hplain =>
      refine .doubled ?_ hcopy ?_ hafter
      · simp only [List.forall_mem_append, List.forall_mem_cons] at hplain ⊢
        exact ⟨fun u hu => (hplain.1 u hu).1, hplain.2.1.1.abhyasta,
          fun u hu => (hplain.2.2 u hu).1⟩
      · exact (Term.hasTag_addTag_of_ne (by decide) t).trans ht

end Front

-- What stands behind the front: at the end of the row the ending, and nothing else that a rule takes
-- for a root, a copy or an ending.
structure IsBack (form : VerbForm) (back : List Term) : Prop where
  ending : ∃ init e, back = init ++ [e] ∧ e.IsEnding form ∧ IsGiven form.lakara e ∧
    ∀ t ∈ init, t.hasTag .tin = false
  noRoot : ∀ t ∈ back, t.hasTag .dhatu = false
  noCopy : ∀ t ∈ back, t.hasTag .abhyasa = false
  classed : ∀ t ∈ back, t.IsClassed

theorem IsBack.of_kinds {form : VerbForm} {back back' : List Term} (h : IsBack form back)
    (hkinds : back'.map Term.kind = back.map Term.kind) : IsBack form back' := by
  obtain ⟨init, e, rfl, hending, hgiven, hinit⟩ := h.ending
  rw [List.map_append, List.map_singleton] at hkinds
  obtain ⟨init', last, rfl, hinit', hlast⟩ := List.map_eq_append_iff.mp hkinds
  obtain ⟨e', rfl, he⟩ := List.map_eq_singleton_iff.mp hlast
  have hall : ∀ {tag : Tag}, tag.isMark = false → (∀ t ∈ init ++ [e], t.hasTag tag = false) →
      ∀ t ∈ init' ++ [e'], t.hasTag tag = false := fun hmark =>
    forall_of_kinds (fun t t' hkind ht => (Term.hasTag_eq_of_kind hkind hmark).trans ht)
      (by rw [hkinds, List.map_append, List.map_singleton])
  refine ⟨⟨init', e', rfl, hending.of_kind he, hgiven.of_kind he, ?_⟩, hall rfl h.noRoot,
    hall rfl h.noCopy, ?_⟩
  · exact forall_of_kinds (fun t t' hkind ht => (Term.hasTag_eq_of_kind hkind rfl).trans ht)
      hinit' hinit
  · exact forall_of_kinds (fun t t' hkind ht => ht.of_kind hkind)
      (by rw [hkinds, List.map_append, List.map_singleton]) h.classed

theorem IsBack.last {form : VerbForm} {init : List Term} {e : Term}
    (h : IsBack form (init ++ [e])) : e.IsEnding form ∧ IsGiven form.lakara e := by
  obtain ⟨init', e', heq, hending, hgiven, -⟩ := h.ending
  cases List.append_inj_right' heq rfl
  exact ⟨hending, hgiven⟩

instance (form : VerbForm) (t : Term) : Decidable (t.IsEnding form) :=
  decidable_of_iff (t.hasTag .tin = true ∧ t.hasTag .pratyaya = true ∧ t.hasTag .vibhakti = true ∧
      (∀ purusha ∈ Purusha.all, t.hasTag (.purusha purusha) = (purusha == form.purusha)) ∧
      (∀ vacana ∈ Vacana.all, t.hasTag (.vacana vacana) = (vacana == form.vacana)) ∧
      t.lakshanas.head? = some form.lakara.upadesha)
    ⟨fun ⟨htin, hpratyaya, hvibhakti, hpurusha, hvacana, hlakshana⟩ =>
        ⟨htin, hpratyaya, hvibhakti, fun purusha => hpurusha purusha (by cases purusha <;> decide),
          fun vacana => hvacana vacana (by cases vacana <;> decide), hlakshana⟩,
      fun h => ⟨h.tin, h.pratyaya, h.vibhakti, fun purusha _ => h.purusha purusha,
        fun vacana _ => h.vacana vacana, h.lakshana⟩⟩

-- The suffixes of the stem.
def stemSuffixes : List Term :=
  ["sya".toList, "yak".toList, "Sap".toList, "Syan".toList, "Sa".toList].map fun u =>
    (suffixTerm u [.pratyaya, .vikarana]).classify

theorem mem_stemSuffixes {form : VerbForm} {gana : Int} {pada : Pada} {t : Term}
    (h : stemSuffix? form gana pada = some t) : t ∈ stemSuffixes := by
  unfold stemSuffix? at h
  split at h
  · cases h
  · obtain ⟨u, hu, rfl⟩ := Option.map_eq_some_iff.mp h
    refine List.mem_map_of_mem ?_
    unfold Term.stemSuffix? at hu
    repeat' split at hu
    · cases hu
      decide
    · cases hu
    · cases hu
      decide
    · obtain ⟨⟨rule, u⟩, hclass, rfl⟩ := Option.map_eq_some_iff.mp hu
      rw [Option.bind_some] at hclass
      unfold classSuffix? at hclass
      repeat' split at hclass
      all_goals cases hclass
      all_goals decide

-- What can stand between the last root and the ending.
def innerSuffixes : List Term := (Term.ofAgama "Aw".toList).stripped "Aw".toList :: stemSuffixes

theorem mem_innerSuffixes (form : VerbForm) (gana : Int) (pada : Pada) :
    ∀ t ∈ (stemSuffix? form gana pada).toList ++
      (givenEnding form.lakara pada form.purusha form.vacana).augments form.lakara,
        t ∈ innerSuffixes := by
  refine List.forall_mem_append.mpr ⟨fun t ht => ?_, ?_⟩
  · exact List.mem_cons_of_mem _ (mem_stemSuffixes (Option.mem_toList.mp ht))
  · unfold Term.augments
    split
    · simp [innerSuffixes]
    · simp

-- What is added to the root: Ric, and Am with the root kf.
def addedRoots : List Term :=
  [ricTerm, (Term.ofUpadesha "Am".toList).addTag .pratyaya, auxiliaryRoot].map Term.classify

theorem Root.front_cut (root : Root) (lakara : Lakara) :
    ∃ more, root.front lakara = root.entered :: more ∧ ∀ t ∈ more, t ∈ addedRoots := by
  have hauxiliaries (t : Term) : ∀ u ∈ (if lakara = .lit then t.auxiliaries.map Term.classify
      else []), u ∈ addedRoots := by
    unfold Term.auxiliaries
    split
    · split
      · simp
      · simp [addedRoots]
    · simp
  rw [front]
  rcases root.stem_cases with ⟨-, hinit, hlast⟩ | ⟨-, hinit, hlast⟩
  · rw [hinit, hlast]
    exact ⟨_, rfl, List.forall_mem_cons.mpr ⟨List.mem_cons_self, hauxiliaries _⟩⟩
  · rw [hinit, hlast, root.classify_entered]
    exact ⟨_, rfl, hauxiliaries _⟩

-- These terms are taught once, and are in no list of roots.
theorem bare_of_mem_added : ∀ t ∈ addedRoots ++ innerSuffixes,
    t.number = none ∧ t.lakshanas = [] := by
  decide +kernel

theorem suffixedRow_cut (root : Root) (form : VerbForm) (pada : Pada) :
    ∃ added, suffixedRow root form pada =
        root.entered :: added ++ [endingOf form.lakara pada form.purusha form.vacana] ∧
      ∀ t ∈ added, t.number = none ∧ t.lakshanas = [] := by
  obtain ⟨more, hfront, hmore⟩ := root.front_cut form.lakara
  refine ⟨more ++ ((stemSuffix? form root.gana pada).toList ++
    (givenEnding form.lakara pada form.purusha form.vacana).augments form.lakara), ?_, ?_⟩
  · rw [suffixedRow, hfront, suffixesOf]
    simp only [List.cons_append, List.append_assoc]
  · refine List.forall_mem_append.mpr ⟨fun t ht => ?_, fun t ht => ?_⟩
    · exact bare_of_mem_added t (List.mem_append_left _ (hmore t ht))
    · exact bare_of_mem_added t
        (List.mem_append_right _ (mem_innerSuffixes form root.gana pada t ht))

-- A term that is no ending, no copy and no root.
def IsInner (t : Term) : Prop := t.IsPlain ∧ t.hasTag .dhatu = false

instance (t : Term) : Decidable (IsInner t) := inferInstanceAs (Decidable (_ ∧ _))

theorem isBack_suffixesOf {form : VerbForm} (hform : form.lakara ∈ supportedLakaras) (gana : Int)
    (pada : Pada) : IsBack form (suffixesOf form gana pada) := by
  obtain ⟨hending, hgiven, hcopy, hclassed⟩ :=
    forall_endings (P := fun lakara pada purusha vacana =>
      (endingOf lakara pada purusha vacana).IsEnding ⟨lakara, purusha, vacana, .kartari⟩ ∧
        IsGiven lakara (endingOf lakara pada purusha vacana) ∧
        (endingOf lakara pada purusha vacana).hasTag .abhyasa = false ∧
        (endingOf lakara pada purusha vacana).IsClassed)
      (by decide +kernel) hform pada form.purusha form.vacana
  have hall : ∀ t ∈ innerSuffixes, IsInner t := by decide +kernel
  have hinner := fun t ht => hall t (mem_innerSuffixes form gana pada t ht)
  refine ⟨⟨_, _, rfl, ⟨hending.tin, hending.pratyaya, hending.vibhakti, hending.purusha,
    hending.vacana, hending.lakshana⟩, hgiven, fun t ht => (hinner t ht).1.tin⟩, ?_, ?_, ?_⟩
  · exact List.forall_mem_append.mpr
      ⟨fun t ht => (hinner t ht).2, by simpa using hgiven.dhatu⟩
  · exact List.forall_mem_append.mpr
      ⟨fun t ht => (hinner t ht).1.abhyasa, by simpa using hcopy⟩
  · exact List.forall_mem_append.mpr
      ⟨fun t ht => (hinner t ht).1.classed, by simpa using hclassed⟩

-- The row of a form: the front, a root in it, and behind the front `suffixes`, up to their marks.
def MadeOf (suffixes : List Term) (doubled : Bool) (row : List Term) : Prop :=
  ∃ front back, row = front ++ back ∧ Front doubled front ∧
    (∃ t ∈ front, t.hasTag .dhatu = true) ∧ Reshapes [] suffixes back

theorem Root.front_single (root : Root) (lakara : Lakara) : Front false (root.front lakara) := by
  have hentered : root.entered.IsPlain ∧ root.entered.hasTag .abhyasta = false := by
    refine ⟨⟨root.hasTag_entered rfl, root.hasTag_entered rfl, fun h => ?_⟩,
      root.hasTag_entered rfl⟩
    rw [root.hasTag_entered rfl] at h
    cases h
  have hadded : ∀ t ∈ addedRoots, t.IsPlain ∧ t.hasTag .abhyasta = false := by decide +kernel
  obtain ⟨more, hfront, hmore⟩ := root.front_cut lakara
  rw [hfront]
  exact .single (List.forall_mem_cons.mpr ⟨hentered, fun t ht => hadded t (hmore t ht)⟩)

theorem madeOf_suffixedRow (root : Root) (form : VerbForm) (pada : Pada) :
    MadeOf (suffixesOf form root.gana pada) false (suffixedRow root form pada) :=
  ⟨_, _, rfl, root.front_single form.lakara,
    ⟨root.stemLast.classify, by simp [Root.front], root.classified_stem.2⟩, reshapes_self [] _⟩

-- The tags of the terms whose text is changed while the suffixes stay as they are.
def frontTags : List Tag := [.abhyasa, .dhatu]

namespace MadeOf

variable {form : VerbForm} {suffixes row row' before after : List Term} {doubled : Bool}
  {t a : Term}

-- No root stands among the suffixes, so a root is in front.
theorem cut_front (h : MadeOf suffixes doubled (before ++ t :: after)) (hs : IsBack form suffixes)
    (ht : t.hasTag .dhatu = true) :
    ∃ more back, after = more ++ back ∧ Front doubled (before ++ t :: more) ∧
      Reshapes [] suffixes back := by
  obtain ⟨front, back, hrow, hfront, -, hback⟩ := h
  have hno : ∀ u ∈ back, u.hasTag .dhatu = false :=
    forall_of_kinds (fun u u' hkind hu => (Term.hasTag_eq_of_kind hkind rfl).trans hu)
      hback.outline hs.noRoot
  have hnot : t ∉ back := fun hmem => by
    rw [hno t hmem] at ht
    cases ht
  rcases List.append_eq_append_iff.mp hrow with ⟨more, rfl, hmore⟩ | ⟨more, rfl, hmore⟩
  · rcases List.cons_eq_append_iff.mp hmore with ⟨rfl, heq⟩ | ⟨more, rfl, rfl⟩
    · exact absurd (by rw [heq]; exact List.mem_cons_self) hnot
    · exact ⟨more, back, rfl, hfront, hback⟩
  · exact absurd (by rw [hmore]; simp) hnot

theorem augment_after (h : MadeOf suffixes doubled (before ++ t :: after))
    (hs : IsBack form suffixes) (ht : t.hasTag .dhatu = true) (ha : IsAugment a) :
    MadeOf suffixes doubled (before ++ t :: a :: after) := by
  obtain ⟨more, back, rfl, hfront, hback⟩ := h.cut_front hs ht
  exact ⟨before ++ t :: a :: more, back, by simp, hfront.insert_after ht ha, ⟨t, by simp, ht⟩, hback⟩

theorem augment_before (h : MadeOf suffixes false (before ++ t :: after))
    (hs : IsBack form suffixes) (ht : t.hasTag .dhatu = true) (ha : IsAugment a) :
    MadeOf suffixes false (before ++ a :: t :: after) := by
  obtain ⟨more, back, rfl, hfront, hback⟩ := h.cut_front hs ht
  exact ⟨before ++ a :: t :: more, back, by simp, hfront.insert ha, ⟨t, by simp, ht⟩, hback⟩

theorem double (h : MadeOf suffixes false (before ++ t :: after)) (hs : IsBack form suffixes)
    (ht : t.hasTag .dhatu = true) (hafter : ∀ u ∈ after, u.hasTag .dhatu = false) {copy : Term}
    (hcopy : copy.IsCopy) :
    MadeOf suffixes true (before ++ copy :: t.addTag .abhyasta :: after) := by
  obtain ⟨more, back, rfl, hfront, hback⟩ := h.cut_front hs ht
  refine ⟨before ++ copy :: t.addTag .abhyasta :: more, back, by simp,
    hfront.double ht (fun u hu => hafter u (List.mem_append_left _ hu)) hcopy,
    ⟨t.addTag .abhyasta, by simp, ?_⟩, hback⟩
  exact (Term.hasTag_addTag_of_ne (by decide) t).trans ht

theorem fronted {front : List Term} (h : ∃ t ∈ front, t.hasTag .dhatu = true) {front' : List Term}
    (hkinds : front'.map Term.kind = front.map Term.kind) :
    ∃ t ∈ front', t.hasTag .dhatu = true := by
  by_contra hnone
  have hall := forall_of_kinds (P := fun t => t.hasTag .dhatu = false)
    (fun t t' hkind ht => (Term.hasTag_eq_of_kind hkind rfl).trans ht) hkinds.symm
    fun t ht => by
      by_contra hyes
      exact hnone ⟨t, ht, by simpa using hyes⟩
  obtain ⟨t, ht, hdhatu⟩ := h
  rw [hall t ht] at hdhatu
  cases hdhatu

-- A rule that changes texts in front leaves the suffixes as they are.
theorem reshapes (h : MadeOf suffixes doubled row) (hs : IsBack form suffixes)
    (hrow : Reshapes frontTags row row') : MadeOf suffixes doubled row' := by
  obtain ⟨front, back, rfl, hfront, hroot, hback⟩ := h
  obtain ⟨front', back', rfl, hfront', hback'⟩ := hrow.append
  have hback'' : Reshapes [] back back' := hback'.of_untagged <|
    forall_of_kinds (P := fun t => t.kind.hasTagIn frontTags = false)
      (fun t t' hkind ht => hkind ▸ ht) hback.outline fun t ht => by
        simp [frontTags, Term.hasTagIn, Term.hasTag_kind (x := .abhyasa) rfl,
          Term.hasTag_kind (x := .dhatu) rfl, hs.noCopy t ht, hs.noRoot t ht]
  exact ⟨front', back', rfl, hfront.of_kinds hfront'.outline, fronted hroot hfront'.outline,
    hback.trans hback''⟩

-- Any other rule changes what is heard of the suffixes, and not what they are.
theorem of_outline (h : MadeOf suffixes doubled row)
    (hrow : row'.map Term.kind = row.map Term.kind) :
    ∃ suffixes', suffixes'.map Term.kind = suffixes.map Term.kind ∧
      MadeOf suffixes' doubled row' := by
  obtain ⟨front, back, rfl, hfront, hroot, hback⟩ := h
  rw [List.map_append] at hrow
  obtain ⟨front', back', rfl, hfront', hback'⟩ := List.map_eq_append_iff.mp hrow
  exact ⟨back', hback'.trans hback.outline, front', back', rfl, hfront.of_kinds hfront',
    fronted hroot hfront', reshapes_self [] _⟩

-- The ending is the last term, and only its text and its marks may be others.
theorem cut_ending {init : List Term} {e₀ : Term} (h : MadeOf (init ++ [e₀]) doubled row) :
    ∃ before e, row = before ++ [e] ∧ e.kind = e₀.kind ∧ e.text = e₀.text ∧
      ∀ e' e₀' : Term, e'.kind = e₀'.kind → e'.text = e₀'.text →
        MadeOf (init ++ [e₀']) doubled (before ++ [e']) := by
  obtain ⟨front, back, rfl, hfront, hroot, hback⟩ := h
  obtain ⟨init', last, rfl, hinit, hlast⟩ := hback.append
  cases hlast with
  | @cons _ e _ _ he hnil =>
      cases hnil
      refine ⟨front ++ init', e, by simp, he.1, he.2 rfl, fun e' e₀' hkind htext => ?_⟩
      exact ⟨front, init' ++ [e'], by simp, hfront, hroot,
        List.rel_append hinit (.cons ⟨hkind, fun _ => htext⟩ .nil)⟩

-- What is in front and among the suffixes, taken together.
theorem ending (h : MadeOf suffixes doubled row) (hs : IsBack form suffixes) :
    ∃ before e, row = before ++ [e] ∧ e.IsEnding form ∧ IsGiven form.lakara e ∧
      ∀ t ∈ before, t.hasTag .tin = false := by
  obtain ⟨init, e₀, rfl, hending, hgiven, hinit⟩ := hs.ending
  obtain ⟨front, back, rfl, hfront, hroot, hback⟩ := h
  obtain ⟨init', last, rfl, hinit', hlast⟩ := hback.append
  cases hlast with
  | @cons _ e _ _ he hnil =>
      cases hnil
      refine ⟨front ++ init', e, by simp, hending.of_kind he.1, hgiven.of_kind he.1,
        List.forall_mem_append.mpr ⟨hfront.noEnding, ?_⟩⟩
      exact forall_of_kinds (fun t t' hkind ht => (Term.hasTag_eq_of_kind hkind rfl).trans ht)
        hinit'.outline hinit

theorem cut_lastTin {d : Derivation} (h : MadeOf suffixes doubled d.terms)
    (hs : IsBack form suffixes) :
    ∃ before e, d.terms = before ++ [e] ∧ d.lastTagged? .tin = some before.length ∧
      e.IsEnding form ∧ IsGiven form.lakara e := by
  obtain ⟨before, e, hrow, hending, hgiven, -⟩ := h.ending hs
  exact ⟨before, e, hrow, d.lastTagged?_of_cut hrow hending.tin (by simp), hending, hgiven⟩

theorem uncopied (h : MadeOf suffixes false row) (hs : IsBack form suffixes) :
    ∀ t ∈ row, t.hasTag .abhyasa = false := by
  obtain ⟨front, back, rfl, hfront, -, hback⟩ := h
  have hno := forall_of_kinds (fun t t' hkind ht => (Term.hasTag_eq_of_kind hkind rfl).trans ht)
    hback.outline hs.noCopy
  cases hfront with
  | single hplain =>
      exact List.forall_mem_append.mpr ⟨fun t ht => (hplain t ht).1.abhyasa, hno⟩

-- The copy stands right before the last root, and there is no other.
theorem copied (h : MadeOf suffixes true row) (hs : IsBack form suffixes) :
    ∃ before copy root after, row = before ++ copy :: root :: after ∧ copy.IsCopy ∧
      root.hasTag .dhatu = true ∧ (∀ t ∈ before ++ root :: after, t.hasTag .abhyasa = false) ∧
      ∀ t ∈ after, t.hasTag .dhatu = false := by
  obtain ⟨front, back, rfl, hfront, -, hback⟩ := h
  have hno {tag : Tag} (hmark : tag.isMark = false) :=
    forall_of_kinds (P := fun t => t.hasTag tag = false)
      (fun t t' hkind ht => (Term.hasTag_eq_of_kind hkind hmark).trans ht) hback.outline
  cases hfront with
  | @doubled before after copy root hplain hcopy hroot hlast =>
      refine ⟨before, copy, root, after ++ back, by simp, hcopy, hroot, ?_,
        List.forall_mem_append.mpr ⟨hlast, hno rfl hs.noRoot⟩⟩
      rw [show before ++ root :: (after ++ back) = (before ++ root :: after) ++ back by simp]
      exact List.forall_mem_append.mpr
        ⟨fun t ht => (hplain t ht).abhyasa, hno rfl hs.noCopy⟩

theorem classed (h : MadeOf suffixes doubled row) (hs : IsBack form suffixes) :
    ∀ t ∈ row, t.IsClassed := by
  obtain ⟨front, back, rfl, hfront, -, hback⟩ := h
  refine List.forall_mem_append.mpr ⟨?_, forall_of_kinds (fun t t' hkind ht => ht.of_kind hkind)
    hback.outline hs.classed⟩
  cases hfront with
  | single hplain => exact fun t ht => (hplain t ht).1.classed
  | doubled hplain hcopy =>
      simp only [List.forall_mem_append, List.forall_mem_cons] at hplain ⊢
      refine ⟨fun t ht => (hplain.1 t ht).classed, fun hpratyaya => ?_, hplain.2.1.classed,
        fun t ht => (hplain.2.2 t ht).classed⟩
      rw [hcopy.pratyaya] at hpratyaya
      cases hpratyaya

end MadeOf

end Vyakarana
