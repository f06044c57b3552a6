import Vyakarana.Proofs.Grammar.CopyShape

/-!
What the roots of a row, and the copy of the last of them, begin with.

The rules that shape the stem change the last sounds of a root, and where they reach the first one
they leave a vowel or nothing there. So a root that begins with a consonant has begun with it from
the entry on. The copy begins as its root does, except that 7.4.62 has put a palatal in the place of
a stop of the throat or of h.
-/

namespace Vyakarana

namespace Term

-- What becomes of a term that keeps its first sound, or comes to begin with no consonant.
structure OpensLike (t t' : Term) : Prop where
  kind : t'.kind = t.kind
  adi : ∀ x, t'.adi? = some x → Sound.isHal x = true → t.adi? = some x

variable {s : Text} {t t' : Term}

theorem OpensLike.rfl : t.OpensLike t := ⟨Eq.refl _, fun _ h _ => h⟩

theorem OpensLike.ite {c : Prop} [Decidable c] (h : t.OpensLike t') :
    t.OpensLike (if c then t' else t) := by
  split
  · exact h
  · exact .rfl

-- The new text begins with no consonant.
theorem opensLike_setText (hs : s.head?.any Sound.isHal = false) (t : Term) :
    t.OpensLike (t.setText s) := by
  refine ⟨kind_setText s t, fun x hx hhal => ?_⟩
  rw [show s.head? = some x from hx, Option.any_some, hhal] at hs
  cases hs

theorem opensLike_setAdi (hs : s.head?.any Sound.isHal = false) (hne : s ≠ []) (t : Term) :
    t.OpensLike (t.setAdi s) := by
  refine opensLike_setText ?_ t
  rwa [List.head?_append_of_ne_nil _ hne]

theorem opensLike_substituteAdi (hs : s.head?.any Sound.isHal = false) (hne : s ≠ []) (t : Term) :
    t.OpensLike (t.substituteAdi s) := by
  unfold substituteAdi
  split
  · exact .rfl
  · exact opensLike_setAdi hs hne t

theorem opensLike_setAntya (hs : s.head?.any Sound.isHal = false) (t : Term) :
    t.OpensLike (t.setAntya s) := by
  unfold setAntya
  split
  · exact .rfl
  · rcases htext : t.text with _ | ⟨c, _ | ⟨c', rest⟩⟩
    · exact opensLike_setText hs t
    · exact opensLike_setText hs t
    · refine ⟨kind_setText _ t, fun x hx _ => ?_⟩
      rw [adi?, htext]
      exact hx

theorem opensLike_setUpadha (hs : s.head?.any Sound.isHal = false) (hne : s ≠ []) (t : Term) :
    t.OpensLike (t.setUpadha s) := by
  unfold setUpadha
  split
  · rename_i last _ _
    rcases htext : t.text.dropLast.dropLast with _ | ⟨c, rest⟩
    · refine opensLike_setText ?_ t
      rwa [List.nil_append, List.head?_append_of_ne_nil _ hne]
    · refine ⟨kind_setText _ t, fun x hx _ => ?_⟩
      have hprefix := t.text.dropLast.dropLast_prefix.trans t.text.dropLast_prefix
      obtain ⟨after, hafter⟩ := htext ▸ hprefix
      rw [adi?, ← hafter]
      exact hx
  · exact .rfl

theorem opensLike_elide (t : Term) : t.OpensLike t.elide := opensLike_setText rfl t

theorem opensLike_addTag {tag : Tag} (h : tag.isMark = true) (t : Term) :
    t.OpensLike (t.addTag tag) :=
  ⟨kind_addTag_of_isMark h t, fun _ h _ => h⟩

theorem opensLike_removeTag {tag : Tag} (h : tag.isMark = true) (t : Term) :
    t.OpensLike (t.removeTag tag) :=
  ⟨kind_removeTag_of_isMark h t, fun _ h _ => h⟩

-- One vowel takes the place of another.
theorem opensLike_replaceText {x y : Char} (hy : Sound.isHal y = false) (t : Term) :
    t.OpensLike (t.replaceText [x] [y]) := by
  refine ⟨kind_replaceText _ _ t, fun z hz hhal => ?_⟩
  have hz' : (Text.replaceFrom [x] [y] 0 t.text).head? = some z := hz
  rw [adi?]
  rcases htext : t.text with _ | ⟨c, rest⟩
  · rw [htext] at hz'
    cases hz'
  · rw [htext, Text.replaceFrom] at hz'
    split at hz'
    · cases hz'
      rw [hy] at hhal
      cases hhal
    · exact hz'

section Strengthening

theorem head_vrddhiText {c : Char} (h : Sound.isAc c = true) :
    (vrddhiText c).head?.any Sound.isHal = false := by
  have hall : ∀ c ∈ SoundClass.ac.sounds, (vrddhiText c).head?.any Sound.isHal = false := by decide
  exact hall c (List.contains_iff_mem.mp h)

theorem head_gunaText {c : Char} (h : SoundClass.ik.contains c = true) :
    (gunaText c).head?.any Sound.isHal = false ∧ gunaText c ≠ [] := by
  have hall : ∀ c ∈ SoundClass.ik.sounds,
      (gunaText c).head?.any Sound.isHal = false ∧ gunaText c ≠ [] := by decide
  exact hall c (List.contains_iff_mem.mp h)

theorem Strengthens.opensLike {root : Term} {rule : Rule} {change : Term → Term}
    (h : root.Strengthens rule change) (t : Term) : t.OpensLike (change t) := by
  cases h with
  | vrddhi _ hac => exact opensLike_setAntya (head_vrddhiText hac) t
  | guna _ hik => exact opensLike_setAntya (head_gunaText hik).1 t
  | gunaOfUpadha _ hik => exact opensLike_setUpadha (head_gunaText hik).1 (head_gunaText hik).2 t
  | vrddhiOfA | gunaOfMid => exact opensLike_setUpadha rfl (List.cons_ne_nil _ _) t

end Strengthening

theorem opensLike_of_preparingChange {tag : Tag} {rule : Rule} {change : Term → Term}
    (h : PreparingChange tag rule change) (t : Term) : t.OpensLike (change t) := by
  cases h with
  | antForJ => exact opensLike_substituteAdi (by decide) (by decide) t
  | finalALost => exact opensLike_setAntya rfl t
  | ayForRic => exact opensLike_setText (by decide) t
  | ricLost => exact opensLike_elide t

theorem opensLike_shortenVowel (t : Term) : t.OpensLike t.shortenVowel := by
  unfold shortenVowel
  split
  · exact .rfl
  · rename_i vowel hfind
    split
    · exact .rfl
    · rename_i short hshort
      have hac := Sound.isAc_shortened (List.find?_some hfind)
      rw [Sound.shortened, hshort, Option.getD_some] at hac
      split
      · exact .rfl
      · exact opensLike_replaceText (Sound.isHal_of_isAc hac) t

end Term

-- Each term with `tag` that begins with a consonant begins with one of `P`.
def OpenedBy (tag : Tag) (P : Char → Prop) (row : List Term) : Prop :=
  ∀ t ∈ row, t.hasTag tag = true → ∀ x, t.adi? = some x → Sound.isHal x = true → P x

section

variable {tag : Tag} {P : Char → Prop} {row row' before after : List Term} {t t' : Term}

theorem OpenedBy.exchange (h : OpenedBy tag P (before ++ t :: after)) (hmark : tag.isMark = false)
    (ht : t.OpensLike t') : OpenedBy tag P (before ++ t' :: after) := by
  unfold OpenedBy at h ⊢
  simp only [List.forall_mem_append, List.forall_mem_cons] at h ⊢
  refine ⟨h.1, fun htag x hx hhal => ?_, h.2.2⟩
  exact h.2.1 ((Term.hasTag_eq_of_kind ht.kind hmark).symm.trans htag) x (ht.adi x hx hhal) hhal

theorem OpenedBy.insert (h : OpenedBy tag P (before ++ after)) (ht : t.hasTag tag = false) :
    OpenedBy tag P (before ++ t :: after) := by
  unfold OpenedBy at h ⊢
  simp only [List.forall_mem_append, List.forall_mem_cons] at h ⊢
  refine ⟨h.1, fun htag => ?_, h.2⟩
  rw [ht] at htag
  cases htag

-- If no other term has the tag, it is this one that matters.
theorem openedBy_of_cut (hothers : ∀ u ∈ before ++ after, u.hasTag tag = false)
    (ht : ∀ x, t.adi? = some x → Sound.isHal x = true → P x) :
    OpenedBy tag P (before ++ t :: after) := by
  have hnone {u : Term} (hu : u ∈ before ++ after) (htag : u.hasTag tag = true) : False := by
    rw [hothers u hu] at htag
    cases htag
  unfold OpenedBy
  simp only [List.forall_mem_append, List.forall_mem_cons]
  exact ⟨fun u hu htag => (hnone (List.mem_append_left _ hu) htag).elim, fun _ => ht,
    fun u hu htag => (hnone (List.mem_append_right _ hu) htag).elim⟩

-- Other terms may get other texts.
theorem OpenedBy.reshapes (h : OpenedBy tag P row) {tags : List Tag} (hrow : Reshapes tags row row')
    (hmark : tag.isMark = false)
    (hno : ∀ t ∈ row, t.hasTag tag = true → t.kind.hasTagIn tags = false) :
    OpenedBy tag P row' := by
  induction hrow with
  | nil => exact h
  | cons ht _ ih =>
      unfold OpenedBy at h ⊢
      rw [List.forall_mem_cons] at h hno ⊢
      refine ⟨fun htag x hx => ?_, ih h.2 hno.2⟩
      have htag' := (Term.hasTag_eq_of_kind ht.1 hmark).symm.trans htag
      rw [Term.adi?, ht.2 (hno.1 htag')] at hx
      exact h.1 htag' x hx

end

theorem isMark_of_mem_frontTags : ∀ tag ∈ frontTags, tag.isMark = false := by decide

namespace Derivation

variable {c d e : Derivation} {i : Nat} {f : Term → Term}

-- The roots and the copies of `e` begin with no consonants but those that begin roots and copies
-- of `d`.
def KeepsOpenings (d e : Derivation) : Prop :=
  ∀ tag ∈ frontTags, ∀ P, OpenedBy tag P d.terms → OpenedBy tag P e.terms

theorem keepsOpenings_of_terms (h : e.terms = d.terms) : KeepsOpenings d e :=
  fun _ _ _ hd => h.symm ▸ hd

theorem KeepsOpenings.trans (h : KeepsOpenings c d) (h' : KeepsOpenings d e) : KeepsOpenings c e :=
  fun tag htag P hc => h' tag htag P (h tag htag P hc)

theorem ActsAt.keepsOpenings (hacts : ActsAt i f d e)
    (hf : ∀ t, d.terms[i]? = some t → t.OpensLike (f t)) : KeepsOpenings d e := by
  intro tag htag P hd
  rcases ht : d.terms[i]? with _ | t
  · rw [hacts.terms, List.modify_eq_self (List.getElem?_eq_none_iff.mp ht)]
    exact hd
  · obtain ⟨before, after, hterms, hi⟩ := cut_term ht
    rw [hacts.terms_of_cut hterms hi]
    exact OpenedBy.exchange (hterms ▸ hd) (isMark_of_mem_frontTags tag htag) (hf t ht)

theorem keepsOpenings_alter (hf : ∀ t : Term, t.OpensLike (f t)) (rule : Rule) (i : Nat)
    (d : Derivation) : KeepsOpenings d (d.alter rule i f) :=
  (actsAt_alter rule i f d).keepsOpenings fun t _ => hf t

theorem Alters.keepsOpenings {may : Nat → Term → Rule → (Term → Term) → Prop} (h : Alters may d e)
    (hmay : ∀ i t rule change, may i t rule change → ∀ t : Term, t.OpensLike (change t)) :
    KeepsOpenings d e :=
  h.relates (R := KeepsOpenings) (fun _ => keepsOpenings_of_terms rfl)
    (fun _ _ _ hcd hde => hcd.trans hde)
    fun e i t rule change _ hchange => keepsOpenings_alter (hmay i t rule change hchange) rule i e

theorem Recasts.keepsOpenings (h : Recasts [] d e) : KeepsOpenings d e :=
  fun tag htag _ hd => hd.reshapes h.row (isMark_of_mem_frontTags tag htag) fun _ _ _ => rfl

-- An augment is no root, and no copy of one.
theorem keepsOpenings_augment {before after : List Term} (hd : d.terms = before ++ after) {t : Term}
    (ht : IsAugment t) (he : e.terms = before ++ t :: after) : KeepsOpenings d e := by
  intro tag htag P h
  have hplain : t.hasTag tag = false := by
    simp only [frontTags, List.mem_cons, List.not_mem_nil, or_false] at htag
    rcases htag with rfl | rfl
    · exact ht.isPlain.abhyasa
    · exact ht.dhatu
  rw [he]
  rw [hd] at h
  exact h.insert hplain

theorem augmentBefore_keepsOpenings {before after : List Term} (h : d.terms = before ++ after)
    (rule : Rule) (u : Text) :
    (d.augmentBefore rule (before.length : Int) u).Ends (KeepsOpenings d) fun _ => True :=
  (augmentBefore_ends h rule u).imp
    (fun _ he => keepsOpenings_augment h (isAugment_stripped u) he.1) fun _ h => h

theorem augmentAfter_keepsOpenings {before after : List Term} {t : Term}
    (h : d.terms = before ++ t :: after) (rule : Rule) (u : Text) :
    (d.augmentAfter rule (before.length : Int) u).Ends (KeepsOpenings d) fun _ => True := by
  have hcut : d.terms = (before ++ [t]) ++ after := by rw [h]; simp
  refine (augmentAfter_ends h rule u).imp (fun e he => ?_) fun _ h => h
  exact keepsOpenings_augment hcut (isAugment_stripped u) (he.1.trans (by simp))

section Stem

theorem addIt_keepsOpenings (d : Derivation) : d.addIt.Ends (KeepsOpenings d) fun _ => True := by
  rcases d.addIt_cases with heq | ⟨before, root, after, suffix, hterms, heq⟩
  · rw [heq]
    exact keepsOpenings_of_terms rfl
  · have hkept := (takesIt_shows root suffix d).1
    rw [heq]
    split
    · exact (augmentAfter_keepsOpenings (hkept.trans hterms) _ _).imp
        (fun f hf => (keepsOpenings_of_terms hkept).trans hf) fun _ h => h
    · exact keepsOpenings_of_terms hkept

theorem keepsOpenings_preparing {tags : List Tag} (h : Alters (OnTagged PreparingChange tags) d e) :
    KeepsOpenings d e :=
  h.keepsOpenings fun _ _ _ _ ⟨_, _, _, hchange⟩ => Term.opensLike_of_preparingChange hchange

theorem augmentPast_keepsOpenings (d : Derivation) :
    d.augmentPast.Ends (KeepsOpenings d) fun _ => True := by
  rcases d.augmentPast_cases with heq | ⟨before, t, after, x, -, -, hterms, -, heq⟩
  · rw [heq]
    exact keepsOpenings_of_terms rfl
  · rw [heq]
    exact augmentBefore_keepsOpenings hterms _ _

theorem augmentBhu_keepsOpenings (d : Derivation) :
    d.augmentBhu.Ends (KeepsOpenings d) fun _ => True := by
  rcases d.augmentBhu_cases with heq | ⟨before, t, after, hterms, -, heq⟩
  · rw [heq]
    exact keepsOpenings_of_terms rfl
  · rw [heq]
    refine (augmentAfter_keepsOpenings hterms _ _).map _ fun e he => ?_
    exact he.trans ((actsAt_update _ _ e).keepsOpenings fun t _ => Term.opensLike_addTag rfl t)

theorem prepareStem_keepsOpenings (d : Derivation) :
    d.prepareStem.Ends (KeepsOpenings d) fun _ => True := by
  unfold prepareStem
  refine Outcome.Ends.map (P := KeepsOpenings d) ?_ _ fun e he => ?_
  · refine ((augmentPast_keepsOpenings d.replaceJ).andThen _ fun e he => ?_)
    exact (augmentBhu_keepsOpenings e).imp
      (fun f hf => (keepsOpenings_preparing (alters_replaceJ d)).trans (he.trans hf)) fun _ h => h
  · exact he.trans (keepsOpenings_preparing (alters_dropA e))

theorem keepsOpenings_relaxRal (d : Derivation) : KeepsOpenings d d.relaxRal := by
  rcases d.relaxRal_cases with heq | ⟨i, heq⟩
  · rw [heq]
    exact keepsOpenings_of_terms rfl
  · rcases optionally_cases "7.1.91" (·.update i (·.removeTag (.it .R))) d with
      ⟨-, heq'⟩ | ⟨-, heq'⟩
    · rw [heq, heq']
      exact ((actsAt_update i _ (d.accept "7.1.91")).record "7.1.91").keepsOpenings
        fun t _ => Term.opensLike_removeTag rfl t
    · rw [heq, heq']
      exact keepsOpenings_of_terms rfl

theorem keepsOpenings_strengthenStem (d : Derivation) : KeepsOpenings d d.strengthenStem :=
  (keepsOpenings_relaxRal d).trans <|
    (alters_forEach alters_strengthenAt _).keepsOpenings fun _ _ _ _ hchange => hchange.2.opensLike

end Stem

section Copy

variable {P : Char → Prop} {before after : List Term} {copy : Term} {form : VerbForm}
  {suffixes : List Term}

-- The copy is not among the roots, and the root is still one.
theorem opened_reduplicate (h : OpenedBy .dhatu P d.terms) :
    OpenedBy .dhatu P d.reduplicate.terms := by
  rcases d.reduplicate_cases with heq | ⟨before, t, after, hterms, -, -, -, -, heq⟩
  · rwa [heq]
  · have hroot : (t.addTag .abhyasta).hasTag .dhatu = t.hasTag .dhatu :=
      Term.hasTag_addTag_of_ne (by decide) t
    rw [heq, (doubleAt_shows hterms).1]
    rw [hterms] at h
    refine OpenedBy.insert ?_ (isCopy_copyOf t).dhatu
    unfold OpenedBy at h ⊢
    simp only [List.forall_mem_append, List.forall_mem_cons] at h ⊢
    exact ⟨h.1, fun htag => h.2.1 (hroot ▸ htag), h.2.2⟩

-- 7.4.62 ends with a copy that begins with none of the sounds that it is about.
theorem palatalize_opened (hd : d.terms = before ++ copy :: after)
    (hothers : ∀ t ∈ before ++ after, t.hasTag .abhyasa = false) :
    (d.palatalize before.length).Ends
      (fun e => OpenedBy .abhyasa (kuAndHSounds.contains · = false) e.terms) fun _ => True := by
  have hself (hcopy : ∀ x, copy.adi? = some x → kuAndHSounds.contains x = false) :
      (Outcome.done d).Ends
        (fun e => OpenedBy .abhyasa (kuAndHSounds.contains · = false) e.terms) fun _ => True := by
    rw [Outcome.ends_done, hd]
    exact openedBy_of_cut hothers fun x hx _ => hcopy x hx
  unfold palatalize
  rw [term_of_cut hd, Option.bind_some]
  rcases hadi : copy.adi? with _ | first
  · exact hself fun x hx => by cases hadi.symm.trans hx
  · dsimp only
    split
    · rename_i hno
      refine hself fun x hx => ?_
      cases hadi.symm.trans hx
      simpa using hno
    · rename_i hku
      rw [Bool.not_eq_true', Bool.not_eq_false] at hku
      rcases d.table.mapSounds_cases decode_kuAndH SoundClass.decode_cu (by decide) with
        ⟨palatals, hok, hmaps, -⟩ | ⟨fault, herror, -⟩
      · have hdefined := hmaps.defined (by decide) first (List.contains_iff_mem.mp hku)
        obtain ⟨sub, hsub⟩ := Option.isSome_iff_exists.mp hdefined
        rw [hok]
        dsimp only
        rw [hsub]
        have hpalatal : ∀ c ∈ Sound.cu.sounds, kuAndHSounds.contains c = false := by decide
        rw [Outcome.ends_done, (actsAt_alter "7.4.62" _ _ d).terms_of_cut hd rfl]
        refine openedBy_of_cut hothers fun x hx _ => ?_
        cases hx
        exact hpalatal _ (hmaps.nearest first sub hsub).mem
      · rw [herror]
        trivial

theorem keepsOpenings_fitPerfectVowel (i : Nat) (d : Derivation) :
    KeepsOpenings d (d.fitPerfectVowel i) := by
  have hlong : ∀ t : Term, t.OpensLike (t.setAdi ['A']) :=
    Term.opensLike_setAdi (by decide) (by decide)
  have ha : ∀ t : Term, t.OpensLike (t.setAntya ['a']) := Term.opensLike_setAntya (by decide)
  unfold fitPerfectVowel
  dsimp only
  repeat' split
  all_goals first
    | exact keepsOpenings_of_terms rfl
    | exact keepsOpenings_alter hlong _ i d
    | exact keepsOpenings_alter ha _ i d
    | exact (keepsOpenings_alter hlong _ i d).trans (keepsOpenings_alter ha _ i _)

-- The roots are not touched when the copy is reduced.
theorem reduceCopy_opened_roots (hs : IsBack form suffixes) (hd : MadeOf suffixes true d.terms)
    (h : OpenedBy .dhatu P d.terms) :
    d.reduceCopy.Ends (fun e => OpenedBy .dhatu P e.terms) fun _ => True := by
  obtain ⟨before, copy, root, after, hterms, hcopy, -, hno, -⟩ := hd.copied hs
  refine (recasts_reduceCopy d).imp (fun e he => h.reshapes he.row rfl fun t ht hroot => ?_)
    fun _ h => h
  have hcases : t = copy ∨ t ∈ before ++ root :: after := by
    rw [hterms] at ht
    simp only [List.mem_append, List.mem_cons] at ht ⊢
    tauto
  rcases hcases with rfl | hmem
  · rw [hcopy.dhatu] at hroot
    cases hroot
  · simp [Term.hasTagIn, Term.hasTag_kind (x := .abhyasa) rfl, hno t hmem]

-- No copy begins with a stop of the throat or h any longer.
theorem reduceCopy_opened_copies (hs : IsBack form suffixes) (hd : MadeOf suffixes true d.terms) :
    d.reduceCopy.Ends
      (fun e => OpenedBy .abhyasa (kuAndHSounds.contains · = false) e.terms) fun _ => True := by
  obtain ⟨before, copy, root, after, hterms, hcopy, -, hno, -⟩ := hd.copied hs
  have hf : ∀ t : Term, t.OpensLike t.replaceF :=
    fun t => (Term.opensLike_replaceText (by decide) t).ite
  have hdrop := (actsAt_dropConsonants before.length d).terms_of_cut hterms rfl
  unfold reduceCopy
  rw [firstTagged?_of_cut hterms hcopy.abhyasa fun t ht => hno t (List.mem_append_left _ ht)]
  refine (palatalize_opened hdrop hno).map _ fun e he => ?_
  have hreduced := ((actsAt_shortenVowel before.length e).keepsOpenings
    fun t _ => t.opensLike_shortenVowel).trans
      ((actsAt_replaceF before.length _).keepsOpenings fun t _ => hf t)
  dsimp only
  split
  · exact (hreduced.trans (keepsOpenings_fitPerfectVowel _ _)) .abhyasa (by decide) _ he
  · exact hreduced .abhyasa (by decide) _ he

end Copy

section Pipeline

variable {root : Root} {form : VerbForm} {pada : Pada}

-- The added roots are Ric, which is a vowel, and kf.
theorem opened_suffixedRow (hform : form.lakara ∈ supportedLakaras) (root : Root) (pada : Pada) :
    OpenedBy .dhatu (fun x => root.entered.adi? = some x ∨ x = 'k')
      (suffixedRow root form pada) := by
  have hadded : ∀ t ∈ addedRoots, t.hasTag .dhatu = true →
      (t.adi?.all fun x => !Sound.isHal x || x == 'k') = true := by decide +kernel
  obtain ⟨more, hfront, hmore⟩ := root.front_cut form.lakara
  rw [suffixedRow, hfront]
  unfold OpenedBy
  rw [List.forall_mem_append, List.forall_mem_cons]
  refine ⟨⟨fun _ x hx _ => .inl hx, fun t ht hroot x hx hhal => .inr ?_⟩, fun t ht hroot => ?_⟩
  · simpa [hx, hhal] using hadded t (hmore t ht) hroot
  · rw [(isBack_suffixesOf hform root.gana pada).noRoot t ht] at hroot
    cases hroot

-- When the root of the perfect has been doubled, the roots begin as the root of the form does, or
-- with a vowel, or with the k of kf.
theorem doubled_opened (hlit : form.lakara = .lit) (hd : d.terms = suffixedRow root form pada) :
    (d.extendMarkers.addIt.map reduplicate).Ends
      (fun e => MadeOf (suffixesOf form root.gana pada) true e.terms ∧
        OpenedBy .dhatu (fun x => root.entered.adi? = some x ∨ x = 'k') e.terms) fun _ => True := by
  have hform : form.lakara ∈ supportedLakaras := by rw [hlit]; decide
  have hdoubles : (form.lakara == .lit) = true := by rw [hlit]; rfl
  have hs := isBack_suffixesOf hform root.gana pada
  have hmarked := recasts_extendMarkers d
  have hmade := (hd ▸ madeOf_suffixedRow root form pada : MadeOf _ _ d.terms).recasts hs hmarked
    (by simp)
  have hopened := hmarked.keepsOpenings .dhatu (by decide) _
    (hd ▸ opened_suffixedRow hform root pada)
  refine ((addIt_makes hs hmade).and (addIt_keepsOpenings _)).map _ fun e he => ?_
  exact ⟨hdoubles ▸ (reduplicate_keeps hs he.1.1).1,
    opened_reduplicate (he.2 .dhatu (by decide) _ hopened)⟩

-- They do so still when the stem has been strengthened, and by then the copy begins with no stop of
-- the throat, and not with h.
theorem strengthened_opened (hlit : form.lakara = .lit)
    (hd : d.terms = suffixedRow root form pada) :
    ((((d.extendMarkers.addIt.map reduplicate).andThen reduceCopy).andThen prepareStem).map
      strengthenStem).Ends
      (fun e => MadeOf (preparedSuffixes form root.gana pada) true e.terms ∧
        OpenedBy .dhatu (fun x => root.entered.adi? = some x ∨ x = 'k') e.terms ∧
        OpenedBy .abhyasa (kuAndHSounds.contains · = false) e.terms) fun _ => True := by
  have hform : form.lakara ∈ supportedLakaras := by rw [hlit]; decide
  have hdoubles : (form.lakara == .lit) = true := by rw [hlit]; rfl
  have hs := isBack_suffixesOf hform root.gana pada
  have hs' := isBack_preparedSuffixes hform root.gana pada
  have hreduced := (doubled_opened hlit hd).andThen reduceCopy fun e he =>
    ((recasts_reduceCopy e).imp (fun f hf => he.1.recasts hs hf (by decide)) fun _ h => h).and
      ((reduceCopy_opened_roots hs he.1 he.2).and (reduceCopy_opened_copies hs he.1))
  have hprepared := hreduced.andThen prepareStem fun e he =>
    ((prepareStem_makes hs (hdoubles.symm ▸ he.1)).and (prepareStem_keepsOpenings e)).imp
      (fun f hf => And.intro hf.1.1 (And.intro (hf.2 .dhatu (by decide) _ he.2.1)
        (hf.2 .abhyasa (by decide) _ he.2.2))) fun _ h => h
  refine hprepared.map strengthenStem fun e he => ?_
  rw [hdoubles] at he
  have hral := (relaxRal_keeps hs' he.1).1
  have hkept := keepsOpenings_strengthenStem e
  exact ⟨MadeOf.recasts hral hs' (recasts_forEach recasts_strengthenAt _) (by decide),
    hkept .dhatu (by decide) _ he.2.1, hkept .abhyasa (by decide) _ he.2.2⟩

end Pipeline

end Derivation

end Vyakarana
