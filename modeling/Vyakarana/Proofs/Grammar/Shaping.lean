import Vyakarana.Proofs.Choice.Choices
import Vyakarana.Proofs.Grammar.Makeup
import Vyakarana.Proofs.Grammar.StemRules
import Vyakarana.Proofs.Grammar.SuffixRules

/-!
The rules between the suffixes and the sounds.

Each of them exchanges terms for terms of their kind, puts one augment into the front, or doubles
the last root, and the choice it may leave is noted in the ledger. So the row stays made of its front
and its suffixes.
-/

namespace Vyakarana

-- 7.2.61 to 7.2.66: the optional rule that a root has before Tal.
def Term.talRule? (root : Term) : Option Rule :=
  if root.hasTextIn kradi then none
  else if root.isAnit && root.antya?.any Sound.isAc then
    if root.isTaught "f\\".toList || root.antya? == some 'f' then none else some "7.2.63"
  else if root.isAnit && root.text.contains 'a' then some "7.2.62"
  else if root.hasTextIn ["sfj".toList, "dfS".toList] then some "7.2.65"
  else none

namespace Derivation

variable {d e : Derivation} {i : Nat}

-- The optional rules have been asked, and the ledger tells what they did.
def decided (rules : Option Rule) (d : Derivation) : Derivation :=
  { d with ledger := d.ledger ++ (rules.map d.choices.decide).toList }

theorem rest_decided (rules : Option Rule) (d : Derivation) :
    (d.decided rules).rest = d.rest.decided rules := rfl

theorem decided_none (d : Derivation) : d.decided none = d := by
  simp [decided]

theorem rest_accept {rule : Rule} (h : d.choices.permits rule = true) :
    (d.accept rule).rest = (d.decided (some rule)).rest := by
  simp [accept, decided, Derivation.rest, Choices.decide, h]

theorem rest_decline {rule : Rule} (h : d.choices.permits rule = false) :
    (d.decline rule).rest = (d.decided (some rule)).rest := by
  simp [decline, decided, Derivation.rest, Choices.decide, h]

theorem talTakesItAfterVowel_shows (root : Term) (d : Derivation) :
    (d.talTakesItAfterVowel root).2.terms = d.terms ∧
      (d.talTakesItAfterVowel root).2.rest =
        (d.decided (if root.isTaught "f\\".toList || root.antya? == some 'f' then none
          else some "7.2.63")).rest := by
  unfold talTakesItAfterVowel
  split
  · rename_i hf
    exact ⟨terms_record _ _, by rw [if_pos (by rw [hf, Bool.true_or]), decided_none, rest_record]⟩
  · rename_i hf
    split
    · rename_i hf'
      exact ⟨terms_record _ _, by rw [if_pos (by rw [hf', Bool.or_true]), decided_none, rest_record]⟩
    · rename_i hf'
      rw [if_neg (by rw [Bool.or_eq_true]; exact not_or.mpr ⟨hf, hf'⟩)]
      rcases consult_cases "7.2.63" d with ⟨hpermits, heq⟩ | ⟨hpermits, heq⟩
      · rw [heq]
        exact ⟨rfl, rest_accept hpermits⟩
      · rw [heq]
        exact ⟨terms_record _ _, (rest_record _ _).trans (rest_decline hpermits)⟩

theorem talRefusesIt_shows (rule : Rule) (d : Derivation) :
    (d.talRefusesIt rule).2.terms = d.terms ∧
      (d.talRefusesIt rule).2.rest = (d.decided (some rule)).rest := by
  unfold talRefusesIt
  rcases consult_cases rule d with ⟨hpermits, heq⟩ | ⟨hpermits, heq⟩
  · rw [heq]
    exact ⟨terms_record _ _, (rest_record _ _).trans (rest_accept hpermits)⟩
  · rw [heq]
    exact ⟨rfl, rest_decline hpermits⟩

theorem perfectTakesIt_shows (root : Term) (tal : Bool) (d : Derivation) :
    (d.perfectTakesIt root tal).2.terms = d.terms ∧
      (d.perfectTakesIt root tal).2.rest =
        (d.decided (if tal then root.talRule? else none)).rest := by
  unfold perfectTakesIt Term.talRule?
  split
  · exact ⟨terms_record _ _, by rw [ite_self, decided_none, rest_record]⟩
  · cases tal with
    | false => exact ⟨rfl, by rw [if_pos (by rfl), if_neg (by decide), decided_none]⟩
    | true =>
        rw [if_neg (by decide), if_pos rfl]
        split
        · exact talTakesItAfterVowel_shows root d
        · split
          · exact talRefusesIt_shows "7.2.62" d
          · split
            · exact talRefusesIt_shows "7.2.65" d
            · exact ⟨rfl, by rw [decided_none]⟩

-- The optional rule that is asked before the ending gets its augment.
def itRule? (d : Derivation) : Option Rule :=
  match d.lastTagged? .dhatu with
  | none => none
  | some i =>
    match d.terms[i]?, d.view? ((i + 1 : Nat) : Int) with
    | some root, some suffix =>
      if suffix.first.hasTag .agama || !suffix.hasTag .ardhadhatuka ||
          !suffix.hasAdi (.oneOf .val) then none
      else if suffix.hasLakshana "li~w".toList && suffix.last.isTaught "Tal".toList then
        root.talRule?
      else none
    | _, _ => none

theorem takesIt_shows (root : Term) (suffix : View) (d : Derivation) :
    (d.takesIt root suffix).2.terms = d.terms ∧
      (d.takesIt root suffix).2.rest =
        (d.decided (if suffix.hasLakshana "li~w".toList && suffix.last.isTaught "Tal".toList then
          root.talRule? else none)).rest := by
  unfold takesIt
  split
  · rename_i hperfect
    rw [hperfect, Bool.true_and]
    exact perfectTakesIt_shows root _ d
  · rename_i hno
    rw [Bool.eq_false_of_not_eq_true hno, Bool.false_and, if_neg (by decide : ¬false = true),
      decided_none]
    split
    · exact ⟨terms_record _ _, rest_record _ _⟩
    · exact ⟨rfl, rfl⟩

variable {form : VerbForm} {suffixes : List Term} {doubled : Bool}

-- An augment with its markers stripped stands behind the term at `i`.
theorem augmentAfter_ends {before after : List Term} {t : Term} (h : d.terms = before ++ t :: after)
    (rule : Rule) (u : Text) :
    (d.augmentAfter rule (before.length : Int) u).Ends
      (fun e => e.terms = before ++ t :: (Term.ofAgama u).stripped u :: after ∧ e.rest = d.rest)
      fun _ => True := by
  have hcut : d.terms = (before ++ [t]) ++ after := by rw [h]; simp
  have hends := insertTerm_ends hcut (t := Term.ofAgama u) rfl rule
  rw [show (before ++ [t]).length = before.length + 1 by simp] at hends
  exact hends.imp (fun e he => ⟨he.1.trans (by simp), he.2⟩) fun _ h => h

theorem augmentBefore_ends {before after : List Term} (h : d.terms = before ++ after)
    (rule : Rule) (u : Text) :
    (d.augmentBefore rule (before.length : Int) u).Ends
      (fun e => e.terms = before ++ (Term.ofAgama u).stripped u :: after ∧ e.rest = d.rest)
      fun _ => True :=
  insertTerm_ends h rfl rule

end Derivation

namespace Outcome

-- If the rule ends well it leaves a row made of `suffixes`, and `rest` beside the row.
def Makes (o : Outcome) (suffixes : List Term) (doubled : Bool) (rest : Derivation) : Prop :=
  o.Ends (fun e => MadeOf suffixes doubled e.terms ∧ e.rest = rest) fun _ => True

variable {o : Outcome} {suffixes suffixes' : List Term} {doubled doubled' : Bool}
  {rest : Derivation}

theorem Makes.andThen (h : o.Makes suffixes doubled rest) {next : Derivation → Outcome}
    (hnext : ∀ e, MadeOf suffixes doubled e.terms → (next e).Makes suffixes' doubled' e.rest) :
    (o.andThen next).Makes suffixes' doubled' rest :=
  Ends.andThen h next fun e he => he.2 ▸ hnext e he.1

theorem Makes.map (h : o.Makes suffixes doubled rest) {f : Derivation → Derivation}
    (hf : ∀ e, MadeOf suffixes doubled e.terms →
      MadeOf suffixes' doubled' (f e).terms ∧ (f e).rest = e.rest) :
    (o.map f).Makes suffixes' doubled' rest :=
  Ends.map h f fun e he => he.2 ▸ hf e he.1

end Outcome

theorem MadeOf.recasts {form : VerbForm} {suffixes : List Term} {doubled : Bool}
    {d e : Derivation} {tags : List Tag} (hd : MadeOf suffixes doubled d.terms)
    (hs : IsBack form suffixes) (h : d.Recasts tags e) (hsub : ∀ x ∈ tags, x ∈ frontTags) :
    MadeOf suffixes doubled e.terms :=
  hd.reshapes hs (h.row.mono hsub)

namespace Derivation

variable {d e : Derivation} {i : Nat} {form : VerbForm} {suffixes : List Term} {doubled : Bool}

theorem addIt_makes (hs : IsBack form suffixes) (hd : MadeOf suffixes false d.terms) :
    d.addIt.Makes suffixes false (d.decided d.itRule?).rest := by
  unfold addIt itRule?
  rcases hlast : d.lastTagged? .dhatu with _ | i
  · exact ⟨hd, by rw [decided_none]⟩
  · obtain ⟨before, t, after, hterms, rfl, ht, -⟩ := cut_of_findLast? hlast
    dsimp only
    rw [term_of_cut hterms]
    rcases d.view? ((before.length + 1 : Nat) : Int) with _ | suffix
    · exact ⟨hd, by rw [decided_none]⟩
    · dsimp only
      by_cases hskip : (suffix.first.hasTag .agama || !suffix.hasTag .ardhadhatuka ||
          !suffix.hasAdi (.oneOf .val)) = true
      · rw [if_pos hskip, if_pos hskip, decided_none]
        exact ⟨hd, rfl⟩
      · rw [if_neg hskip, if_neg hskip]
        obtain ⟨hkept, hrest⟩ := takesIt_shows t suffix d
        split
        · rename_i e heq
          rw [heq] at hkept hrest
          refine (augmentAfter_ends (hkept.trans hterms) _ _).imp (fun f hf => ?_) fun _ h => h
          rw [hf.1]
          rw [hterms] at hd
          exact ⟨hd.augment_after hs ht (isAugment_stripped _), hf.2.trans hrest⟩
        · rename_i e heq
          rw [heq] at hkept hrest
          exact ⟨hkept.symm ▸ hd, hrest⟩

theorem recasts_extendMarkers (d : Derivation) : Recasts [] d d.extendMarkers := by
  have hmark : ∀ x ∈ markerRules, x.2.isMark = true := by decide
  refine (alters_extendMarkers d).relates (R := Recasts []) (recasts_self [])
    (fun _ _ _ hcd hde => hcd.trans hde) ?_
  rintro e i t _ _ - ⟨-, x, hx, rfl, rfl⟩
  exact (actsAt_alter x.1 i _ e).recasts fun t _ =>
    ⟨Term.kind_addTag_of_isMark (hmark x hx) t, .inr rfl⟩

theorem hasTag_abhyasta_of_front {before more : List Term} {t : Term}
    (h : Front false (before ++ t :: more)) : t.hasTag .abhyasta = false := by
  cases h with
  | single hplain => exact (hplain t (by simp)).2

theorem isPerfect_of_madeOf (hs : IsBack form suffixes) (hd : MadeOf suffixes doubled d.terms) :
    d.isPerfect = (form.lakara == .lit) := by
  obtain ⟨before, e, hrow, hlast, -, hgiven⟩ := hd.cut_lastTin hs
  rw [isPerfect, hlast]
  dsimp only
  rw [has_of_cut hrow, hgiven.perfect]

-- The copy of a root, before it is reduced.
def copyOf (root : Term) : Term :=
  (({ Term.ofText root.text with gana := root.gana } : Term).addTag .abhyasa).addTag .abhyasta

theorem isCopy_copyOf (root : Term) : (copyOf root).IsCopy := ⟨rfl, rfl, rfl, rfl⟩

theorem doubleAt_shows {before after : List Term} {t : Term} (h : d.terms = before ++ t :: after) :
    (d.doubleAt before.length t).terms = before ++ copyOf t :: t.addTag .abhyasta :: after ∧
      (d.doubleAt before.length t).rest = d.rest := by
  have hinserted : ((d.insertTerm before.length { Term.ofText t.text with gana := t.gana }).record
      "6.1.8").terms = before ++ { Term.ofText t.text with gana := t.gana } :: t :: after := by
    rw [terms_record, terms_insertTerm_of_cut h]
  have hcopy := (actsAt_alter "6.1.4" before.length (·.addTag .abhyasa)
    ((d.insertTerm before.length { Term.ofText t.text with gana := t.gana }).record "6.1.8")).trans
      (actsAt_update before.length (·.addTag .abhyasta) _)
  have hrow := hcopy.terms_of_cut hinserted rfl
  refine ⟨(terms_record _ _).trans ?_, ?_⟩
  · have hcut := hrow.trans (List.append_cons before _ (t :: after))
    have hroot := (actsAt_update (before.length + 1) (·.addTag .abhyasta) _).terms_of_cut hcut
      (by simp)
    exact hroot.trans (List.append_cons before _ _).symm
  · exact (rest_record _ _).trans ((rest_update _ _ _).trans
      (hcopy.rest.trans ((rest_record _ _).trans (rest_insertTerm _ _ _))))

theorem reduplicate_keeps (hs : IsBack form suffixes) (hd : MadeOf suffixes false d.terms) :
    MadeOf suffixes (form.lakara == .lit) d.reduplicate.terms ∧ d.reduplicate.rest = d.rest := by
  obtain ⟨i, hlast⟩ : ∃ i, d.lastTagged? .dhatu = some i := by
    by_contra hnone
    obtain ⟨front, back, hterms, -, ⟨t, ht, hdhatu⟩, -⟩ := hd
    have hall := lastIndex?_eq_none.mp (Option.eq_none_iff_forall_ne_some.mpr fun i hi =>
      hnone ⟨i, hi⟩) t (by rw [hterms]; exact List.mem_append_left _ ht)
    rw [hdhatu] at hall
    cases hall
  obtain ⟨before, t, after, hterms, rfl, ht, hafter⟩ := cut_of_findLast? hlast
  have hd' := hterms ▸ hd
  obtain ⟨more, back, -, hfront, -⟩ := hd'.cut_front hs ht
  rw [reduplicate_of_cut hterms ht hafter, isPerfect_of_madeOf hs hd,
    hasTag_abhyasta_of_front hfront, Bool.or_false]
  cases form.lakara == .lit with
  | false => exact ⟨hd, rfl⟩
  | true =>
      obtain ⟨hrow, hrest⟩ := doubleAt_shows hterms
      refine ⟨?_, hrest⟩
      exact hrow ▸ hd'.double hs ht hafter (isCopy_copyOf t)

-- A rule for the term at `i`, which is of a certain kind.
theorem RecastsAt.recasts_of_cut {before after : List Term} {t : Term} {tag : Tag}
    {tags : List Tag} (h : RecastsAt before.length d e) (hterms : d.terms = before ++ t :: after)
    (ht : t.hasTag tag = true) (hmark : tag.isMark = false) (htag : tag ∈ tags) :
    Recasts tags d e := by
  refine h.recasts fun u hu => ?_
  cases (term_of_cut hterms).symm.trans hu
  exact List.any_eq_true.mpr ⟨tag, htag, (Term.hasTag_kind hmark t).trans ht⟩

-- Only the copy is reduced.
theorem recastsAt_reduceCopy (h : d.firstTagged? .abhyasa = some i) :
    d.reduceCopy.Ends (RecastsAt i d) fun _ => True := by
  refine (reduceCopy_ends (recastsAt_self i d) fun j e hj he => ?_).imp (fun _ he => he)
    fun _ _ => trivial
  cases h.symm.trans hj
  exact he.recastsAt fun _ _ hchange => hchange.kind

theorem recasts_reduceCopy (d : Derivation) :
    d.reduceCopy.Ends (Recasts [.abhyasa] d) fun _ => True := by
  cases hfirst : d.firstTagged? .abhyasa with
  | none =>
      rw [reduceCopy, hfirst]
      exact recasts_self _ d
  | some i =>
      obtain ⟨before, t, after, hterms, rfl, ht⟩ := cut_of_firstTagged? hfirst
      exact (recastsAt_reduceCopy hfirst).imp (fun e he =>
        he.recasts_of_cut hterms ht rfl (List.mem_singleton_self _)) fun _ h => h

theorem augmentPast_makes (hs : IsBack form suffixes)
    (hd : MadeOf suffixes (form.lakara == .lit) d.terms) :
    d.augmentPast.Makes suffixes (form.lakara == .lit) d.rest := by
  obtain ⟨init, ending, hrow, hlast, -, hgiven⟩ := hd.cut_lastTin hs
  have hterm : d.lastEnding? = some ending := by
    rw [lastEnding?, hlast, Option.bind_some, term_of_cut hrow]
  rcases d.augmentPast_cases with heq | ⟨before, t, after, x, -, hpast, hterms, ht, heq⟩
  · rw [heq]
    exact ⟨hd, rfl⟩
  · have hlan : form.lakara = .lan := by
      rw [hterm] at hpast
      exact beq_iff_eq.mp (hgiven.past.symm.trans hpast)
    have hsingle : (form.lakara == .lit) = false := by rw [hlan]; rfl
    rw [hsingle] at hd ⊢
    rw [heq]
    refine (augmentBefore_ends hterms _ _).imp (fun e he => ⟨?_, he.2⟩) fun _ h => h
    rw [he.1]
    exact (hterms ▸ hd).augment_before hs ht (isAugment_stripped _)

theorem augmentBhu_makes (hs : IsBack form suffixes) (hd : MadeOf suffixes doubled d.terms) :
    d.augmentBhu.Makes suffixes doubled d.rest := by
  rcases d.augmentBhu_cases with heq | ⟨before, t, after, hterms, ht, heq⟩
  · rw [heq]
    exact ⟨hd, rfl⟩
  · rw [heq]
    refine (augmentAfter_ends hterms _ _).map _ fun e he => ?_
    have hexempt : Recasts [] e (e.update before.length (·.addTag .gunaExempt)) :=
      (actsAt_update _ _ e).recasts fun t _ => ⟨Term.kind_addTag_of_isMark rfl t, .inr rfl⟩
    refine ⟨MadeOf.reshapes ?_ hs (hexempt.row.mono (by simp)), hexempt.rest.trans he.2⟩
    rw [he.1]
    exact (hterms ▸ hd).augment_after hs ht (isAugment_stripped _)

theorem RecastsAt.recasts_of_term {t : Term} {tag : Tag} {tags : List Tag} (h : RecastsAt i d e)
    (hterm : d.terms[i]? = some t) (ht : t.hasTag tag = true) (hmark : tag.isMark = false)
    (htag : tag ∈ tags) : Recasts tags d e := by
  obtain ⟨before, after, hterms, rfl⟩ := cut_term hterm
  exact h.recasts_of_cut hterms ht hmark htag

theorem recasts_dropA (d : Derivation) : Recasts [.dhatu] d (d.forEach dropFinalA).dropRic :=
  (alters_dropA d).recasts_of_tags (by decide) fun _ _ _ hchange => hchange.kind

theorem recasts_strengthenAt (d : Derivation) (i : Nat) :
    Recasts [.dhatu] d (d.strengthenAt i) := by
  refine (alters_strengthenAt d i).recasts fun _ t _ _ hchange => ⟨hchange.2.kind, ?_⟩
  exact List.any_eq_true.mpr
    ⟨.dhatu, List.mem_singleton_self _, (Term.hasTag_kind rfl t).trans hchange.1⟩

theorem recasts_softenFinal (d : Derivation) (i : Nat) : Recasts [.dhatu] d (d.softenFinal i) :=
  (alters_softenFinal d i).recasts_of_tags (by decide) fun _ _ _ hchange => hchange.kind

-- The copy loses its text, and the root after it has another vowel.
theorem recasts_contractPerfect (hs : IsBack form suffixes)
    (hd : MadeOf suffixes doubled d.terms) : Recasts frontTags d d.contractPerfect := by
  rcases d.contractPerfect_cases with heq | ⟨i, -, -, rule, -, hfirst, -, -, -, -, heq⟩
  · rw [heq]
    exact recasts_self _ d
  · cases doubled with
    | false =>
        rw [firstTagged?_eq_none (hd.uncopied hs)] at hfirst
        cases hfirst
    | true =>
        obtain ⟨before, copy, root, after, hterms, hcopy, hroot, hno, -⟩ := hd.copied hs
        rw [List.forall_mem_append] at hno
        cases (firstTagged?_of_cut hterms hcopy.abhyasa hno.1).symm.trans hfirst
        have hcut : d.terms = (before ++ [copy]) ++ root :: after := by rw [hterms]; simp
        have hlength : (before ++ [copy]).length = before.length + 1 := by simp
        have hterm : d.terms[before.length + 1]? = some root := by
          rw [← hlength]
          exact term_of_cut hcut
        have hvowel := actsAt_update (before.length + 1) (·.setUpadha ['e']) d
        have hrow := (hvowel.terms_of_cut hcut hlength).trans
          (List.append_cons before copy _).symm
        have hroot' : Recasts frontTags d _ :=
          RecastsAt.recasts_of_term ⟨_, Term.kind_setUpadha _, hvowel⟩ hterm hroot rfl (by decide)
        have hcopy' : Recasts frontTags _ _ :=
          RecastsAt.recasts_of_cut ⟨_, Term.kind_elide, actsAt_update _ _ _⟩ hrow hcopy.abhyasa rfl
            (by decide)
        rw [heq]
        exact (hroot'.trans hcopy').record rule

end Derivation

-- 7.1.3
def Term.antForJ (t : Term) : Term :=
  if t.adi? == some 'J' then t.substituteAdi "ant".toList else t

-- 7.1.91: the optional rule for the ending Ral.
def Term.ralRule? (ending : Term) : Option Rule :=
  if ending.isTaught "Ral".toList && ending.hasTag (.purusha .uttama) then some "7.1.91" else none

namespace Term

theorem kind_antForJ (t : Term) : t.antForJ.kind = t.kind := by
  unfold antForJ
  split
  · exact kind_substituteAdi _ t
  · rfl

theorem text_antForJ {t t' : Term} (h : t'.text = t.text) : t'.antForJ.text = t.antForJ.text := by
  unfold antForJ adi? substituteAdi setAdi
  rw [h]
  split
  · split <;> simp [setText, h]
  · exact h

theorem ralRule?_of_kind {t t' : Term} (h : t'.kind = t.kind) : t'.ralRule? = t.ralRule? := by
  unfold ralRule? isTaught
  rw [upadesha_eq_of_kind h, hasTag_eq_of_kind h rfl]

end Term

namespace Derivation

variable {d e : Derivation} {i : Nat} {form : VerbForm} {init suffixes : List Term} {e₀ : Term}
  {doubled : Bool}

theorem cut_last (hs : IsBack form (init ++ [e₀])) (hd : MadeOf (init ++ [e₀]) doubled d.terms) :
    ∃ before e, d.terms = before ++ [e] ∧ d.lastTagged? .tin = some before.length ∧
      e.kind = e₀.kind ∧ ∀ e' e₀' : Term, e'.kind = e₀'.kind →
        (e.text = e₀.text → e'.text = e₀'.text) → MadeOf (init ++ [e₀']) doubled (before ++ [e']) := by
  obtain ⟨before, e, hrow, hkind, htext, hmade⟩ := hd.cut_ending
  have htin : e.hasTag .tin = true := (Term.hasTag_eq_of_kind hkind rfl).trans hs.last.1.tin
  exact ⟨before, e, hrow, lastTagged?_of_cut hrow htin (by simp), hkind,
    fun e' e₀' hkind' htext' => hmade e' e₀' hkind' (htext' htext)⟩

theorem replaceJ_keeps (hs : IsBack form (init ++ [e₀]))
    (hd : MadeOf (init ++ [e₀]) doubled d.terms) :
    MadeOf (init ++ [e₀.antForJ]) doubled d.replaceJ.terms ∧ d.replaceJ.rest = d.rest := by
  obtain ⟨before, e, hrow, hlast, hkind, hmade⟩ := cut_last hs hd
  have hacts : ActsAt before.length Term.antForJ d d.replaceJ := by
    unfold replaceJ
    rw [hlast]
    exact actsAt_ite (·.adi? == some 'J') (actsAt_alter "7.1.3" _ _ d)
  refine ⟨?_, hacts.rest⟩
  rw [hacts.terms_of_cut hrow rfl]
  exact hmade _ _ ((Term.kind_antForJ e).trans (hkind.trans (Term.kind_antForJ e₀).symm))
    Term.text_antForJ

theorem relaxRal_keeps (hs : IsBack form (init ++ [e₀]))
    (hd : MadeOf (init ++ [e₀]) doubled d.terms) :
    MadeOf (init ++ [e₀]) doubled d.relaxRal.terms ∧
      d.relaxRal.rest = (d.decided e₀.ralRule?).rest := by
  obtain ⟨before, e, hrow, hlast, hkind, hmade⟩ := cut_last hs hd
  rw [← Term.ralRule?_of_kind hkind]
  unfold relaxRal Term.ralRule?
  rw [hlast]
  dsimp only
  rw [has_of_cut hrow]
  split
  · rcases optionally_cases "7.1.91" (·.update before.length (·.removeTag (.it .R))) d with
      ⟨hpermits, heq⟩ | ⟨hpermits, heq⟩
    · have hacts := (actsAt_update before.length (·.removeTag (.it .R)) (d.accept "7.1.91")).record
        "7.1.91"
      rw [heq]
      refine ⟨?_, hacts.rest.trans (rest_accept hpermits)⟩
      dsimp only
      rw [hacts.terms_of_cut hrow rfl]
      exact hmade _ _ ((Term.kind_removeTag_of_isMark rfl e).trans hkind) id
    · rw [heq]
      exact ⟨hd, rest_decline hpermits⟩
  · rw [decided_none]
    exact ⟨hd, rfl⟩

theorem isBack_antForJ (hs : IsBack form (init ++ [e₀])) : IsBack form (init ++ [e₀.antForJ]) :=
  hs.of_kinds (by simp [Term.kind_antForJ])

theorem prepareStem_makes (hs : IsBack form (init ++ [e₀]))
    (hd : MadeOf (init ++ [e₀]) (form.lakara == .lit) d.terms) :
    d.prepareStem.Makes (init ++ [e₀.antForJ]) (form.lakara == .lit) d.rest := by
  have hs' := isBack_antForJ hs
  obtain ⟨hJ, hrest⟩ := replaceJ_keeps hs hd
  have hpast := hrest ▸ augmentPast_makes hs' hJ
  refine (hpast.andThen fun e he => augmentBhu_makes hs' he).map fun e he => ?_
  have hdrop := recasts_dropA e
  exact ⟨he.recasts hs' hdrop (by decide), hdrop.rest⟩

-- The stem is strengthened, and its root meets the suffix.
def hardenStem (d : Derivation) : Derivation :=
  d.strengthenStem.contractPerfect.forEach softenFinal

-- The suffixes meet the stem.
def fitSuffixes (d : Derivation) : Derivation := d.dropHi.replaceEndingA.forEach lengthenFinalA

theorem shapeStem_eq (d : Derivation) :
    d.shapeStem = (d.prepareStem.map hardenStem).map fitSuffixes := by
  have hjoin (e : Derivation) : e.strengthenStem.joinStem = e.hardenStem.fitSuffixes := rfl
  unfold shapeStem
  simp only [hjoin]
  exact (Outcome.andThen_assoc d.prepareStem (.done ·.hardenStem) (.done ·.fitSuffixes)).symm

theorem hardenStem_keeps (hs : IsBack form (init ++ [e₀]))
    (hd : MadeOf (init ++ [e₀]) doubled d.terms) :
    MadeOf (init ++ [e₀]) doubled d.hardenStem.terms ∧
      d.hardenStem.rest = (d.decided e₀.ralRule?).rest := by
  obtain ⟨hral, hrest⟩ := relaxRal_keeps hs hd
  have hstrong := recasts_forEach recasts_strengthenAt d.relaxRal
  have hd' := MadeOf.recasts hral hs hstrong (by decide)
  have hcontract := recasts_contractPerfect hs hd'
  have hd'' := MadeOf.recasts hd' hs hcontract (by simp)
  have hsoft := recasts_forEach recasts_softenFinal d.strengthenStem.contractPerfect
  exact ⟨MadeOf.recasts hd'' hs hsoft (by decide),
    hsoft.rest.trans (hcontract.rest.trans (hstrong.rest.trans hrest))⟩

theorem recasts_fitSuffixes (d : Derivation) :
    Recasts [.dhatu, .tin, .vikarana] d d.fitSuffixes :=
  (alters_fitted d).recasts_of_tags (by decide) fun _ _ _ hchange => hchange.kind

end Derivation

-- The suffixes when the stem is shaped.
def preparedSuffixes (form : VerbForm) (gana : Int) (pada : Pada) : List Term :=
  (stemSuffix? form gana pada).toList ++
    (givenEnding form.lakara pada form.purusha form.vacana).augments form.lakara ++
    [(endingOf form.lakara pada form.purusha form.vacana).antForJ]

theorem isBack_preparedSuffixes {form : VerbForm} (hform : form.lakara ∈ supportedLakaras)
    (gana : Int) (pada : Pada) : IsBack form (preparedSuffixes form gana pada) :=
  Derivation.isBack_antForJ (isBack_suffixesOf hform gana pada)

namespace Derivation

variable {d : Derivation} {root : Root} {form : VerbForm}

-- From the suffixes on, and before the stem is strengthened.
def prepared (d : Derivation) : Outcome :=
  ((d.extendMarkers.addIt.map reduplicate).andThen reduceCopy).andThen prepareStem

-- From the suffixes on, and before they meet the stem.
def shaped (d : Derivation) : Outcome :=
  ((d.extendMarkers.addIt.map reduplicate).andThen reduceCopy).andThen prepareStem
  |>.map hardenStem

theorem conjugate_eq_shaped (root : Root) (form : VerbForm) (d : Derivation) :
    d.conjugate root form =
      ((((d.suffixed root form).andThen shaped).map fitSuffixes).andThen joinVowels).andThen
        joinConsonants := by
  have hshape : ∀ o : Outcome, o.andThen shapeStem =
      ((o.andThen prepareStem).map hardenStem).map fitSuffixes := by
    intro o
    cases o with
    | done e => exact e.shapeStem_eq
    | failed fault e => rfl
  have hshaped : (((((d.suffixed root form).map extendMarkers).andThen addIt).map
      reduplicate).andThen reduceCopy).andThen shapeStem =
        ((d.suffixed root form).andThen shaped).map fitSuffixes := by
    rw [hshape]
    cases d.suffixed root form <;> rfl
  rw [← hshaped]
  rfl

-- What the rule for the augment iw is asked is all that the ledger has more than before.
theorem prepared_makes (hform : form.lakara ∈ supportedLakaras) {pada : Pada}
    (hd : d.terms = suffixedRow root form pada) :
    d.prepared.Makes (preparedSuffixes form root.gana pada) (form.lakara == .lit)
      (d.decided d.extendMarkers.itRule?).rest := by
  have hs := isBack_suffixesOf hform root.gana pada
  have hmarked := recasts_extendMarkers d
  have hmade := (hd ▸ madeOf_suffixedRow root form pada : MadeOf _ _ d.terms).recasts hs hmarked
    (by simp)
  have hit := addIt_makes hs hmade
  rw [rest_decided, hmarked.rest, ← rest_decided] at hit
  have hcopy := (hit.map fun e he => reduplicate_keeps hs he).andThen fun e he =>
    (recasts_reduceCopy e).imp (fun f hf => ⟨he.recasts hs hf (by decide), hf.rest⟩) fun _ h => h
  exact hcopy.andThen fun e he => prepareStem_makes hs he

-- The ledger grows by what the optional rules of the augment iw and of the ending Ral do.
theorem shaped_makes (hform : form.lakara ∈ supportedLakaras) {pada : Pada}
    (hd : d.terms = suffixedRow root form pada) :
    d.shaped.Makes (preparedSuffixes form root.gana pada) (form.lakara == .lit)
      ((d.decided d.extendMarkers.itRule?).decided
        (endingOf form.lakara pada form.purusha form.vacana).ralRule?).rest := by
  have hs := isBack_suffixesOf hform root.gana pada
  refine Outcome.Ends.map (prepared_makes hform hd) hardenStem fun e he => ?_
  obtain ⟨hrow, hrest⟩ := hardenStem_keeps (isBack_antForJ hs) he.1
  refine ⟨hrow, hrest.trans ?_⟩
  rw [rest_decided, he.2, Term.ralRule?_of_kind (Term.kind_antForJ _)]
  rfl

end Derivation

end Vyakarana
