import Vyakarana.Proofs.Grammar.LastSounds
import Vyakarana.Proofs.Grammar.WellFormed
import Vyakarana.Proofs.Term.View

/-!
The optional rules of a verb form.

A form has at most two of them. The first is for the set of endings; the second is for the ending
Tal or Ral of the perfect, and is that of the root which the ending follows. Which rules there are
depends on the root, the form and the set of endings alone.
-/

namespace Vyakarana

-- What the last chapters do is not looked into here, and looking into it takes time.
attribute [local irreducible] Derivation.joinVowels Derivation.joinConsonants

-- The root that the ending of the perfect follows.
def Root.perfectRoot (root : Root) : Term :=
  match root.stemLast.classify.amRule? with
  | none => root.stemLast.classify
  | some _ => auxiliaryRoot

-- The optional rule for the ending of a form.
def Root.endingRule? (root : Root) (form : VerbForm) (pada : Pada) : Option Rule :=
  if form.lakara = .lit ∧ pada = .parasmaipada ∧ form.vacana = .eka then
    match form.purusha with
    | .prathama => none
    | .madhyama => root.perfectRoot.talRule?
    | .uttama => some "7.1.91"
  else none

-- The decisions that the ledger of a form tells, when the optional rules are taken by `choices`.
def Root.decisions (root : Root) (form : VerbForm) (choices : Choices) : List Decision :=
  let result := (root.padaChoice form.prayoga).resolve choices
  result.2 ++ ((root.endingRule? form result.1).map choices.decide).toList

namespace Root

theorem dhatu_perfectRoot (root : Root) : root.perfectRoot.hasTag .dhatu = true := by
  unfold perfectRoot
  split
  · exact root.classified_stem.2
  · rfl

-- A suffix that makes a root takes Am in the perfect, so the ending follows no suffix.
theorem pratyaya_perfectRoot (root : Root) : root.perfectRoot.hasTag .pratyaya = false := by
  unfold perfectRoot
  split
  · rename_i hnone
    unfold Term.amRule? at hnone
    split at hnone
    · cases hnone
    · rename_i hno
      rw [Bool.or_eq_true, not_or] at hno
      exact Bool.eq_false_of_not_eq_true hno.2
  · rfl

theorem front_lit (root : Root) : ∃ init, root.front .lit = init ++ [root.perfectRoot] := by
  unfold front perfectRoot
  rw [if_pos rfl, Term.auxiliaries]
  rcases root.stemLast.classify.amRule? with _ | rule
  · exact ⟨root.stemInit, rfl⟩
  · exact ⟨root.stemInit ++ [root.stemLast.classify,
      ((Term.ofUpadesha "Am".toList).addTag .pratyaya).classify], by simp; rfl⟩

end Root

namespace Derivation

variable {d : Derivation} {init after : List Term} {last ending : Term}

-- Of the terms in a row only the suffixes are marked.
theorem extendMarkers_keeps {i : Nat} {t : Term} (ht : d.terms[i]? = some t)
    (hno : t.hasTag .pratyaya = false) : d.extendMarkers.terms[i]? = some t := by
  refine (alters_extendMarkers d).relates
    (R := fun d e => d.terms[i]? = some t → e.terms[i]? = some t) (fun _ hd => hd)
    (fun _ _ _ hcd hde hc => hde (hcd hc)) ?_ ht
  rintro e j u rule _ hu ⟨hsuffix, x, -, -, rfl⟩ he
  rw [(actsAt_alter rule j _ e).terms, List.getElem?_modify]
  have hij : j ≠ i := by
    rintro rfl
    cases he.symm.trans hu
    rw [hno] at hsuffix
    cases hsuffix
  simpa [hij] using he

theorem extendMarkers_shows (hd : d.terms = init ++ last :: after)
    (hno : last.hasTag .pratyaya = false) :
    ∃ init' after', d.extendMarkers.terms = init' ++ last :: after' ∧
      Reshapes [] after after' := by
  have hrow := (recasts_extendMarkers d).row
  rw [hd] at hrow
  obtain ⟨init', back', hterms, hinit, hback⟩ := hrow.append
  cases hback with
  | @cons _ last' _ after' _ hafter =>
      have hkept := extendMarkers_keeps (term_of_cut hd) hno
      rw [hinit.length_eq, term_of_cut hterms] at hkept
      cases hkept
      exact ⟨init', after', hterms, hafter⟩

-- Without an ending of the perfect no choice is left before the augment.
theorem itRule?_eq_none (h : ∀ t ∈ d.terms, t.hasLakshana "li~w".toList = false) :
    d.itRule? = none := by
  unfold itRule?
  split
  · rfl
  · split
    · rename_i root suffix _ hsuffix
      have hno : suffix.hasLakshana "li~w".toList = false :=
        List.any_eq_false.mpr fun t ht => by
          rw [h t (View.mem_of_at? hsuffix t ht)]
          decide
      rw [hno, Bool.false_and]
      split
      · rfl
      · rw [if_neg (by decide)]
    · rfl

-- The ending Tal is told the augment by the rules of the root before it.
theorem itRule?_of_ending (hd : d.terms = (init ++ [last]) ++ [ending])
    (hlast : last.hasTag .dhatu = true) (hending : ending.hasTag .dhatu = false)
    (htal : ending.isTaught "Tal".toList = true → ending.hasTag .agama = false ∧
      ending.hasTag .ardhadhatuka = true ∧ ending.hasAdi (.oneOf .val) = true ∧
        ending.hasLakshana "li~w".toList = true) :
    d.itRule? = if ending.isTaught "Tal".toList then last.talRule? else none := by
  have hcut : d.terms = init ++ last :: [ending] := by rw [hd, List.append_assoc]; rfl
  have hview : d.view? ((init.length + 1 : Nat) : Int) =
      some ⟨init.length + 1, ending, [], []⟩ := by
    have := View.at?_last (init ++ [last]) ending
    rw [← hd, List.length_append, List.length_singleton] at this
    exact this
  unfold itRule?
  rw [lastTagged?_of_cut hcut hlast (by simpa using hending)]
  dsimp only
  rw [term_of_cut hcut, hview]
  have hadi : (View.mk (init.length + 1) ending [] []).hasAdi (.oneOf .val) =
      ending.hasAdi (.oneOf .val) := by
    simp only [View.hasAdi, View.adi?, View.units, List.findSome?_cons, List.findSome?_nil,
      Term.hasAdi]
    cases ending.adi? <;> rfl
  have hview' : ∀ f : Term → Bool, (View.mk (init.length + 1) ending [] []).units.any f =
      f ending := by simp [View.units]
  simp only [hadi, View.hasTag, View.hasLakshana, hview', View.last, List.getLastD_nil]
  by_cases h : ending.isTaught "Tal".toList = true
  · obtain ⟨hagama, hardha, hval, hlit⟩ := htal h
    rw [hagama, hardha, hval, hlit, h]
    rfl
  · rw [Bool.eq_false_of_not_eq_true h, Bool.and_false]
    simp only [Bool.false_eq_true, if_false, ite_self]

end Derivation

-- What is known of the endings that have optional rules.
theorem endings_of_rules {lakara : Lakara} (hlakara : lakara ∈ supportedLakaras) (pada : Pada)
    (purusha : Purusha) (vacana : Vacana) :
    let ending := endingOf lakara pada purusha vacana
    (ending.isTaught "Tal".toList =
        decide (lakara = .lit ∧ pada = .parasmaipada ∧ vacana = .eka ∧ purusha = .madhyama)) ∧
      ending.ralRule? = (if lakara = .lit ∧ pada = .parasmaipada ∧ vacana = .eka ∧
        purusha = .uttama then some "7.1.91" else none) ∧
      (ending.isTaught "Tal".toList = true → ending.hasTag .agama = false ∧
        ending.hasTag .ardhadhatuka = true ∧ ending.hasAdi (.oneOf .val) = true ∧
          ending.hasLakshana "li~w".toList = true) ∧
      ending.hasTag (.pada .parasmaipada) = (pada == .parasmaipada) :=
  forall_endings (P := fun lakara pada purusha vacana =>
    let ending := endingOf lakara pada purusha vacana
    (ending.isTaught "Tal".toList =
        decide (lakara = .lit ∧ pada = .parasmaipada ∧ vacana = .eka ∧ purusha = .madhyama)) ∧
      ending.ralRule? = (if lakara = .lit ∧ pada = .parasmaipada ∧ vacana = .eka ∧
        purusha = .uttama then some "7.1.91" else none) ∧
      (ending.isTaught "Tal".toList = true → ending.hasTag .agama = false ∧
        ending.hasTag .ardhadhatuka = true ∧ ending.hasAdi (.oneOf .val) = true ∧
          ending.hasLakshana "li~w".toList = true) ∧
      ending.hasTag (.pada .parasmaipada) = (pada == .parasmaipada))
    (by decide +kernel) hlakara pada purusha vacana

-- Outside the perfect no term stands for lit.
theorem hasLakshana_suffixedRow (root : Root) {form : VerbForm}
    (hform : form.lakara ∈ supportedLakaras) (hlit : form.lakara ≠ .lit) (pada : Pada) :
    ∀ t ∈ suffixedRow root form pada, t.hasLakshana "li~w".toList = false := by
  have hentered : root.entered.hasLakshana "li~w".toList = false := by
    rw [Term.hasLakshana, Term.lakshanas_eq_of_kind root.kind_entered]
    rfl
  have hending : (endingOf form.lakara pada form.purusha form.vacana).hasLakshana
      "li~w".toList = false := by
    rw [(isBack_suffixesOf hform root.gana pada).last.2.perfect]
    simpa using hlit
  obtain ⟨added, hrow, hadded⟩ := suffixedRow_cut root form pada
  rw [hrow]
  refine List.forall_mem_append.mpr ⟨List.forall_mem_cons.mpr ⟨hentered, fun t ht => ?_⟩,
    by simpa using hending⟩
  rw [Term.hasLakshana, (hadded t ht).2]
  rfl

namespace Derivation

variable {d : Derivation} {root : Root} {form : VerbForm} {pada : Pada}

-- In the perfect the row ends in a root and the ending.
theorem suffixedRow_lit (root : Root) (hlit : form.lakara = .lit) (pada : Pada) :
    ∃ init, suffixedRow root form pada =
      init ++ root.perfectRoot :: [endingOf .lit pada form.purusha form.vacana] := by
  obtain ⟨init, hinit⟩ := root.front_lit
  refine ⟨init, ?_⟩
  rw [suffixedRow, suffixesOf, stemSuffix?, if_pos hlit, hlit, hinit, Term.augments,
    if_neg (by simp)]
  simp

-- The rule that is asked before the augment, when the suffixes stand in the row.
theorem itRule?_suffixed (hform : form.lakara ∈ supportedLakaras)
    (hd : d.terms = suffixedRow root form pada) :
    d.extendMarkers.itRule? =
      if (endingOf form.lakara pada form.purusha form.vacana).isTaught "Tal".toList then
        root.perfectRoot.talRule?
      else none := by
  obtain ⟨htal, -, hknown, -⟩ := endings_of_rules hform pada form.purusha form.vacana
  by_cases hlit : form.lakara = .lit
  · obtain ⟨init, hrow⟩ := suffixedRow_lit root hlit pada
    obtain ⟨init', after', hterms, hafter⟩ :=
      extendMarkers_shows (hd.trans hrow) root.pratyaya_perfectRoot
    cases hafter with
    | @cons _ ending _ _ hsame hnil =>
        cases hnil
        obtain ⟨hkind, htext⟩ := hsame
        rw [hlit] at hknown ⊢
        have htaught : ending.isTaught "Tal".toList =
            (endingOf .lit pada form.purusha form.vacana).isTaught "Tal".toList := by
          rw [Term.isTaught, Term.upadesha_eq_of_kind hkind]
          rfl
        rw [← htaught] at hknown ⊢
        have hgiven := (isBack_suffixesOf hform root.gana pada).last.2
        rw [hlit] at hgiven
        have hcut : d.extendMarkers.terms = (init' ++ [root.perfectRoot]) ++ [ending] := by
          rw [hterms, List.append_assoc]
          rfl
        refine itRule?_of_ending hcut root.dhatu_perfectRoot
          ((Term.hasTag_eq_of_kind hkind rfl).trans hgiven.dhatu) fun h => ?_
        obtain ⟨hagama, hardha, hval, hperfect⟩ := hknown h
        refine ⟨(Term.hasTag_eq_of_kind hkind rfl).trans hagama,
          (Term.hasTag_eq_of_kind hkind rfl).trans hardha, ?_, ?_⟩
        · rw [Term.hasAdi, Term.adi?, htext rfl]
          exact hval
        · rw [Term.hasLakshana, Term.lakshanas_eq_of_kind hkind]
          exact hperfect
  · have hno := forall_of_kinds (P := fun t => t.hasLakshana "li~w".toList = false)
      (fun t t' hkind ht => by rw [Term.hasLakshana, Term.lakshanas_eq_of_kind hkind]; exact ht)
      (hd ▸ (recasts_extendMarkers d).row.outline) (hasLakshana_suffixedRow root hform hlit pada)
    rw [itRule?_eq_none hno, htal]
    simp [hlit]

theorem choices_decided (rules : Option Rule) (d : Derivation) :
    (d.decided rules).choices = d.choices := rfl

theorem ledger_decided (rules : Option Rule) (d : Derivation) :
    (d.decided rules).ledger = d.ledger ++ (rules.map d.choices.decide).toList := rfl

-- The two places where the ending is asked about come down to one rule.
theorem ledger_shaped (hform : form.lakara ∈ supportedLakaras)
    (hd : d.terms = suffixedRow root form pada) :
    ((d.decided d.extendMarkers.itRule?).decided
        (endingOf form.lakara pada form.purusha form.vacana).ralRule?).ledger =
      d.ledger ++ ((root.endingRule? form pada).map d.choices.decide).toList := by
  obtain ⟨htal, hral, -, -⟩ := endings_of_rules hform pada form.purusha form.vacana
  rw [ledger_decided, choices_decided, ledger_decided, itRule?_suffixed hform hd, htal, hral,
    Root.endingRule?]
  by_cases heka : form.lakara = .lit ∧ pada = .parasmaipada ∧ form.vacana = .eka
  · obtain ⟨hlit, hpada, hvacana⟩ := heka
    cases hpurusha : form.purusha <;> simp [hlit, hpada, hvacana]
  · have hno (purusha : Purusha) : ¬(form.lakara = .lit ∧ pada = .parasmaipada ∧
        form.vacana = .eka ∧ form.purusha = purusha) :=
      fun h => heka ⟨h.1, h.2.1, h.2.2.1⟩
    rw [if_neg heka, decide_eq_false (hno .madhyama), if_neg (hno .uttama)]
    simp

-- What is settled about the set of endings is in the ledger when the suffixes stand in the row.
theorem suffixed_decides (hform : form.lakara ∈ supportedLakaras) (hterms : d.terms = [])
    (htags : d.tags = []) :
    (d.suffixed root form).Ends
      (fun e =>
        e.terms = suffixedRow root form ((root.padaChoice form.prayoga).resolve d.choices).1 ∧
        e.choices = d.choices ∧ e.table = d.table ∧
        e.ledger = d.ledger ++ ((root.padaChoice form.prayoga).resolve d.choices).2)
      fun _ => True := by
  have hchoices := (taggedAkusmiya_taggedFor (d := d) root form htags).1
  have htagged : ((d.taggedFor form).taggedAkusmiya root).background = d.background := by
    unfold taggedAkusmiya taggedFor
    split <;> simp
  refine (suffixed_shows hform hterms htags).imp (fun e he => ⟨he.1, ?_, ?_, ?_⟩) fun _ h => h
  · exact (choices_eq_of_rest he.2).trans hchoices
  · calc e.table = e.rest.table := rfl
      _ = ((d.taggedFor form).taggedAkusmiya root).table := by rw [he.2]; rfl
      _ = d.table := table_eq_of_background htagged
  · rw [ledger_eq_of_rest he.2, settle, ledger_eq_of_background htagged]

-- The ending is still known where the sounds have met.
theorem lastEnding?_of_outline {e f : Derivation} {gana : Int} {doubled : Bool}
    (hform : form.lakara ∈ supportedLakaras)
    (h : MadeOf (preparedSuffixes form gana pada) doubled e.terms) (hf : f.outline = e.outline) :
    ∃ ending, f.lastEnding? = some ending ∧
      ending.kind = (endingOf form.lakara pada form.purusha form.vacana).kind := by
  obtain ⟨before, ending, hrow, hkind, -, -⟩ := h.cut_ending
  rw [outline, outline, hrow, List.map_append, List.map_singleton] at hf
  obtain ⟨before', last, hterms, -, hlast⟩ := List.map_eq_append_iff.mp hf
  obtain ⟨ending', rfl, hkind'⟩ := List.map_eq_singleton_iff.mp hlast
  have hsame := hkind'.trans (hkind.trans (Term.kind_antForJ _))
  have htin : ending'.hasTag .tin = true :=
    (Term.hasTag_eq_of_kind hsame rfl).trans (isBack_suffixesOf hform gana pada).last.1.tin
  refine ⟨ending', ?_, hsame⟩
  rw [lastEnding?, lastTagged?_of_cut hterms htin (by simp), Option.bind_some, term_of_cut hterms]

-- Once the stem is shaped, the ledger is complete and the ending is known.
theorem fitted_decides (hroot : root.gana ∈ supportedGanas)
    (hform : form.lakara ∈ supportedLakaras) {doubled : Bool}
    (h : MadeOf (preparedSuffixes form root.gana pada) doubled d.terms)
    (htable : d.table = .standard) :
    (d.fitSuffixes.joinVowels.andThen joinConsonants).Ends
      (fun e => e.ledger = d.ledger ∧
        e.lastEnding?.any (·.hasTag (.pada .parasmaipada)) = (pada == .parasmaipada))
      fun _ => True := by
  have houtline : (d.fitSuffixes.joinVowels.andThen joinConsonants).KeepsOutline d :=
    ((keepsOutline_joinVowels d.fitSuffixes).andThen _ keepsOutline_joinConsonants).imp
      (fun f hf => hf.trans (recasts_fitSuffixes d).row.outline) fun _ h => h
  refine ((joined_background hroot hform htable h).and houtline).imp (fun e he => ?_) fun _ h => h
  obtain ⟨ending, hending, hkind⟩ := lastEnding?_of_outline hform h he.2
  refine ⟨ledger_eq_of_background he.1, ?_⟩
  rw [hending, Option.any_some, Term.hasTag_eq_of_kind hkind rfl]
  exact (endings_of_rules hform pada form.purusha form.vacana).2.2.2

-- The ledger of a form, and its set of endings.
theorem conjugate_decides (hroot : root.gana ∈ supportedGanas)
    (hform : form.lakara ∈ supportedLakaras) (hterms : d.terms = []) (htags : d.tags = [])
    (hledger : d.ledger = []) (htable : d.table = .standard) :
    (d.conjugate root form).Ends
      (fun e => e.ledger = root.decisions form d.choices ∧
        e.lastEnding?.any (·.hasTag (.pada .parasmaipada)) =
          (((root.padaChoice form.prayoga).resolve d.choices).1 == .parasmaipada))
      fun _ => True := by
  have hshaped : ((d.suffixed root form).andThen shaped).Ends
      (fun e => MadeOf (preparedSuffixes form root.gana
          ((root.padaChoice form.prayoga).resolve d.choices).1) (form.lakara == .lit) e.terms ∧
        e.ledger = root.decisions form d.choices ∧ e.table = .standard) fun _ => True := by
    refine (suffixed_decides hform hterms htags).andThen _ fun e he => ?_
    obtain ⟨hrow, hchoices, hsame, hdecided⟩ := he
    refine (shaped_makes hform hrow).imp (fun f hf => ⟨hf.1, ?_, ?_⟩) fun _ h => h
    · rw [ledger_eq_of_rest hf.2, ledger_shaped hform hrow, hdecided, hchoices, hledger]
      rfl
    · calc f.table = f.rest.table := rfl
        _ = e.table := by rw [hf.2]; rfl
        _ = .standard := hsame.trans htable
  rw [conjugate_eq_shaped, Outcome.map, Outcome.andThen_assoc, Outcome.andThen_assoc]
  refine hshaped.andThen _ fun e he => ?_
  exact (fitted_decides hroot hform he.1 he.2.2).imp
    (fun f hf => ⟨hf.1.trans he.2.1, hf.2⟩) fun _ h => h

end Derivation

end Vyakarana
