import Vyakarana.Proofs.Grammar.Ledger

/-!
One set of endings for a form.

The set of endings is chosen before the lakara gives way to an ending. From then on it is read in
two places, from the derivation and from the ending, and both bear the same tag to the last. What
the ending was taught as tells the lakara, and then the cell of the table of that set.
-/

namespace Vyakarana

-- What the last chapters do is not looked into here, and looking into it takes time.
attribute [local irreducible] Derivation.joinVowels Derivation.joinConsonants

-- The endings of a set.
def endingsOf (pada : Pada) : List Text :=
  Purusha.all.flatMap fun purusha => Vacana.all.map (endingTaught pada purusha)

-- No ending belongs to both sets.
theorem mem_endingsOf_iff (pada other : Pada) (purusha : Purusha) (vacana : Vacana) :
    endingTaught pada purusha vacana ∈ endingsOf other ↔ other = pada := by
  cases pada <;> cases other <;> cases purusha <;> cases vacana <;> decide

namespace Term

-- The forms in which a term has been taught, from the first one on.
def taughtForms (t : Term) : List Text := t.lakshanas ++ t.upadesha.toList

-- The ending bears the tag of its set and of no other, and it was the lakara of the form and then the
-- ending of that set for the person and number.
structure BearsPada (form : VerbForm) (pada : Pada) (t : Term) : Prop where
  tagged : ∀ other : Pada, t.hasTag (.pada other) = (other == pada)
  taught : ∃ ending later, t.taughtForms = form.lakara.upadesha :: ending :: later ∧
    ending = endingTaught pada form.purusha form.vacana ∧
      ∀ other, ending ∈ endingsOf other ↔ other = pada

variable {form : VerbForm} {pada : Pada} {t t' : Term}

theorem BearsPada.of_kind (h : t.BearsPada form pada) (hkind : t'.kind = t.kind) :
    t'.BearsPada form pada where
  tagged other := (hasTag_eq_of_kind hkind rfl).trans (h.tagged other)
  taught := by
    rw [taughtForms, lakshanas_eq_of_kind hkind, upadesha_eq_of_kind hkind]
    exact h.taught

end Term

theorem bearsPada_endingOf {form : VerbForm} (hform : form.lakara ∈ supportedLakaras)
    (pada : Pada) :
    (endingOf form.lakara pada form.purusha form.vacana).BearsPada form pada := by
  have hall := forall_endings (P := fun lakara pada purusha vacana =>
    let ending := endingOf lakara pada purusha vacana
    (∀ other ∈ [Pada.parasmaipada, .atmanepada], ending.hasTag (.pada other) = (other == pada)) ∧
      ending.taughtForms.take 2 = [lakara.upadesha, endingTaught pada purusha vacana])
    (by decide +kernel) hform pada form.purusha form.vacana
  obtain ⟨htagged, htaught⟩ := hall
  refine ⟨fun other => htagged other (by cases other <;> decide), ?_⟩
  have hforms :=
    List.take_append_drop 2 (endingOf form.lakara pada form.purusha form.vacana).taughtForms
  rw [htaught] at hforms
  exact ⟨_, _, hforms.symm, rfl, fun other => mem_endingsOf_iff pada other _ _⟩

namespace Root

-- The root without its markers, bearing the tags that they leave.
def marked (root : Root) : Term :=
  ((Term.ofRoot root.upadesha root.gana root.number).addTag .dhatu).stripped root.upadesha

-- The form is passive or impersonal, or the root is one of the akusmiya sub-list, or its markers ask
-- for the atmanepada.
def AsksAtmanepada (root : Root) (form : VerbForm) : Prop :=
  form.prayoga = .karmani ∨ form.prayoga = .bhave ∨ root.antargana = some .akusmiya ∨
    root.marked.hasTagIn [.anudattet, .it .N] = true

instance (root : Root) (form : VerbForm) : Decidable (root.AsksAtmanepada form) :=
  inferInstanceAs (Decidable (_ ∨ _ ∨ _ ∨ _))

-- What is done to the root when its markers are gone concerns its sounds alone.
theorem hasTagIn_entered (root : Root) (tags : List Tag) :
    root.entered.hasTagIn tags = root.marked.hasTagIn tags := by
  have htags : root.entered.tags = root.marked.tags := by
    have hinitial (t : Term) : t.replaceInitial.tags = t.tags := by
      unfold Term.replaceInitial Term.substituteAdi
      repeat' split
      all_goals rfl
    have hnasal (t : Term) : t.nasalize.tags = t.tags := by
      unfold Term.nasalize Term.insertAfterVowel
      repeat' split
      all_goals rfl
    rw [entered, hnasal, hinitial, marked]
  unfold Term.hasTagIn Term.hasTag
  rw [htags]

theorem padaChoice_of_asks {root : Root} {form : VerbForm} (h : root.AsksAtmanepada form) :
    root.padaChoice form.prayoga = .settled .atmanepada := by
  unfold padaChoice
  by_cases hearly : (root.antargana == some .akusmiya || form.prayoga != .kartari) = true
  · rw [if_pos hearly]
  · rw [if_neg hearly]
    rcases h with h | h | h | h
    · rw [h] at hearly
      simp at hearly
    · rw [h] at hearly
      simp at hearly
    · rw [h] at hearly
      simp at hearly
    · rw [root.hasTagIn_entered, if_pos h]

end Root

namespace Derivation

variable {d e f : Derivation} {root : Root} {form : VerbForm} {pada : Pada}

-- Before the choice there is no tag of a set, unless it is the one that the choice is to confirm.
theorem hasTag_settle_pada (root : Root) (form : VerbForm) (htags : d.tags = [])
    (choices : Choices) (other : Pada) :
    (((d.taggedFor form).taggedAkusmiya root).settle
      ((root.padaChoice form.prayoga).resolve choices)).hasTag (.pada other) =
        (other == ((root.padaChoice form.prayoga).resolve choices).1) := by
  have hfor : (d.taggedFor form).hasTag (.pada other) = false := by
    simp [hasTag, tags_taggedFor form htags]
  rw [hasTag_settle]
  unfold taggedAkusmiya
  by_cases hakusmiya : (root.antargana == some .akusmiya) = true
  · have hasks : root.AsksAtmanepada form := .inr (.inr (.inl (beq_iff_eq.mp hakusmiya)))
    have hadd : ((d.taggedFor form).addTag (.pada .atmanepada)).hasTag (.pada other) =
        (other == .atmanepada) := by
      have hno : (d.taggedFor form).tags.contains (.pada other) = false := hfor
      refine (Tag.contains_insert _ _ _).trans ?_
      rw [hno, Bool.or_false]
      cases other <;> rfl
    rw [if_pos hakusmiya, hadd, Root.padaChoice_of_asks hasks]
    cases other <;> rfl
  · rw [if_neg hakusmiya, hfor, Bool.or_false]
    cases other <;> cases ((root.padaChoice form.prayoga).resolve choices).1 <;> rfl

-- The ending stands last and alone, and is still what it was when the suffixes met the stem.
theorem exists_ending (hform : form.lakara ∈ supportedLakaras) {gana : Int} {doubled : Bool}
    (h : MadeOf (preparedSuffixes form gana pada) doubled e.terms) (hf : f.outline = e.outline) :
    ∃ before ending, f.terms = before ++ [ending] ∧ ending.hasTag .tin = true ∧
      (∀ t ∈ before, t.hasTag .tin = false) ∧ ending.BearsPada form pada := by
  obtain ⟨suffixes, hkinds, hmade⟩ := h.of_outline hf
  have hs := (isBack_preparedSuffixes hform gana pada).of_kinds hkinds
  obtain ⟨before, ending, hrow, hending, -, hbefore⟩ := hmade.ending hs
  rw [preparedSuffixes, List.map_append, List.map_singleton] at hkinds
  obtain ⟨init, last, rfl, -, hlast⟩ := List.map_eq_append_iff.mp hkinds
  obtain ⟨last, rfl, hkind⟩ := List.map_eq_singleton_iff.mp hlast
  obtain ⟨before', ending', hrow', hsame, -, -⟩ := hmade.cut_ending
  obtain ⟨-, heq⟩ := List.append_inj' (hrow'.symm.trans hrow) rfl
  obtain rfl := List.singleton_inj.mp heq
  exact ⟨before, ending', hrow, hending.tin, hbefore, (bearsPada_endingOf hform pada).of_kind
    (hsame.trans (hkind.trans (Term.kind_antForJ _)))⟩

-- The last rules leave the tags of the derivation, and choose nothing but the last sound.
theorem joined_tags_and_ledger (d : Derivation) :
    (d.fitSuffixes.joinVowels.andThen joinConsonants).Ends
      (fun e => e.outline = d.outline ∧ e.tags = d.tags ∧
        ∀ x ∈ e.ledger, x ∈ d.ledger ∨ x.rule ∈ ["8.4.56"]) fun _ => True := by
  have hfit := recasts_fitSuffixes d
  have htags : d.fitSuffixes.tags = d.tags :=
    calc d.fitSuffixes.tags = d.fitSuffixes.rest.tags := rfl
      _ = d.rest.tags := by rw [hfit.rest]
  have hvowels := ((unheard_outline.joinVowels d.fitSuffixes).and
    (unheard_tags.joinVowels d.fitSuffixes)).and
      ((keepsBackground_joinVowels d.fitSuffixes).imp (fun _ h => h) fun _ _ => trivial)
  refine hvowels.andThen _ fun e he => ?_
  obtain ⟨⟨houtline, hsame⟩, hbackground⟩ := he
  have hconsonants := ((unheard_outline.joinConsonants e).and (unheard_tags.joinConsonants e)).and
    ((joinConsonants_ends (List.mem_singleton_self "8.4.56") e).imp (fun _ h => h.1)
      fun _ _ => trivial)
  refine hconsonants.imp (fun f hf => ?_) fun _ h => h
  obtain ⟨⟨houtline', hsame'⟩, hcontinues⟩ := hf
  refine ⟨houtline'.trans (houtline.trans hfit.row.outline), hsame'.trans (hsame.trans htags),
    fun x hx => ?_⟩
  rw [← ledger_eq_of_rest hfit.rest, ← ledger_eq_of_background hbackground]
  exact hcontinues.ledger x hx

-- A form bears the set of endings that its choices come to, and its ledger tells these choices and
-- no others of that kind.
theorem conjugate_bears (hform : form.lakara ∈ supportedLakaras) (hterms : d.terms = [])
    (htags : d.tags = []) (hledger : d.ledger = []) :
    (d.conjugate root form).Ends
      (fun e => let result := (root.padaChoice form.prayoga).resolve d.choices
        (∀ other : Pada, e.hasTag (.pada other) = (other == result.1)) ∧
        (∃ before ending, e.terms = before ++ [ending] ∧ ending.hasTag .tin = true ∧
          (∀ t ∈ before, t.hasTag .tin = false) ∧ ending.BearsPada form result.1) ∧
        ∀ x ∈ e.ledger, x.rule ∈ padaRules → x ∈ result.2) fun _ => True := by
  let result := (root.padaChoice form.prayoga).resolve d.choices
  have hshaped : ((d.suffixed root form).andThen shaped).Ends
      (fun e => MadeOf (preparedSuffixes form root.gana result.1) (form.lakara == .lit) e.terms ∧
        (∀ other : Pada, e.hasTag (.pada other) = (other == result.1)) ∧
        ∀ x ∈ e.ledger, x.rule ∈ padaRules → x ∈ result.2) fun _ => True := by
    refine ((suffixed_shows hform hterms htags).and
      (suffixed_decides hform hterms htags)).andThen _ fun e he => ?_
    obtain ⟨⟨hrow, hrest⟩, -, hchoices, -, hdecided⟩ := he
    refine (shaped_makes hform hrow).imp (fun f hf => ⟨hf.1, fun other => ?_, ?_⟩) fun _ h => h
    · rw [hasTag_eq_of_rest hf.2]
      exact (hasTag_eq_of_rest hrest _).trans (hasTag_settle_pada root form htags d.choices other)
    · rw [ledger_eq_of_rest hf.2, ledger_shaped hform hrow, hdecided, hledger]
      intro x hx hpada
      rcases List.mem_append.mp hx with hx | hx
      · exact hx
      · obtain ⟨rule, hrule, rfl⟩ := Option.map_eq_some_iff.mp (Option.mem_toList.mp hx)
        exact absurd rfl (root.ne_of_rules form hpada hrule)
  rw [conjugate_eq_shaped, Outcome.map, Outcome.andThen_assoc, Outcome.andThen_assoc]
  refine hshaped.andThen _ fun e he => ?_
  obtain ⟨hmade, htagged, hpada⟩ := he
  refine (joined_tags_and_ledger e).imp (fun f hf => ⟨fun other => ?_, ?_, ?_⟩) fun _ h => h
  · rw [← htagged other, hasTag, hf.2.1, hasTag]
  · exact exists_ending hform hmade hf.1
  · intro x hx hrule
    rcases hf.2.2 x hx with hx | hlast
    · exact hpada x hx hrule
    · rw [List.mem_singleton.mp hlast] at hrule
      exact absurd hrule (by decide)

end Derivation

-- The derivation and the ending bear the tag of one set, the same. It is the set that the ending was
-- first taken from, at the cell of the form. Where the atmanepada is asked for, it is the
-- atmanepada, and nothing was chosen.
theorem forms_bear_one_pada {root : Root} {form : VerbForm} {recording : Bool}
    {table : FeatureTable} {forms : List Derivation}
    (h : verbForms root form recording table = .ok forms) :
    ∀ d ∈ forms, ∃ pada : Pada,
      (∀ other : Pada, d.hasTag (.pada other) = (other == pada)) ∧
      (∃ before ending, d.terms = before ++ [ending] ∧ ending.hasTag .tin = true ∧
        (∀ t ∈ before, t.hasTag .tin = false) ∧ ending.BearsPada form pada) ∧
      (root.AsksAtmanepada form →
        pada = .atmanepada ∧ ∀ x ∈ d.ledger, x.rule ∉ padaRules) := by
  intro d hd
  obtain ⟨choices, hrun⟩ := run_of_mem_verbForms h hd
  obtain ⟨htagged, hending, hledger⟩ := of_run_done hrun
    (Derivation.conjugate_bears (mem_supportedLakaras_of_verbForms h) rfl rfl rfl)
  refine ⟨_, htagged, hending, fun hasks => ?_⟩
  rw [Root.padaChoice_of_asks hasks] at hledger ⊢
  exact ⟨rfl, fun x hx hrule => List.not_mem_nil (hledger x hx hrule)⟩

-- The marker of eD leaves it the atmanepada alone.
theorem present_of_edh_bears_atmanepada :
    ∃ forms, verbForms ⟨"eDa~\\".toList, 1, none, some 2⟩ ⟨.lat, .prathama, .eka, .kartari⟩ true
        .standard = .ok forms ∧
      forms ≠ [] ∧ ∀ d ∈ forms, d.hasTag (.pada .atmanepada) = true ∧
        ∀ x ∈ d.ledger, x.rule ∉ padaRules := by
  have hasks : (⟨"eDa~\\".toList, 1, none, some 2⟩ : Root).AsksAtmanepada
      ⟨.lat, .prathama, .eka, .kartari⟩ := by decide +kernel
  obtain ⟨forms, hok, hne⟩ := @exists_verbForms ⟨"eDa~\\".toList, 1, none, some 2⟩
    ⟨.lat, .prathama, .eka, .kartari⟩ (by decide) (by decide) (by decide) true
  refine ⟨forms, hok, hne, fun d hd => ?_⟩
  obtain ⟨pada, htagged, -, hatmane⟩ := forms_bear_one_pada hok d hd
  obtain ⟨rfl, hledger⟩ := hatmane hasks
  exact ⟨htagged .atmanepada, hledger⟩

end Vyakarana
