import Vyakarana.Proofs.Grammar.Disguise
import Vyakarana.Proofs.Grammar.Ledger
import Vyakarana.Proofs.Grammar.Recording
import Vyakarana.Proofs.Grammar.RootNumber

/-!
What a verb form does not depend on.

The number of a root is carried through the derivation and does nothing, and the passive and the
impersonal go the same way. A disguise that shows the choices as they are is seen through by the
optional rules too, and so by a whole conjugation: what becomes of the disguised root is the
disguise of what becomes of the root. The search sees texts and ledgers only, and finds the same.
-/

namespace Vyakarana

namespace Disguise

-- The choices, and what has been decided, are shown as they are.
structure Frank (φ : Disguise) : Prop where
  choices : ∀ d, (φ.tell d).choices = d.choices
  ledger : ∀ d, (φ.tell d).ledger = d.ledger
  accept : ∀ rule d, (φ.tell d).accept rule = φ.tell (d.accept rule)
  decline : ∀ rule d, (φ.tell d).decline rule = φ.tell (d.decline rule)

end Disguise

variable {φ : Disguise} (hφ : φ.Frank)

namespace Derivation

section Consulting

variable (d : Derivation)
include hφ

theorem consult_disguised (rule : Rule) :
    (d.disguised φ).consult rule = ((d.consult rule).1, (d.consult rule).2.disguised φ) := by
  unfold consult
  rw [show (d.disguised φ).choices = d.choices from hφ.choices d,
    show (d.disguised φ).accept rule = (d.accept rule).disguised φ from hφ.accept rule d]
  split <;> rfl

theorem decline_disguised (rule : Rule) :
    (d.disguised φ).decline rule = (d.decline rule).disguised φ :=
  hφ.decline rule d

theorem optionally_disguised (rule : Rule) {f : Derivation → Derivation}
    (hf : ∀ d, f (d.disguised φ) = (f d).disguised φ) :
    (d.disguised φ).optionally rule f =
      ((d.optionally rule f).1, (d.optionally rule f).2.disguised φ) := by
  unfold optionally
  rw [consult_disguised hφ]
  rcases d.consult rule with ⟨_ | _, e⟩
  · exact congrArg (Prod.mk false) (decline_disguised hφ e rule)
  · exact congrArg (Prod.mk true) (by rw [hf, record_disguised])

theorem optionalPada_disguised (rule : Rule) :
    (d.disguised φ).optionalPada rule = (d.optionalPada rule).disguised φ := by
  unfold optionalPada
  rw [optionally_disguised hφ d rule (markPada_disguised φ · _)]
  rcases d.optionally rule (·.markPada .atmanepada) with ⟨_ | _, e⟩
  · exact markParasmaipada_disguised φ e
  · rfl

theorem choosePada_disguised : (d.disguised φ).choosePada = d.choosePada.disguised φ := by
  unfold choosePada
  rw [firstTagged?_disguised, lastTagged?_disguised]
  split
  · rw [hasTag_pada_disguised, hasTagIn_passive_disguised, has_disguised φ d fun _ => rfl,
      has_disguised φ d fun _ => rfl, has_disguised φ d fun _ => rfl, markPada_disguised,
      record_disguised, record_disguised, optionalPada_disguised hφ, optionalPada_disguised hφ,
      markParasmaipada_disguised]
    repeat' split
    all_goals rfl
  · rfl

theorem talTakesItAfterVowel_disguised (root : Term) :
    (d.disguised φ).talTakesItAfterVowel root =
      ((d.talTakesItAfterVowel root).1, (d.talTakesItAfterVowel root).2.disguised φ) := by
  unfold talTakesItAfterVowel
  rw [consult_disguised hφ, record_disguised, record_disguised]
  split
  · rfl
  split
  · rfl
  rcases d.consult "7.2.63" with ⟨_ | _, e⟩
  · exact congrArg (Prod.mk false) (by rw [decline_disguised hφ, record_disguised])
  · rfl

theorem talRefusesIt_disguised (rule : Rule) :
    (d.disguised φ).talRefusesIt rule =
      ((d.talRefusesIt rule).1, (d.talRefusesIt rule).2.disguised φ) := by
  unfold talRefusesIt
  rw [consult_disguised hφ]
  rcases d.consult rule with ⟨_ | _, e⟩
  · exact congrArg (Prod.mk true) (decline_disguised hφ e rule)
  · exact congrArg (Prod.mk false) (record_disguised φ e rule)

theorem perfectTakesIt_disguised (root : Term) (tal : Bool) :
    (d.disguised φ).perfectTakesIt root tal =
      ((d.perfectTakesIt root tal).1, (d.perfectTakesIt root tal).2.disguised φ) := by
  unfold perfectTakesIt
  rw [record_disguised, talTakesItAfterVowel_disguised hφ, talRefusesIt_disguised hφ,
    talRefusesIt_disguised hφ]
  repeat' split
  all_goals rfl

-- The root is asked for its sounds and its accent.
omit hφ in
theorem perfectTakesIt_renumber (f : Option Int → Option Int) (root : Term) (tal : Bool) :
    d.perfectTakesIt (root.renumber f) tal = d.perfectTakesIt root tal := rfl

theorem takesIt_disguised (root : Term) (suffix : View) :
    (d.disguised φ).takesIt (root.renumber φ.number) (suffix.renumber φ.number) =
      ((d.takesIt root suffix).1, (d.takesIt root suffix).2.disguised φ) := by
  unfold takesIt
  rw [View.hasLakshana_renumber, View.last_renumber, Term.isTaught_renumber,
    perfectTakesIt_renumber, perfectTakesIt_disguised hφ, record_disguised]
  rw [show (root.renumber φ.number).isAnit = root.isAnit from rfl]
  split
  · rfl
  · split <;> rfl

theorem addIt_disguised : (d.disguised φ).addIt = d.addIt.disguised φ := by
  unfold addIt
  rw [lastTagged?_disguised]
  split
  · rfl
  rename_i i _
  rw [terms_disguised, List.getElem?_map, view?_disguised]
  rcases d.terms[i]? with _ | root
  · rfl
  rcases d.view? ((i + 1 : Nat) : Int) with _ | suffix
  · rfl
  simp only [Option.map_some, View.first_renumber, Term.hasTag_renumber, View.hasTag_renumber,
    View.hasAdi_renumber, takesIt_disguised hφ]
  split
  · rfl
  · rcases d.takesIt root suffix with ⟨_ | _, e⟩
    · rfl
    · exact augmentAfter_disguised φ e _ _ _

theorem relaxRal_disguised : (d.disguised φ).relaxRal = d.relaxRal.disguised φ := by
  unfold relaxRal
  rw [lastTagged?_disguised]
  split
  · rfl
  · rw [has_disguised φ d fun _ => rfl,
      optionally_disguised hφ d _ (update_disguised φ · (by simp) _)]
    split <;> rfl

theorem shapeStem_disguised : (d.disguised φ).shapeStem = d.shapeStem.disguised φ := by
  unfold shapeStem strengthenStem
  rw [prepareStem_disguised]
  refine Outcome.map_disguised (fun e => ?_) _
  rw [relaxRal_disguised hφ, forEach_disguised _ (strengthenAt_disguised φ), joinStem_disguised]

theorem devoiceFinal_disguised : (d.disguised φ).devoiceFinal = d.devoiceFinal.disguised φ := by
  unfold devoiceFinal withNearest
  rw [lastHeard?_disguised, table_disguised]
  split
  · rfl
  rename_i i _
  rw [terms_disguised, List.getElem?_map, Option.bind_map]
  simp only [Function.comp_def, Term.antya?_renumber]
  split
  · rfl
  split
  · rfl
  split
  · split
    · rfl
    · split
      · rfl
      · rw [optionally_disguised hφ d _ (update_disguised φ · (by simp) _)]
        rfl
  · rfl

theorem joinConsonants_disguised :
    (d.disguised φ).joinConsonants = d.joinConsonants.disguised φ := by
  have hpass (p : ConsonantPass) := fun e => pass_disguised φ e p
  rw [joinConsonants_eq, joinConsonants_eq, dropFinalOfCluster_disguised, pass_disguised,
    Outcome.map_disguised (finishWord_disguised φ), Outcome.andThen_disguised (hpass .anusvara),
    Outcome.andThen_disguised (hpass .suffixS), Outcome.andThen_disguised (hpass .palatal),
    Outcome.andThen_disguised (hpass .retroflex), Outcome.andThen_disguised (hpass .soft),
    Outcome.andThen_disguised (deaspirateCopy_disguised φ),
    Outcome.andThen_disguised (hpass .hard), Outcome.andThen_disguised (devoiceFinal_disguised hφ),
    Outcome.andThen_disguised (hpass .nasal)]

end Consulting

end Derivation

-- The form in the voice that the disguise gives it.
def VerbForm.disguised (φ : Disguise) (form : VerbForm) : VerbForm :=
  { form with prayoga := φ.voice form.prayoga }

include hφ in
theorem Derivation.conjugate_disguised (root : Root) (form : VerbForm) (d : Derivation) :
    (d.disguised φ).conjugate (root.disguised φ) (form.disguised φ) =
      (d.conjugate root form).disguised φ := by
  have htags : (d.disguised φ).addTags [.prayoga (form.disguised φ).prayoga,
      .purusha (form.disguised φ).purusha, .vacana (form.disguised φ).vacana] =
        (d.addTags [.prayoga form.prayoga, .purusha form.purusha,
          .vacana form.vacana]).disguised φ :=
    addTags_disguised φ d [.prayoga form.prayoga, .purusha form.purusha, .vacana form.vacana]
  have hlakara (e : Derivation) : (e.disguised φ).addLakara (form.disguised φ).lakara =
      (e.addLakara form.lakara).disguised φ :=
    addLakara_disguised φ e form.lakara
  have hsuffixes (e : Derivation) : (e.disguised φ).addSuffixes (form.disguised φ) =
      (e.addSuffixes form).disguised φ :=
    addSuffixes_disguised φ e form rfl
  unfold conjugate
  rw [htags, enterRoot_disguised, Outcome.andThen_disguised (addRic_disguised φ),
    Outcome.andThen_disguised hlakara, Outcome.map_disguised (choosePada_disguised hφ),
    Outcome.andThen_disguised hsuffixes, Outcome.map_disguised (extendMarkers_disguised φ),
    Outcome.andThen_disguised (addIt_disguised hφ),
    Outcome.map_disguised (reduplicate_disguised φ),
    Outcome.andThen_disguised (reduceCopy_disguised φ),
    Outcome.andThen_disguised (shapeStem_disguised hφ),
    Outcome.andThen_disguised (joinVowels_disguised φ),
    Outcome.andThen_disguised (joinConsonants_disguised hφ)]

theorem Outcome.disguised_eq_told (φ : Disguise) (o : Outcome) :
    o.disguised φ = o.told φ.tell := by
  cases o <;> rfl

-- The search tries the same choices on the disguise, and keeps the same forms.
theorem verbForms_disguised {φ : Disguise} (hφ : φ.Frank) {recording : Bool}
    {table : FeatureTable}
    (hstart : ∀ choices, (Derivation.start choices recording table).disguised φ =
      .start choices recording table) (root : Root) (form : VerbForm) :
    verbForms (root.disguised φ) (form.disguised φ) recording table =
      (verbForms root form recording table).map (List.map (·.disguised φ)) := by
  refine verbForms_told φ.tell hφ.ledger (fun d => d.text_disguised φ) rfl rfl fun choices => ?_
  rw [← Outcome.disguised_eq_told, conjugationRun, conjugationRun,
    ← Derivation.conjugate_disguised hφ, hstart]

section Exchange

variable (f : Option Int → Option Int) (g : Prayoga → Prayoga)

-- Other numbers for the numbered terms, and another voice.
def Derivation.exchanged (d : Derivation) : Derivation :=
  { d with terms := d.terms.map (·.renumber f), tags := d.tags.map (·.revoice g) }

theorem Derivation.record_exchanged (d : Derivation) (rule : Rule) :
    (d.exchanged f g).record rule = (d.record rule).exchanged f g := by
  have htext : (d.exchanged f g).text = d.text := by
    simp only [Derivation.text, exchanged, List.flatMap_map, Term.text_renumber]
  have hrecording : (d.exchanged f g).recording = d.recording := rfl
  unfold record
  rw [htext, hrecording]
  split <;> rfl

def Disguise.exchanging (hf : f none = none) (hg : g.Injective) (hkartari : g .kartari = .kartari) :
    Disguise where
  tell := Derivation.exchanged f g
  number := f
  voice := g
  number_none := hf
  voice_injective := hg
  voice_kartari := hkartari
  terms _ := rfl
  tags _ := rfl
  table _ := rfl
  setTerms _ _ := rfl
  setTags _ _ := rfl
  record := Derivation.record_exchanged f g

theorem Disguise.frank_exchanging (hf : f none = none) (hg : g.Injective)
    (hkartari : g .kartari = .kartari) : (exchanging f g hf hg hkartari).Frank :=
  ⟨fun _ => rfl, fun _ => rfl, fun _ _ => rfl, fun _ _ => rfl⟩

end Exchange

-- The passive and the impersonal, each in the place of the other.
def Prayoga.exchange : Prayoga → Prayoga
  | .kartari => .kartari
  | .karmani => .bhave
  | .bhave => .karmani

theorem Prayoga.exchange_injective : exchange.Injective := by
  intro x y h
  cases x <;> cases y <;> first | rfl | cases h

namespace Derivation

-- The tag of the passive is exchanged for that of the impersonal, and the other way round.
def exchangeVoice (d : Derivation) : Derivation :=
  { d with tags := d.tags.map (·.revoice Prayoga.exchange) }

-- The first root has this number.
def withRootNumber (number : Option Int) (d : Derivation) : Derivation :=
  { d with terms := numberRoot number d.terms }

theorem exchanged_exchange (d : Derivation) : d.exchanged id Prayoga.exchange = d.exchangeVoice := by
  rw [exchanged, exchangeVoice, Term.map_renumber_id]

def unnumbered (d : Derivation) : Derivation := d.exchanged (fun _ => none) id

theorem withRootNumber_unnumbered {d : Derivation} {number : Option Int}
    (h : NumbersRoot number d.terms) : d.unnumbered.withRootNumber number = d := by
  rw [withRootNumber, unnumbered, exchanged, Tag.map_revoice_id, h.numberRoot_renumber]

theorem withRootNumber_withRootNumber (number number' : Option Int) (d : Derivation) :
    (d.withRootNumber number).withRootNumber number' = d.withRootNumber number' := by
  rw [withRootNumber, withRootNumber, withRootNumber, numberRoot_numberRoot]

end Derivation

section Forms

variable (root : Root) (form : VerbForm) (recording : Bool) (table : FeatureTable)

-- The forms of a root are those that it has without a number, numbered.
theorem verbForms_numbered :
    verbForms root form recording table =
      (verbForms { root with number := none } form recording table).map
        (List.map (·.withRootNumber root.number)) := by
  have hnone : verbForms { root with number := none } form recording table =
      (verbForms root form recording table).map (List.map (·.unnumbered)) :=
    verbForms_disguised
      (Disguise.frank_exchanging (fun _ => none) id rfl Function.injective_id rfl)
      (fun _ => rfl) root form
  rw [hnone]
  rcases hforms : verbForms root form recording table with reason | forms
  · rfl
  · have hnumbered : ∀ d ∈ forms, d.unnumbered.withRootNumber root.number = d := by
      intro d hd
      obtain ⟨choices, hrun⟩ := run_of_mem_verbForms hforms hd
      exact Derivation.withRootNumber_unnumbered (of_run_done hrun
        (Derivation.conjugate_numbers_root (mem_supportedLakaras_of_verbForms hforms) rfl rfl))
    refine congrArg Except.ok ?_
    rw [List.map_map]
    exact ((List.map_congr_left hnumbered).trans (List.map_id' forms)).symm

theorem verbForms_of_number (number : Option Int) :
    verbForms { root with number := number } form recording table =
      (verbForms root form recording table).map (List.map (·.withRootNumber number)) := by
  rw [verbForms_numbered { root with number := number }, verbForms_numbered root]
  rcases verbForms { root with number := none } form recording table with reason | forms
  · rfl
  · refine congrArg Except.ok ?_
    rw [List.map_map]
    exact List.map_congr_left fun d _ => (d.withRootNumber_withRootNumber root.number number).symm

theorem verbForms_of_exchange :
    verbForms root { form with prayoga := form.prayoga.exchange } recording table =
      (verbForms root form recording table).map (List.map (·.exchangeVoice)) := by
  rw [← funext Derivation.exchanged_exchange]
  exact verbForms_disguised
    (Disguise.frank_exchanging id Prayoga.exchange rfl Prayoga.exchange_injective rfl)
    (fun _ => rfl) root form

end Forms

-- With another number for the root there is the same error, or there are the same forms in the same
-- order with that number in the root and nothing else changed. The impersonal has the same error as
-- the passive, or the same forms in the same order, and only the tag of the voice is another.
theorem number_and_passive_do_not_interfere (recording : Bool) (table : FeatureTable) :
    (∀ (root : Root) (form : VerbForm) (number : Option Int),
      verbForms { root with number := number } form recording table =
        (verbForms root form recording table).map (List.map (·.withRootNumber number))) ∧
    ∀ (root : Root) (form : VerbForm),
      verbForms root { form with prayoga := .bhave } recording table =
        (verbForms root { form with prayoga := .karmani } recording table).map
          (List.map (·.exchangeVoice)) :=
  ⟨fun root form number => verbForms_of_number root form recording table number,
    fun root form =>
      verbForms_of_exchange root { form with prayoga := .karmani } recording table⟩

end Vyakarana
