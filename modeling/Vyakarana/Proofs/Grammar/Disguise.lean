import Vyakarana.Proofs.Derivation.Disguise
import Vyakarana.Proofs.Grammar.FinalSandhi
import Vyakarana.Proofs.Grammar.TermRules
import Vyakarana.Proofs.Grammar.VowelSandhi

/-!
The grammar sees through no disguise.

All rules but the optional ones do the same to a derivation and to each disguise of it.
-/

namespace Vyakarana

namespace Stripping

variable (f : Option Int → Option Int) (s : Stripping)

def renumber : Stripping :=
  ⟨s.term.renumber f, s.steps.map fun (rule, t) => (rule, t.renumber f), s.fault⟩

theorem note_renumber (rule : Rule) : (s.renumber f).note rule = (s.note rule).renumber f := by
  simp [note, renumber]

theorem change_renumber {g : Term → Term} (hg : ∀ t, g (t.renumber f) = (g t).renumber f) :
    (s.renumber f).change g = (s.change g).renumber f := by
  simp [change, renumber, hg]

theorem dropIr_renumber (t : Term) : dropIr (t.renumber f) = (dropIr t).renumber f := by
  unfold dropIr
  rw [Term.text_renumber]
  repeat' split
  all_goals simp

theorem dropNasals_renumber (tags : List Tag) :
    (s.renumber f).dropNasals tags = (s.dropNasals tags).renumber f := by
  unfold dropNasals
  rw [change_renumber f s fun t => by simp, note_renumber]
  split <;> rfl

theorem readAccents_renumber : (s.renumber f).readAccents = s.readAccents.renumber f := by
  refine change_renumber f s fun t => ?_
  dsimp only
  rw [Term.text_renumber]
  repeat' split
  all_goals simp

theorem dropFinal_renumber (u : Text) :
    (s.renumber f).dropFinal u = (s.dropFinal u).renumber f := by
  unfold dropFinal
  simp only [note_renumber]
  rw [show (s.renumber f).term = s.term.renumber f from rfl]
  simp only [Term.hasTag_renumber, Term.antya?_renumber]
  repeat' split
  all_goals first
    | rfl
    | rw [change_renumber f s fun t => by simp, note_renumber]

theorem dropFirst_renumber (marker : Marker) (rule : Rule) :
    (s.renumber f).dropFirst marker rule = (s.dropFirst marker rule).renumber f := by
  unfold dropFirst
  rw [change_renumber f s fun t => by simp, note_renumber]

theorem dropRootInitial_renumber :
    (s.renumber f).dropRootInitial = s.dropRootInitial.renumber f := by
  unfold dropRootInitial
  rw [show (s.renumber f).term = s.term.renumber f from rfl]
  simp only [Term.hasTag_renumber, Term.text_renumber]
  repeat' split
  all_goals first
    | rfl
    | rw [change_renumber f s fun t => by simp, note_renumber]

theorem dropSuffixInitial_renumber (u : Text) :
    (s.renumber f).dropSuffixInitial u = (s.dropSuffixInitial u).renumber f := by
  unfold dropSuffixInitial
  rw [show (s.renumber f).term = s.term.renumber f from rfl]
  simp only [Term.hasTag_renumber, dropFirst_renumber]
  repeat' split
  all_goals rfl

theorem conclude_renumber (u : Text) :
    (s.renumber f).conclude u = (s.conclude u).renumber f := by
  unfold conclude
  rw [show (s.renumber f).term = s.term.renumber f from rfl,
    show (s.renumber f).fault = s.fault from rfl, Term.text_renumber, note_renumber]
  split <;> rfl

theorem run_renumber (t : Term) (u : Text) : run (t.renumber f) u = (run t u).renumber f := by
  unfold run
  dsimp only
  rw [dropIr_renumber, Term.text_renumber]
  split
  · rfl
  · rename_i tags _
    rw [show (⟨(dropIr t).renumber f, [], none⟩ : Stripping) =
      (⟨dropIr t, [], none⟩ : Stripping).renumber f from rfl, dropNasals_renumber,
      readAccents_renumber, dropFinal_renumber, Term.text_renumber]
    split <;> rw [dropRootInitial_renumber, dropSuffixInitial_renumber, conclude_renumber]

end Stripping

variable (φ : Disguise)

-- The root with the number that the disguise gives it.
def Root.disguised (root : Root) : Root := { root with number := φ.number root.number }

namespace Derivation

section Markers

variable (d : Derivation)

theorem replay_disguised (i : Int) (s : Stripping) :
    (d.disguised φ).replay i (s.renumber φ.number) = (d.replay i s).disguised φ := by
  unfold replay Stripping.renumber
  dsimp only
  rw [List.foldl_map, foldl_disguised (g := fun e x => (e.update i fun _ => x.2).record x.1),
    update_disguised_of φ _ (g := fun _ => s.term) fun _ => rfl]
  · cases s.fault <;> rfl
  · exact fun e x => by
      rw [update_disguised_of φ e (g := fun _ => x.2) fun _ => rfl, record_disguised]

@[simp] theorem dropMarkers_disguised (i : Int) :
    (d.disguised φ).dropMarkers i = (d.dropMarkers i).disguised φ := by
  unfold dropMarkers
  rw [term?_disguised]
  rcases d.term? i with _ | t
  · rfl
  · simp only [Option.map_some, Term.upadesha_renumber, Stripping.run_renumber]
    split
    · rfl
    · exact replay_disguised φ d i _

@[simp] theorem substitute_disguised (rule : Rule) (i : Int) (sub : Text) :
    (d.disguised φ).substitute rule i sub = (d.substitute rule i sub).disguised φ := by
  unfold substitute
  rw [term?_disguised, Option.isSome_map, update_disguised φ d (by simp), record_disguised,
    dropMarkers_disguised]
  split <;> rfl

@[simp] theorem augmentBefore_disguised (rule : Rule) (i : Int) (u : Text) :
    (d.disguised φ).augmentBefore rule i u = (d.augmentBefore rule i u).disguised φ := by
  rw [augmentBefore, insertBefore_disguised φ d rfl, record_disguised, dropMarkers_disguised,
    augmentBefore]

@[simp] theorem augmentAfter_disguised (rule : Rule) (i : Int) (u : Text) :
    (d.disguised φ).augmentAfter rule i u = (d.augmentAfter rule i u).disguised φ := by
  rw [augmentAfter, insertAfter_disguised φ d rfl, record_disguised, dropMarkers_disguised,
    augmentAfter]

theorem number_addTags (tags : List Tag) (t : Term) : (t.addTags tags).number = t.number := by
  induction tags generalizing t with
  | nil => rfl
  | cons tag rest ih => exact ih (t.addTag tag)

@[simp] theorem suffixAfter_disguised (rule : Rule) (i : Nat) (u : Text) (tags : List Tag) :
    (d.disguised φ).suffixAfter rule i u tags = (d.suffixAfter rule i u tags).disguised φ := by
  rw [suffixAfter, insertTerm_disguised φ d (number_addTags tags _), record_disguised,
    dropMarkers_disguised, suffixAfter]

end Markers

section Entry

variable (d : Derivation)

theorem replaceInitial_disguised (i : Int) :
    (d.disguised φ).replaceInitial i = (d.replaceInitial i).disguised φ := by
  unfold replaceInitial
  rw [term?_disguised]
  rcases d.term? i with _ | t
  · rfl
  · simp only [Option.map_some, Term.adi?_renumber, Term.hasTextIn_renumber,
      Term.startsWithAny_renumber]
    repeat' split
    all_goals simp

theorem nasalizeRoot_disguised (i : Int) :
    (d.disguised φ).nasalizeRoot i = (d.nasalizeRoot i).disguised φ :=
  congrArg Prod.snd (alterIf_disguised φ d (by simp) (fun _ => rfl) _ _)

theorem markAkusmiya_disguised (root : Root) :
    (d.disguised φ).markAkusmiya (root.disguised φ) = (d.markAkusmiya root).disguised φ := by
  unfold markAkusmiya
  rw [show (root.disguised φ).antargana = root.antargana from rfl]
  split
  · rw [addTag_pada_disguised, record_disguised]
  · rfl

theorem enterRoot_disguised (root : Root) :
    (d.disguised φ).enterRoot (root.disguised φ) = (d.enterRoot root).disguised φ := by
  have hroot : Term.ofRoot (root.disguised φ).upadesha (root.disguised φ).gana
      (root.disguised φ).number =
        (Term.ofRoot root.upadesha root.gana root.number).renumber φ.number := rfl
  unfold enterRoot
  dsimp only
  rw [terms_disguised, List.length_map, hroot, push_disguised, record_disguised,
    alter_disguised φ _ (by simp), dropMarkers_disguised]
  exact Outcome.map_disguised (fun e => by
    rw [replaceInitial_disguised, nasalizeRoot_disguised, markAkusmiya_disguised]) _

end Entry

section Suffixes

variable (d : Derivation)

theorem addRic_disguised : (d.disguised φ).addRic = d.addRic.disguised φ := by
  unfold addRic
  rw [lastTagged?_disguised]
  split
  · rfl
  · rw [has_disguised φ d fun _ => rfl, suffixAfter_disguised]
    split
    · exact Outcome.map_disguised (fun e => alter_disguised φ e (by simp) _ _) _
    · rfl

theorem addTag_ashih_disguised : (d.disguised φ).addTag .ashih = (d.addTag .ashih).disguised φ :=
  addTag_disguised φ d .ashih

theorem addLakara_disguised (lakara : Lakara) :
    (d.disguised φ).addLakara lakara = (d.addLakara lakara).disguised φ := by
  unfold addLakara
  rw [lastTagged?_disguised]
  split
  · rfl
  · dsimp only
    split
    · rw [addTag_ashih_disguised, suffixAfter_disguised]
    · rw [suffixAfter_disguised]

theorem markPada_disguised (pada : Pada) :
    (d.disguised φ).markPada pada = (d.markPada pada).disguised φ := by
  unfold markPada
  simp only [addTag_pada_disguised, lastTagged?_disguised]
  split
  · exact update_disguised φ _ (by simp) _
  · rfl

theorem markParasmaipada_disguised :
    (d.disguised φ).markParasmaipada = d.markParasmaipada.disguised φ := by
  rw [markParasmaipada, markPada_disguised, record_disguised, markParasmaipada]

theorem giveEnding_disguised (purusha : Purusha) (vacana : Vacana) :
    (d.disguised φ).giveEnding purusha vacana = (d.giveEnding purusha vacana).disguised φ := by
  unfold giveEnding
  rw [lastTagged?_disguised, hasTag_pada_disguised]
  split
  · rfl
  · dsimp only
    rw [update_disguised φ d (by simp), substitute_disguised]
    exact Outcome.map_disguised (fun e => update_disguised φ e (by simp) _) _

theorem classifySuffix_disguised (i : Nat) :
    (d.disguised φ).classifySuffix i = (d.classifySuffix i).disguised φ := by
  unfold classifySuffix
  rw [terms_disguised, List.getElem?_map]
  rcases d.terms[i]? with _ | t
  · rfl
  · simp only [Option.map_some, Term.hasTag_renumber, Term.hasTagIn_renumber,
      Term.isPerfectEnding_renumber]
    repeat' split
    all_goals simp

theorem classifySuffixes_disguised :
    (d.disguised φ).classifySuffixes = d.classifySuffixes.disguised φ :=
  forEach_disguised d (classifySuffix_disguised φ)

theorem extendMarker_disguised (i : Nat) :
    (d.disguised φ).extendMarker i = (d.extendMarker i).disguised φ := by
  unfold extendMarker
  rw [terms_disguised, List.getElem?_map, lastBefore?_disguised φ d fun _ => rfl]
  rcases d.terms[i]? with _ | t
  · rfl
  · simp only [Option.map_some, Term.hasTag_renumber, Term.isPerfectEnding_renumber,
      has_disguised φ d (fun t => t.isSamyoganta_renumber φ.number)]
    repeat' split
    all_goals simp

theorem extendMarkers_disguised :
    (d.disguised φ).extendMarkers = d.extendMarkers.disguised φ :=
  forEach_disguised d (extendMarker_disguised φ)

theorem fitWit_disguised (i : Nat) : (d.disguised φ).fitWit i = (d.fitWit i).disguised φ := by
  unfold fitWit
  rw [has_disguised φ d fun _ => rfl]
  split <;> simp

theorem fitPerfect_disguised (i : Nat) :
    (d.disguised φ).fitPerfect i = (d.fitPerfect i).disguised φ := by
  unfold fitPerfect
  rw [terms_disguised, List.getElem?_map]
  rcases d.terms[i]? with _ | ending
  · rfl
  · simp only [Option.map_some, Term.hasTag_renumber, Term.text_renumber, substitute_disguised,
      fitWit_disguised]
    split
    · split
      · exact Outcome.map_disguised (fun e => update_disguised φ e (by simp) _) _
      · rfl
    · split <;> rfl

theorem fitImperativeFinal_disguised (i : Nat) :
    (d.disguised φ).fitImperativeFinal i = (d.fitImperativeFinal i).disguised φ := by
  unfold fitImperativeFinal
  rw [terms_disguised, List.getElem?_map]
  rcases d.terms[i]? with _ | ending
  · rfl
  · simp only [Option.map_some, Term.hasTag_renumber, Term.text_renumber,
      Term.hasText_renumber, Term.antya?_renumber]
    repeat' split
    all_goals simp

theorem fitNit_disguised (i : Nat) (keepsI : Bool) :
    (d.disguised φ).fitNit i keepsI = (d.fitNit i keepsI).disguised φ := by
  unfold fitNit
  rw [terms_disguised, List.getElem?_map, Option.bind_map]
  simp only [Function.comp_def, Term.text_renumber]
  split
  all_goals simp only [alter_disguised, has_disguised, Term.setText_renumber, Term.hasTag_renumber,
    Term.antya?_renumber, implies_true]
  all_goals repeat' split
  all_goals simp_all

theorem fitImperative_disguised (i : Nat) :
    (d.disguised φ).fitImperative i = (d.fitImperative i).disguised φ := by
  unfold fitImperative
  dsimp only
  rw [fitImperativeFinal_disguised, has_disguised φ _ fun _ => rfl,
    update_disguised φ _ (by simp), augmentBefore_disguised, fitNit_disguised]
  split
  · exact Outcome.map_disguised (fun e => fitNit_disguised φ e _ _) _
  · rfl

theorem fitEnding_disguised (lakara : Lakara) :
    (d.disguised φ).fitEnding lakara = (d.fitEnding lakara).disguised φ := by
  unfold fitEnding
  rw [lastTagged?_disguised]
  split
  · rfl
  · rename_i i _
    have hfitted : (if (d.disguised φ).has i (·.hasTag (.pada .atmanepada)) && lakara.isWit then
          (d.disguised φ).fitWit i else .done (d.disguised φ)) =
        (if d.has i (·.hasTag (.pada .atmanepada)) && lakara.isWit then d.fitWit i
          else .done d).disguised φ := by
      rw [has_disguised φ d fun _ => rfl, fitWit_disguised]
      split <;> rfl
    dsimp only
    rw [hfitted]
    by_cases hlit : lakara = .lit
    · rw [if_pos hlit, if_pos hlit, fitPerfect_disguised]
    · rw [if_neg hlit, if_neg hlit]
      by_cases hlot : lakara = .lot
      · rw [if_pos hlot, if_pos hlot]
        exact Outcome.andThen_disguised (fun e => fitImperative_disguised φ e i) _
      · rw [if_neg hlot, if_neg hlot]
        by_cases hnit : lakara.isNit = true
        · rw [if_pos hnit, if_pos hnit]
          exact Outcome.map_disguised (fun e => fitNit_disguised φ e i false) _
        · rw [if_neg hnit, if_neg hnit]

theorem addStemSuffix_disguised (rule : Rule) (u : Text) :
    (d.disguised φ).addStemSuffix rule u = (d.addStemSuffix rule u).disguised φ := by
  unfold addStemSuffix
  rw [lastTagged?_disguised]
  split <;> simp

theorem addAuxiliary_disguised (i : Nat) :
    (d.disguised φ).addAuxiliary i = (d.addAuxiliary i).disguised φ := by
  unfold addAuxiliary
  rw [lastTagged?_disguised]
  split
  · rfl
  · rw [terms_disguised, List.getElem?_map, Option.bind_map]
    simp only [Function.comp_def, Term.amRule?_renumber]
    split
    · rfl
    · rw [insertTerm_disguised φ d rfl, record_disguised, insertTerm_disguised φ _ rfl,
        record_disguised]

@[simp] theorem firstRootGana?_disguised : (d.disguised φ).firstRootGana? = d.firstRootGana? := by
  unfold firstRootGana?
  rw [firstTagged?_disguised, terms_disguised]
  rcases d.firstTagged? .dhatu with _ | i
  · rfl
  · rw [Option.bind_some, Option.bind_some, List.getElem?_map, Option.bind_map]
    rfl

theorem addVikarana_disguised : (d.disguised φ).addVikarana = d.addVikarana.disguised φ := by
  unfold addVikarana
  rw [lastTagged?_disguised]
  split
  · rfl
  · rw [has_disguised φ d fun _ => rfl, has_disguised φ d fun _ => rfl,
      has_disguised φ d fun _ => rfl, hasTagIn_passive_disguised, firstRootGana?_disguised,
      addAuxiliary_disguised]
    repeat' split
    all_goals first
      | rfl
      | exact addStemSuffix_disguised φ d _ _

theorem addSuffixes_disguised (form : VerbForm) {form' : VerbForm}
    (h : form' = { form with prayoga := form'.prayoga }) :
    (d.disguised φ).addSuffixes form' = (d.addSuffixes form).disguised φ := by
  unfold addSuffixes
  rw [h]
  simp only [giveEnding_disguised, Outcome.map_disguised (classifySuffixes_disguised φ),
    Outcome.andThen_disguised (fitEnding_disguised φ · _),
    Outcome.andThen_disguised (addVikarana_disguised φ)]
  split <;> rfl

end Suffixes

section Stem

variable (d : Derivation)

@[simp] theorem isPerfect_disguised : (d.disguised φ).isPerfect = d.isPerfect := by
  unfold isPerfect
  rw [lastTagged?_disguised]
  split
  · exact has_disguised φ d (fun _ => rfl) _
  · rfl

theorem reduplicate_disguised : (d.disguised φ).reduplicate = d.reduplicate.disguised φ := by
  unfold reduplicate
  rw [lastTagged?_disguised, isPerfect_disguised]
  split
  · rfl
  · rename_i i _
    rw [terms_disguised, List.getElem?_map]
    rcases d.terms[i]? with _ | root
    · rfl
    · simp only [Option.map_some, Term.hasTag_renumber, Term.text_renumber, Term.gana_renumber]
      split
      · rfl
      · rw [insertTerm_disguised φ d rfl, record_disguised, alter_disguised φ _ (by simp),
          update_disguised φ _ (by simp), update_disguised φ _ (by simp), record_disguised]

theorem dropConsonants_disguised (i : Nat) :
    (d.disguised φ).dropConsonants i = (d.dropConsonants i).disguised φ := by
  unfold dropConsonants
  rw [terms_disguised, List.getElem?_map]
  rcases d.terms[i]? with _ | copy
  · rfl
  · simp only [Option.map_some, Term.hasAdi_renumber, Term.sound?_renumber, Term.adi?_renumber,
      Term.text_renumber]
    repeat' split
    all_goals simp

theorem palatalize_disguised (i : Nat) :
    (d.disguised φ).palatalize i = (d.palatalize i).disguised φ := by
  unfold palatalize
  rw [terms_disguised, List.getElem?_map, Option.bind_map, table_disguised]
  simp only [Function.comp_def, Term.adi?_renumber]
  repeat' split
  all_goals simp

theorem shortenVowel_disguised (i : Nat) :
    (d.disguised φ).shortenVowel i = (d.shortenVowel i).disguised φ := by
  unfold shortenVowel
  rw [terms_disguised, List.getElem?_map, Option.bind_map]
  simp only [Function.comp_def, Term.text_renumber]
  repeat' split
  all_goals simp

theorem replaceF_disguised (i : Nat) :
    (d.disguised φ).replaceF i = (d.replaceF i).disguised φ := by
  unfold replaceF
  rw [has_disguised φ d fun _ => rfl]
  split <;> simp

theorem fitPerfectVowel_disguised (i : Nat) :
    (d.disguised φ).fitPerfectVowel i = (d.fitPerfectVowel i).disguised φ := by
  have hlong : (if (d.disguised φ).has i (·.adi? == some 'a') then
        (d.disguised φ).alter "7.4.70" i (·.setAdi ['A']) else d.disguised φ) =
      (if d.has i (·.adi? == some 'a') then
        d.alter "7.4.70" i (·.setAdi ['A']) else d).disguised φ := by
    rw [has_disguised φ d fun _ => rfl, alter_disguised φ d (by simp)]
    split <;> rfl
  unfold fitPerfectVowel
  dsimp only
  rw [hlong]
  generalize (if d.has i (·.adi? == some 'a') then d.alter "7.4.70" i (·.setAdi ['A']) else d) = e
  rw [nextAfter?_disguised φ e fun _ => rfl]
  split
  · rfl
  · rw [has_disguised φ e fun _ => rfl, alter_disguised φ e (by simp)]
    split <;> rfl

theorem reduceCopy_disguised : (d.disguised φ).reduceCopy = d.reduceCopy.disguised φ := by
  unfold reduceCopy
  rw [firstTagged?_disguised]
  split
  · rfl
  · rw [dropConsonants_disguised, palatalize_disguised]
    refine Outcome.map_disguised (fun e => ?_) _
    dsimp only
    rw [shortenVowel_disguised, replaceF_disguised, isPerfect_disguised,
      fitPerfectVowel_disguised]
    split <;> rfl

@[simp] theorem suffix?_disguised (i : Nat) :
    (d.disguised φ).suffix? i = (d.suffix? i).map (·.renumber φ.number) :=
  view?_disguised φ d _

@[simp] theorem lastRoot?_disguised (u : Text) : (d.disguised φ).lastRoot? u = d.lastRoot? u :=
  findLast?_disguised φ d fun _ => rfl

theorem replaceJ_disguised : (d.disguised φ).replaceJ = d.replaceJ.disguised φ := by
  unfold replaceJ
  rw [lastTagged?_disguised]
  split
  · rfl
  · rw [has_disguised φ d fun _ => rfl, alter_disguised φ d (by simp)]
    split <;> rfl

theorem lastEnding?_disguised :
    (d.disguised φ).lastEnding? = d.lastEnding?.map (·.renumber φ.number) := by
  unfold lastEnding?
  rw [lastTagged?_disguised, terms_disguised]
  rcases d.lastTagged? .tin with _ | i
  · rfl
  · simp

theorem augmentPast_disguised : (d.disguised φ).augmentPast = d.augmentPast.disguised φ := by
  unfold augmentPast
  rw [lastEnding?_disguised, firstTagged?_disguised, Option.any_map]
  simp only [Term.hasLakshanaIn_renumber]
  split
  · split
    · rfl
    · rw [has_disguised φ d fun _ => rfl]
      split <;> simp
  · rfl

theorem augmentBhu_disguised : (d.disguised φ).augmentBhu = d.augmentBhu.disguised φ := by
  unfold augmentBhu
  rw [lastRoot?_disguised]
  split
  · rfl
  · rename_i i _
    rw [suffix?_disguised]
    rcases d.suffix? i with _ | suffix
    · rfl
    · simp only [Option.map_some, View.adi?_renumber, View.hasLakshanaIn_renumber,
        augmentAfter_disguised]
      split
      · exact Outcome.map_disguised (fun e => update_disguised φ e (by simp) _) _
      · rfl

theorem dropFinalA_disguised (i : Nat) :
    (d.disguised φ).dropFinalA i = (d.dropFinalA i).disguised φ := by
  unfold dropFinalA
  rw [has_disguised φ d fun _ => rfl, suffix?_disguised, Option.any_map,
    alter_disguised φ d (by simp)]
  simp only [View.hasTag_renumber]
  repeat' split
  all_goals rfl

theorem dropRic_disguised : (d.disguised φ).dropRic = d.dropRic.disguised φ := by
  unfold dropRic
  rw [lastRoot?_disguised]
  split
  · rfl
  · rename_i i _
    rw [suffix?_disguised]
    rcases d.suffix? i with _ | suffix
    · rfl
    · simp only [Option.map_some, View.hasTag_renumber, View.isTaught_renumber]
      repeat' split
      all_goals simp

theorem prepareStem_disguised : (d.disguised φ).prepareStem = d.prepareStem.disguised φ := by
  unfold prepareStem
  rw [replaceJ_disguised, augmentPast_disguised,
    Outcome.andThen_disguised (augmentBhu_disguised φ)]
  exact Outcome.map_disguised (fun e => by
    rw [forEach_disguised e (dropFinalA_disguised φ), dropRic_disguised]) _

end Stem

end Derivation

section Strengthening

variable (f : Option Int → Option Int)

theorem Term.strengthening?_renumber (root : Term) (suffix : View) :
    (root.renumber f).strengthening? (suffix.renumber f) = root.strengthening? suffix := by
  unfold Term.strengthening?
  rw [View.hasTagIn_renumber, Term.isTaught_renumber, View.hasTag_renumber, View.isKnit_renumber,
    View.last_renumber, Term.hasTagIn_renumber]
  rfl

theorem Term.change_renumber_of_strengthening? {root : Term} {suffix : View} {rule : Rule}
    {change : Term → Term} (h : root.strengthening? suffix = some (rule, change)) (t : Term) :
    change (t.renumber f) = (change t).renumber f := by
  obtain ⟨s, rfl | rfl⟩ := (Term.strengthens_of_strengthening? h).setsVowel
  · exact Term.setAntya_renumber f t s
  · exact Term.setUpadha_renumber f t s

end Strengthening

namespace Derivation

section Contact

variable (d : Derivation)

theorem strengthenAt_disguised (i : Nat) :
    (d.disguised φ).strengthenAt i = (d.strengthenAt i).disguised φ := by
  unfold strengthenAt
  rw [terms_disguised, List.getElem?_map, suffix?_disguised]
  rcases d.terms[i]? with _ | root
  · rfl
  rcases d.suffix? i with _ | suffix
  · rfl
  simp only [Option.map_some, Term.hasTag_renumber, Term.strengthening?_renumber]
  split
  · rfl
  · split
    · rename_i hchange
      exact alter_disguised φ d (Term.change_renumber_of_strengthening? φ.number hchange) _ _
    · rfl

theorem contractPerfect_disguised :
    (d.disguised φ).contractPerfect = d.contractPerfect.disguised φ := by
  unfold contractPerfect
  rw [firstTagged?_disguised]
  split
  · rfl
  · rename_i i _
    dsimp only
    rw [terms_disguised, List.getElem?_map, List.getElem?_map, suffix?_disguised,
      update_disguised φ d (by simp), update_disguised φ _ (by simp), record_disguised,
      record_disguised]
    rcases d.terms[i]? with _ | copy
    · rfl
    rcases d.terms[i + 1]? with _ | root
    · rfl
    rcases d.suffix? (i + 1) with _ | suffix
    · rfl
    simp only [Option.map_some, View.hasLakshana_renumber, Term.text_renumber, Term.adi?_renumber,
      View.isKnit_renumber, View.isTaught_renumber, View.last_renumber, Term.isTaught_renumber]
    repeat' split
    all_goals rfl

theorem softenFinal_disguised (i : Nat) :
    (d.disguised φ).softenFinal i = (d.softenFinal i).disguised φ := by
  unfold softenFinal
  rw [terms_disguised, List.getElem?_map, suffix?_disguised, Option.any_map,
    has_disguised φ d fun _ => rfl]
  rcases d.terms[i]? with _ | root
  · rfl
  simp only [Option.map_some, Term.hasTag_renumber, View.adi?_renumber, Term.isAnekaAc_renumber,
    Term.antya?_renumber, Term.text_renumber]
  repeat' split
  all_goals simp

@[simp] theorem followsA_disguised (i : Nat) : (d.disguised φ).followsA i = d.followsA i := by
  unfold followsA
  rw [lastBefore?_disguised φ d fun _ => rfl]
  split
  · exact has_disguised φ d (fun _ => rfl) _
  · rfl

theorem dropHi_disguised : (d.disguised φ).dropHi = d.dropHi.disguised φ := by
  unfold dropHi
  rw [lastTagged?_disguised]
  split
  · rfl
  · rw [has_disguised φ d fun _ => rfl, followsA_disguised, alter_disguised φ d (by simp)]
    split <;> rfl

theorem replaceEndingA_disguised :
    (d.disguised φ).replaceEndingA = d.replaceEndingA.disguised φ := by
  unfold replaceEndingA
  rw [lastTagged?_disguised]
  split
  · rfl
  · rw [has_disguised φ d fun _ => rfl, followsA_disguised, alter_disguised φ d (by simp)]
    split <;> rfl

theorem lengthenFinalA_disguised (i : Nat) :
    (d.disguised φ).lengthenFinalA i = (d.lengthenFinalA i).disguised φ := by
  unfold lengthenFinalA
  rw [has_disguised φ d fun _ => rfl, suffix?_disguised, Option.any_map,
    alter_disguised φ d (by simp)]
  simp only [View.hasTag_renumber, View.hasAdi_renumber]
  repeat' split
  all_goals rfl

theorem joinStem_disguised : (d.disguised φ).joinStem = d.joinStem.disguised φ := by
  unfold joinStem
  rw [contractPerfect_disguised, forEach_disguised _ (softenFinal_disguised φ), dropHi_disguised,
    replaceEndingA_disguised, forEach_disguised _ (lengthenFinalA_disguised φ)]

end Contact

end Derivation

section Sandhi

namespace SoundRule

theorem impartial_replace (rule : Rule) {applies : Site → Bool} {sub : Site → Text}
    (happlies : ∀ s, applies (s.disguised φ) = applies s)
    (hsub : ∀ s, sub (s.disguised φ) = sub s) :
    (recorded rule applies fun s => s.replace (sub s)).Impartial φ :=
  impartial_recorded happlies fun s => by rw [hsub, Site.replace_disguised]

theorem impartial_forPair (rule : Rule) (applies : Char → Char → Bool)
    {change : Site → Char → Char → Derivation}
    (hchange : ∀ s x y, change (s.disguised φ) x y = (change s x y).disguised φ) :
    (forPair rule applies change).Impartial φ where
  applies _ := rfl
  act s := by
    simp only [forPair, Site.here?_disguised, Site.next?_disguised]
    split
    · rw [hchange, Derivation.record_disguised]
    · rfl

theorem impartial_mergeAfterA : mergeAfterA.Impartial φ where
  applies _ := rfl
  act s := by
    simp only [mergeAfterA, Site.mergeGrade, Site.next?_disguised, Site.merge_disguised]
    split <;> rw [Derivation.record_disguised]

theorem impartial_of_mem_vowelRules {r : SoundRule} (h : r ∈ vowelRules) : r.Impartial φ := by
  simp only [vowelRules, List.mem_cons, List.not_mem_nil, or_false] at h
  rcases h with rfl | rfl | rfl | rfl | rfl | rfl | rfl
  · exact impartial_recorded (fun s => by simp [Option.any_map]) fun s => s.merge_disguised φ _
  · exact impartial_replace φ _ (fun s => by simp [Option.any_map]) fun s => rfl
  · exact impartial_replace φ _ (fun s => by simp) fun s => rfl
  · exact impartial_forPair φ _ _ fun s _ _ => s.replace_disguised φ _
  · exact impartial_forPair φ _ _ fun s _ _ => s.merge_disguised φ _
  · exact impartial_forPair φ _ _ fun s _ _ => s.replace_disguised φ _
  · exact impartial_mergeAfterA φ

theorem impartial_assimilate (rule : Rule) (group : SoundClass) (blocked : Char → Char → Bool)
    (nearest : SoundMap) : (assimilate rule group blocked nearest).Impartial φ where
  applies _ := rfl
  act s := by
    simp only [assimilate, Site.here?_disguised, Site.next?_disguised, Site.replace_disguised,
      Site.replaceNext_disguised, Derivation.record_disguised]
    split
    · split <;> rfl
    · rfl

end SoundRule

theorem ConsonantPass.impartial {p : ConsonantPass} {T : FeatureTable} {r : SoundRule}
    (h : p.rule T = .ok r) : r.Impartial φ := by
  cases makes_of_rule h with
  | throat | anusvara | soft | hard | nasal =>
      exact SoundRule.impartial_replace φ _ (fun s => rfl) fun s => rfl
  | suffixS =>
      exact SoundRule.impartial_replace φ _ (fun s => by simp [Option.any_map]) fun s => rfl
  | palatal | retroflex => exact SoundRule.impartial_assimilate φ _ _ _ _

namespace Derivation

variable (d : Derivation)

theorem joinVowels_disguised : (d.disguised φ).joinVowels = d.joinVowels.disguised φ := by
  have hfold : ∀ (rules : List SoundRule), (∀ r ∈ rules, r.Impartial φ) → ∀ o : Outcome,
      rules.foldl (fun o r => o.andThen fun d => d.sweep r d.changeBound) (o.disguised φ) =
        (rules.foldl (fun o r => o.andThen fun d => d.sweep r d.changeBound) o).disguised φ := by
    intro rules
    induction rules with
    | nil => exact fun _ o => rfl
    | cons r rest ih =>
        intro hrules o
        obtain ⟨hr, hrest⟩ := List.forall_mem_cons.mp hrules
        rw [List.foldl_cons, List.foldl_cons, Outcome.andThen_disguised (fun e => ?_), ih hrest]
        rw [changeBound, text_disguised, hr.sweep, changeBound]
  exact hfold _ (fun r hr => SoundRule.impartial_of_mem_vowelRules φ hr) (.done d)

theorem pass_disguised (p : ConsonantPass) :
    (d.disguised φ).pass p = (d.pass p).disguised φ := by
  unfold pass
  rw [table_disguised]
  split
  · rename_i r hr
    rw [sweepSounds, text_disguised, (p.impartial φ hr).sweep, sweepSounds]
  · rfl

@[simp] theorem lastHeard?_disguised : (d.disguised φ).lastHeard? = d.lastHeard? :=
  findLast?_disguised φ d fun _ => rfl

theorem dropFinalOfCluster_disguised :
    (d.disguised φ).dropFinalOfCluster = d.dropFinalOfCluster.disguised φ := by
  unfold dropFinalOfCluster
  rw [lastHeard?_disguised, text_disguised]
  repeat' split
  all_goals simp

theorem replaceFinal_disguised (rule : Rule) (final sub : Char) :
    (d.disguised φ).replaceFinal rule final sub = (d.replaceFinal rule final sub).disguised φ := by
  unfold replaceFinal
  rw [lastHeard?_disguised]
  split
  · rw [has_disguised φ d fun _ => rfl, alter_disguised φ d (by simp)]
    split <;> rfl
  · rfl

theorem lengthenBeforeRv_disguised (i : Nat) :
    (d.disguised φ).lengthenBeforeRv i = (d.lengthenBeforeRv i).disguised φ := by
  unfold lengthenBeforeRv
  rw [terms_disguised, List.getElem?_map, nextAfter?_disguised φ d fun _ => rfl]
  rcases d.terms[i]? with _ | root
  · rfl
  simp only [Option.map_some, Term.hasTag_renumber, Term.antya?_renumber, Term.upadha?_renumber]
  split
  · rfl
  split
  · rfl
  split
  · rfl
  split
  · rfl
  · rw [has_disguised φ d fun _ => rfl, alter_disguised φ d (by simp)]
    split <;> rfl

theorem finishWord_disguised : (d.disguised φ).finishWord = d.finishWord.disguised φ := by
  rw [finishWord, replaceFinal_disguised, forEach_disguised _ (lengthenBeforeRv_disguised φ),
    replaceFinal_disguised, finishWord]

theorem deaspirateCopy_disguised :
    (d.disguised φ).deaspirateCopy = d.deaspirateCopy.disguised φ := by
  unfold deaspirateCopy withNearest
  rw [firstTagged?_disguised, table_disguised]
  split
  · rfl
  rename_i i _
  rw [terms_disguised, List.getElem?_map, Option.bind_map]
  simp only [Function.comp_def, Term.adi?_renumber]
  repeat' split
  all_goals simp_all

end Derivation

end Sandhi

end Vyakarana
