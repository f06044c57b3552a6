import Vyakarana.Proofs.Derivation.Trace
import Vyakarana.Proofs.Grammar.Conjugation
import Vyakarana.Proofs.Grammar.StemRules
import Vyakarana.Proofs.Grammar.Stripping
import Vyakarana.Proofs.Grammar.SuffixRules

/-!
The trace of a verb form is faithful.

Every rule of the grammar records its step right after the last change that can be heard, so that
each of them accounts for what becomes of the text, and so does the whole derivation. Where it
matters which steps a trace can have, the rules that are recorded in one place only are told apart
from all others: the guna grades of the stem and the contractions of the perfect.
-/

namespace Vyakarana

-- Recorded where a suffix strengthens the stem.
@[simp] def isGuna (rule : Rule) : Bool := rule == "7.3.84" || rule == "7.3.86"

-- Recorded where the root loses its copy.
@[simp] def isContraction (rule : Rule) : Bool := rule == "6.4.120" || rule == "6.4.121"

@[simp] def isPlain (rule : Rule) : Bool := !isGuna rule && !isContraction rule

theorem not_isContraction_of_isPlain (rule : Rule) (h : isPlain rule = true) :
    (!isContraction rule) = true :=
  ((Bool.and_eq_true _ _).mp h).2

-- The rules that drop markers are 1.3.2 to 1.3.9.
namespace Stripping

def NotesPlain (s : Stripping) : Prop := ∀ x ∈ s.steps, isPlain x.1 = true

variable {s : Stripping}

theorem NotesPlain.note (h : s.NotesPlain) {rule : Rule} (hrule : isPlain rule = true) :
    (s.note rule).NotesPlain :=
  List.forall_mem_append.mpr ⟨h, List.forall_mem_singleton.mpr hrule⟩

theorem NotesPlain.change (h : s.NotesPlain) (f : Term → Term) : (s.change f).NotesPlain := h

theorem NotesPlain.fail (h : s.NotesPlain) (fault : Fault) : (s.fail fault).NotesPlain := h

theorem NotesPlain.dropNasals (h : s.NotesPlain) (tags : List Tag) :
    (s.dropNasals tags).NotesPlain := by
  unfold Stripping.dropNasals
  split
  · exact h
  · exact (h.change _).note rfl

theorem NotesPlain.dropFinal (h : s.NotesPlain) (u : Text) : (s.dropFinal u).NotesPlain := by
  unfold Stripping.dropFinal
  repeat' split
  all_goals first
    | exact h
    | exact h.note rfl
    | exact (h.change _).note rfl

theorem NotesPlain.dropRootInitial (h : s.NotesPlain) : s.dropRootInitial.NotesPlain := by
  unfold Stripping.dropRootInitial
  repeat' split
  all_goals first
    | exact h
    | exact (h.change _).note rfl

theorem NotesPlain.dropSuffixInitial (h : s.NotesPlain) (u : Text) :
    (s.dropSuffixInitial u).NotesPlain := by
  unfold Stripping.dropSuffixInitial
  repeat' split
  all_goals first
    | exact h
    | exact h.fail _
    | exact (h.change _).note rfl

theorem NotesPlain.conclude (h : s.NotesPlain) (u : Text) : (s.conclude u).NotesPlain := by
  unfold Stripping.conclude
  split
  · exact h.note rfl
  · exact h

theorem notesPlain_run (t : Term) (u : Text) : (run t u).NotesPlain := by
  have hstart : NotesPlain ⟨dropIr t, [], none⟩ := by simp [NotesPlain]
  unfold run
  dsimp only
  split
  · exact hstart.fail _
  · rename_i tags _
    have hread : ((dropNasals tags ⟨dropIr t, [], none⟩).readAccents).NotesPlain :=
      (hstart.dropNasals tags).change _
    refine NotesPlain.conclude ?_ u
    split
    · exact hread.dropRootInitial.dropSuffixInitial u
    · exact (hread.dropFinal u).dropRootInitial.dropSuffixInitial u

end Stripping

namespace Derivation

variable {rule : Rule}

theorem term?_update_same (i : Int) (f : Term → Term) (d : Derivation) :
    (d.update i f).term? i = (d.term? i).map f := by
  unfold update
  split
  · rename_i n hn
    rw [term?, hn, Option.bind_some, term?, hn, Option.bind_some]
    exact List.getElem?_modify_eq f n d.terms
  · rename_i hn
    rw [term?, hn]
    rfl

theorem recountsBy_replay_steps (i : Int) {steps : List (Rule × Term)}
    (h : ∀ x ∈ steps, isPlain x.1 = true) (d : Derivation) :
    (steps.foldl (fun d (rule, t) => (d.update i fun _ => t).record rule) d).RecountsBy
      isPlain d := by
  induction steps generalizing d with
  | nil => exact recountsBy_self _ d
  | cons x rest ih =>
      rw [List.forall_mem_cons] at h
      exact (ih h.2 _).trans (recountsBy_record_of_trace h.1 (trace_update i (fun _ => x.2) d))

-- The last step of the stripping has its text, and if there is none the text is the same.
theorem recountsBy_replay {i : Int} {s : Stripping} {t : Term} {d : Derivation}
    (ht : d.term? i = some t) (hplain : s.NotesPlain)
    (htells : s.fault = none → s.steps = [] ∧ s.term.text = t.text ∨
      ∃ steps x, s.steps = steps ++ [x] ∧ x.2.text = s.term.text) :
    (d.replay i s).RecountsBy isPlain d := by
  unfold replay
  dsimp only
  split
  · rename_i hnone
    rcases htells hnone with ⟨hnil, htext⟩ | ⟨steps, x, hsteps, htext⟩
    · rw [hnil, List.foldl_nil]
      refine recountsBy_of_trace (trace_update _ _ d) (text_update fun t' ht' => ?_)
      cases ht.symm.trans ht'
      exact htext
    · unfold Stripping.NotesPlain at hplain
      rw [hsteps, List.forall_mem_append, List.forall_mem_singleton] at hplain
      rw [hsteps, List.foldl_append, List.foldl_cons, List.foldl_nil]
      have hbefore := recountsBy_replay_steps i hplain.1 d
      generalize steps.foldl _ d = e at hbefore ⊢
      have hlast := recountsBy_record_of_trace hplain.2 (trace_update i (fun _ => x.2) e)
      refine (recountsBy_of_trace (trace_update _ _ _) (text_update fun t' ht' => ?_)).trans
        (hlast.trans hbefore)
      rw [term?_record, term?_update_same] at ht'
      obtain ⟨_, -, rfl⟩ := Option.map_eq_some_iff.mp ht'
      exact htext.symm
  · trivial

-- A term that is still as it was taught loses its markers.
theorem recountsBy_dropMarkers {i : Int} {d : Derivation}
    (h : ∀ t, d.term? i = some t → ∀ u, t.upadesha = some u → t.text = u) :
    (d.dropMarkers i).RecountsBy isPlain d := by
  unfold dropMarkers
  split
  · exact recountsBy_self _ d
  · rename_i t ht
    split
    · exact recountsBy_self _ d
    · rename_i u hu
      exact recountsBy_replay ht (Stripping.notesPlain_run t u) (Stripping.run_tells (h t ht u hu))

theorem recountsBy_insertTerm (h : isPlain rule = true) {t : Term}
    (ht : ∀ u, t.upadesha = some u → t.text = u) (n : Nat) (d : Derivation) :
    (((d.insertTerm n t).record rule).dropMarkers (n : Int)).RecountsBy isPlain d := by
  have hinsert := recountsBy_record_of_trace h (trace_insertTerm n t d)
  refine (recountsBy_dropMarkers fun t' h => ?_).trans hinsert
  rw [term?_record] at h
  rw [term?_insertTerm h]
  exact ht

theorem taught_ofAgama (u : Text) : ∀ u', (Term.ofAgama u).upadesha = some u' →
    (Term.ofAgama u).text = u' := by
  intro u' h
  cases h
  rfl

theorem recountsBy_augmentBefore (h : isPlain rule = true) (i : Nat) (u : Text) (d : Derivation) :
    (d.augmentBefore rule i u).RecountsBy isPlain d :=
  recountsBy_insertTerm h (taught_ofAgama u) i d

theorem recountsBy_augmentAfter (h : isPlain rule = true) (i : Nat) (u : Text) (d : Derivation) :
    (d.augmentAfter rule i u).RecountsBy isPlain d :=
  recountsBy_insertTerm h (taught_ofAgama u) (i + 1) d

theorem recountsBy_suffixAfter (h : isPlain rule = true) (i : Nat) (u : Text) (tags : List Tag)
    (d : Derivation) : (d.suffixAfter rule i u tags).RecountsBy isPlain d := by
  refine recountsBy_insertTerm h (fun u' h => ?_) (i + 1) d
  rw [Term.upadesha_addTags] at h
  cases h
  rw [Term.text_addTags]
  rfl

theorem recountsBy_substitute (h : isPlain rule = true) (i : Int) (sub : Text) (d : Derivation) :
    (d.substitute rule i sub).RecountsBy isPlain d := by
  unfold substitute
  split
  · refine Outcome.RecountsBy.trans (recountsBy_dropMarkers fun t h u hu => ?_)
      (recountsBy_record_of_trace h (trace_update i (·.setUpadesha sub) d))
    rw [term?_record, term?_update_same] at h
    obtain ⟨t', -, rfl⟩ := Option.map_eq_some_iff.mp h
    cases hu
    rfl
  · exact recountsBy_self _ d

section Entry

-- The root as it was taught, at the end of the row.
def rootStarted (root : Root) (d : Derivation) : Derivation :=
  (d.push (.ofRoot root.upadesha root.gana root.number)).record "start"

theorem recountsBy_rootStarted (root : Root) (d : Derivation) :
    (d.rootStarted root).RecountsBy isPlain d :=
  recountsBy_record_of_trace rfl (trace_push _ d)

theorem recountsBy_replaceInitial (i : Int) (d : Derivation) :
    (d.replaceInitial i).RecountsBy isPlain d := by
  unfold replaceInitial
  split
  · exact recountsBy_self _ d
  · split
    · split
      · exact recountsBy_record rfl d
      · split <;> exact recountsBy_alter rfl _ _ d
    · split
      · exact recountsBy_alter rfl _ _ d
      · exact recountsBy_self _ d

theorem recountsBy_markAkusmiya (root : Root) (d : Derivation) :
    (d.markAkusmiya root).RecountsBy isPlain d := by
  unfold markAkusmiya
  split
  · exact recountsBy_record_of_trace rfl (trace_addTag _ d)
  · exact recountsBy_self _ d

theorem recountsBy_enterRoot_started (root : Root) (d : Derivation) :
    (d.enterRoot root).RecountsBy isPlain (d.rootStarted root) := by
  have htaught : (d.rootStarted root).alter "1.3.1" (d.terms.length : Int) (·.addTag .dhatu) =
      d.pushRoot root := rfl
  have hdrop : ((d.pushRoot root).dropMarkers (d.terms.length : Int)).RecountsBy isPlain
      (d.pushRoot root) := by
    refine recountsBy_dropMarkers fun t ht u hu => ?_
    cases (term?_pushRoot root d).symm.trans ht
    cases hu
    rfl
  have hpush : (d.pushRoot root).RecountsBy isPlain (d.rootStarted root) := by
    rw [← htaught]
    exact recountsBy_alter rfl _ _ _
  refine (hdrop.trans hpush).map _ fun e => ?_
  exact (recountsBy_markAkusmiya root _).trans
    ((recountsBy_alterIf rfl _ _ _ _).trans (recountsBy_replaceInitial _ e))

theorem recountsBy_enterRoot (root : Root) (d : Derivation) :
    (d.enterRoot root).RecountsBy isPlain d :=
  (recountsBy_enterRoot_started root d).trans (recountsBy_rootStarted root d)

end Entry

section Suffixes

theorem recountsBy_addRic (d : Derivation) : d.addRic.RecountsBy isPlain d := by
  unfold addRic
  split
  · exact recountsBy_self _ d
  · split
    · exact (recountsBy_suffixAfter rfl _ _ _ d).map _ fun e => recountsBy_alter rfl _ _ e
    · exact recountsBy_self _ d

theorem recountsBy_addLakara (lakara : Lakara) (d : Derivation) :
    (d.addLakara lakara).RecountsBy isPlain d := by
  have hrule : isPlain lakara.rule = true := by cases lakara <;> decide
  unfold addLakara
  split
  · exact recountsBy_self _ d
  · dsimp only
    refine (recountsBy_suffixAfter hrule _ _ _ _).trans ?_
    split
    · exact recountsBy_of_trace rfl rfl
    · exact recountsBy_self _ d

theorem trace_markPada (pada : Pada) (d : Derivation) : (d.markPada pada).trace = d.trace := by
  unfold markPada
  dsimp only
  split <;> simp

theorem recountsBy_markPada (pada : Pada) (d : Derivation) :
    (d.markPada pada).RecountsBy isPlain d := by
  refine recountsBy_of_trace (trace_markPada pada d) ?_
  unfold markPada
  dsimp only
  split
  · exact text_update fun t _ => rfl
  · rfl

theorem recountsBy_markParasmaipada (d : Derivation) : d.markParasmaipada.RecountsBy isPlain d :=
  recountsBy_record_of_trace rfl (trace_markPada _ d)

theorem recountsBy_optionalPada (h : isPlain rule = true) (d : Derivation) :
    (d.optionalPada rule).RecountsBy isPlain d := by
  have hstep := recountsBy_optionally (trace_markPada .atmanepada) h d
  unfold optionalPada
  split
  · rename_i e heq
    rw [heq] at hstep
    exact hstep
  · rename_i e heq
    rw [heq] at hstep
    exact (recountsBy_markParasmaipada e).trans hstep

theorem recountsBy_choosePada (d : Derivation) : d.choosePada.RecountsBy isPlain d := by
  unfold choosePada
  split
  · split
    · exact recountsBy_markPada _ d
    · split
      · exact recountsBy_record_of_trace rfl (trace_markPada _ d)
      · split
        · exact recountsBy_record_of_trace rfl (trace_markPada _ d)
        · split
          · exact recountsBy_optionalPada rfl d
          · split
            · exact recountsBy_optionalPada rfl d
            · exact recountsBy_markParasmaipada d
  · exact recountsBy_self _ d

theorem recountsBy_giveEnding (purusha : Purusha) (vacana : Vacana) (d : Derivation) :
    (d.giveEnding purusha vacana).RecountsBy isPlain d := by
  unfold giveEnding
  split
  · exact recountsBy_self _ d
  · refine ((recountsBy_substitute rfl _ _ _).trans (recountsBy_update ?_ _ d)).map _ fun e =>
      recountsBy_update (f := (·.removeTag (.it .N))) (fun t => rfl) _ e
    exact fun t => Term.text_addTags _ t

theorem recountsBy_classifySuffixes (d : Derivation) :
    d.classifySuffixes.RecountsBy isPlain d := by
  have hplain : ∀ x ∈ classRules, isPlain x.1 = true := by decide
  refine (alters_classifySuffixes d).recountsBy ?_
  rintro _ t _ _ ⟨-, x, hx, rfl, -⟩
  exact hplain x hx

theorem recountsBy_extendMarkers (d : Derivation) : d.extendMarkers.RecountsBy isPlain d := by
  have hplain : ∀ x ∈ markerRules, isPlain x.1 = true := by decide
  refine (alters_extendMarkers d).recountsBy ?_
  rintro _ t _ _ ⟨-, x, hx, rfl, -⟩
  exact hplain x hx

theorem recountsBy_fitWit (i : Nat) (d : Derivation) : (d.fitWit i).RecountsBy isPlain d := by
  unfold fitWit
  split
  · exact recountsBy_substitute rfl _ _ d
  · exact recountsBy_alter rfl _ _ d

theorem recountsBy_fitPerfect (i : Nat) (d : Derivation) :
    (d.fitPerfect i).RecountsBy isPlain d := by
  unfold fitPerfect
  split
  · exact recountsBy_self _ d
  · split
    · split
      · exact (recountsBy_substitute rfl _ _ d).map _ fun e =>
          recountsBy_update (f := (·.removeTag (.it .S))) (fun t => rfl) _ e
      · exact recountsBy_fitWit i d
    · split
      · exact recountsBy_substitute rfl _ _ d
      · exact recountsBy_self _ d

theorem recountsBy_fitImperativeFinal (i : Nat) (d : Derivation) :
    (d.fitImperativeFinal i).RecountsBy isPlain d := by
  unfold fitImperativeFinal
  repeat' split
  all_goals simp

theorem recountsBy_fitNit (i : Nat) (keepsI : Bool) (d : Derivation) :
    (d.fitNit i keepsI).RecountsBy isPlain d := by
  -- 3.4.99 and 3.4.100 follow upon whatever 3.4.101 has left.
  have hshorten (e : Derivation) (he : e.RecountsBy isPlain d) :
      (if e.has i fun t => t.hasTag (.purusha .uttama) && t.antya? == some 's' then
        e.alter "3.4.99" i (·.setAntya []) else e).RecountsBy isPlain d :=
    .ite ((recountsBy_alter rfl _ _ e).trans he) he
  unfold fitNit
  split
  · rename_i sub _
    have hsub : (d.alter "3.4.101" i (·.setText sub)).RecountsBy isPlain d :=
      recountsBy_alter rfl _ _ d
    exact .ite (.ite ((recountsBy_alter rfl _ _ _).trans (hshorten _ hsub)) (hshorten _ hsub)) hsub
  · have hself := recountsBy_self isPlain d
    exact .ite (.ite ((recountsBy_alter rfl _ _ _).trans (hshorten d hself)) (hshorten d hself))
      hself

theorem recountsBy_fitImperative (i : Nat) (d : Derivation) :
    (d.fitImperative i).RecountsBy isPlain d := by
  have hfinal := recountsBy_fitImperativeFinal i d
  unfold fitImperative
  dsimp only
  split
  · refine Outcome.RecountsBy.map ?_ _ fun e => recountsBy_fitNit _ _ e
    exact (recountsBy_augmentBefore rfl i _ _).trans
      ((recountsBy_update (f := (·.addTag (.it .p))) (fun t => rfl) _ _).trans hfinal)
  · exact (recountsBy_fitNit _ _ _).trans hfinal

theorem recountsBy_fitEnding (lakara : Lakara) (d : Derivation) :
    (d.fitEnding lakara).RecountsBy isPlain d := by
  unfold fitEnding
  split
  · exact recountsBy_self _ d
  · rename_i i _
    split
    · exact recountsBy_fitPerfect i d
    · have hfitted : (if (d.has i fun t => t.hasTag (.pada .atmanepada)) && lakara.isWit then
          d.fitWit i else .done d).RecountsBy isPlain d := by
        split
        · exact recountsBy_fitWit i d
        · exact recountsBy_self _ d
      dsimp only
      split
      · exact hfitted.andThen _ fun e => recountsBy_fitImperative i e
      · split
        · exact hfitted.map _ fun e => recountsBy_fitNit i false e
        · exact hfitted

theorem recountsBy_addStemSuffix (h : isPlain rule = true) (u : Text) (d : Derivation) :
    (d.addStemSuffix rule u).RecountsBy isPlain d := by
  unfold addStemSuffix
  split
  · exact recountsBy_suffixAfter h _ _ _ d
  · exact recountsBy_self _ d

theorem recountsBy_addAuxiliary (i : Nat) (d : Derivation) :
    (d.addAuxiliary i).RecountsBy isPlain d := by
  have hrule {rule : Rule} {root : Term} (h : root.amRule? = some rule) :
      isPlain rule = true := by
    unfold Term.amRule? at h
    repeat' split at h
    all_goals cases h
    all_goals decide
  unfold addAuxiliary
  split
  · exact recountsBy_self _ d
  · split
    · exact recountsBy_self _ d
    · rename_i rule heq
      obtain ⟨root, -, heq⟩ := Option.bind_eq_some_iff.mp heq
      exact (recountsBy_record_of_trace rfl (trace_insertTerm _ _ _)).trans
        (recountsBy_record_of_trace (hrule heq) (trace_insertTerm _ _ d))

theorem recountsBy_addVikarana (d : Derivation) : d.addVikarana.RecountsBy isPlain d := by
  have hrule {rule : Rule} {gana : Int} {u : Text} (h : classSuffix? gana = some (rule, u)) :
      isPlain rule = true := by
    unfold classSuffix? at h
    repeat' split at h
    all_goals cases h
    all_goals decide
  unfold addVikarana
  split
  · exact recountsBy_self _ d
  · split
    · exact recountsBy_addAuxiliary _ d
    · split
      · exact recountsBy_addStemSuffix rfl _ d
      · split
        · exact recountsBy_self _ d
        · split
          · exact recountsBy_addStemSuffix rfl _ d
          · split
            · rename_i heq
              obtain ⟨gana, -, heq⟩ := Option.bind_eq_some_iff.mp heq
              exact recountsBy_addStemSuffix (hrule heq) _ d
            · exact recountsBy_self _ d

theorem recountsBy_addSuffixes (form : VerbForm) (d : Derivation) :
    (d.addSuffixes form).RecountsBy isPlain d := by
  have hgiven := (recountsBy_giveEnding form.purusha form.vacana d).map classifySuffixes
    recountsBy_classifySuffixes
  unfold addSuffixes
  dsimp only
  split
  · exact ((hgiven.andThen _ (recountsBy_fitEnding .lit)).andThen _ recountsBy_addVikarana).map _
      recountsBy_classifySuffixes
  · exact ((hgiven.andThen _ recountsBy_addVikarana).map _ recountsBy_classifySuffixes).andThen _
      (recountsBy_fitEnding form.lakara)

theorem recountsBy_takesIt (root : Term) (suffix : View) (d : Derivation) :
    (d.takesIt root suffix).2.RecountsBy isPlain d := by
  have hplain : ∀ rule ∈ itRules, isPlain rule = true := by decide
  have hkept : KeptByAsking (·.RecountsBy isPlain d) :=
    ⟨fun rule hrule e he => (recountsBy_record (hplain rule hrule) e).trans he,
      fun rule _ e he => (recountsBy_of_trace (trace_accept rule e) (text_accept rule e)).trans he,
      fun rule _ e he => (recountsBy_decline rule e).trans he⟩
  exact hkept.takesIt root suffix (recountsBy_self _ d)

theorem recountsBy_addIt (d : Derivation) : d.addIt.RecountsBy isPlain d := by
  rcases d.addIt_cases with heq | ⟨before, root, after, suffix, -, heq⟩
  · rw [heq]
    exact recountsBy_self _ d
  · have htakes := recountsBy_takesIt root suffix d
    rw [heq]
    split
    · exact (recountsBy_augmentAfter rfl _ _ _).trans htakes
    · exact htakes

end Suffixes

section Stem

variable {tag : Tag} {tags : List Tag} {change : Term → Term} {d e : Derivation}

theorem isPlain_of_copyChange (h : CopyChange rule change) : isPlain rule = true := by
  cases h <;> rfl

theorem isPlain_of_preparingChange (h : PreparingChange tag rule change) :
    isPlain rule = true := by
  cases h <;> rfl

theorem isPlain_of_joiningChange (h : JoiningChange tag rule change) : isPlain rule = true := by
  cases h <;> rfl

theorem recountsBy_reduplicate (d : Derivation) : d.reduplicate.RecountsBy isPlain d := by
  rcases d.reduplicate_cases with heq | ⟨before, root, after, -, -, -, -, -, heq⟩
  · rw [heq]
    exact recountsBy_self _ d
  · have hcopy : ((d.insertTerm before.length
        { Term.ofText root.text with gana := root.gana }).record "6.1.8").RecountsBy isPlain d :=
      recountsBy_record_of_trace rfl (trace_insertTerm _ _ d)
    have hnamed (e : Derivation) (he : e.RecountsBy isPlain d) :
        (e.alter "6.1.4" before.length (·.addTag .abhyasa)).RecountsBy isPlain d :=
      (recountsBy_alter rfl _ _ e).trans he
    rw [heq]
    refine (recountsBy_record_of_trace rfl ?_).trans (hnamed _ hcopy)
    rw [trace_update, trace_update]

theorem recountsBy_reduceCopy (d : Derivation) : d.reduceCopy.RecountsBy isPlain d :=
  (reduceCopy_ends (P := (·.RecountsBy isPlain d)) (recountsBy_self _ d) fun _ _ _ he =>
    he.recountsBy fun _ _ _ _ hchange => isPlain_of_copyChange hchange.2).imp (fun _ he => he)
      fun _ _ => trivial

theorem recountsBy_preparing (h : Alters (OnTagged PreparingChange tags) d e) :
    e.RecountsBy isPlain d :=
  h.recountsBy fun _ _ _ _ ⟨_, _, _, hchange⟩ => isPlain_of_preparingChange hchange

theorem recountsBy_joining (h : Alters (OnTagged JoiningChange tags) d e) :
    e.RecountsBy isPlain d :=
  h.recountsBy fun _ _ _ _ ⟨_, _, _, hchange⟩ => isPlain_of_joiningChange hchange

theorem recountsBy_augmentPast (d : Derivation) : d.augmentPast.RecountsBy isPlain d := by
  have hplain : ∀ x ∈ pastAugments, isPlain x.1 = true := by decide
  rcases d.augmentPast_cases with heq | ⟨before, t, after, x, hx, -, -, -, heq⟩
  · rw [heq]
    exact recountsBy_self _ d
  · rw [heq]
    exact recountsBy_augmentBefore (hplain x hx) _ _ d

theorem recountsBy_augmentBhu (d : Derivation) : d.augmentBhu.RecountsBy isPlain d := by
  rcases d.augmentBhu_cases with heq | ⟨before, t, after, -, -, heq⟩
  · rw [heq]
    exact recountsBy_self _ d
  · rw [heq]
    exact (recountsBy_augmentAfter rfl _ _ d).map _ fun e =>
      recountsBy_update (f := (·.addTag .gunaExempt)) (fun t => rfl) _ e

theorem recountsBy_prepareStem (d : Derivation) : d.prepareStem.RecountsBy isPlain d := by
  unfold prepareStem
  have haugmented := ((recountsBy_augmentPast d.replaceJ).trans
    (recountsBy_preparing (alters_replaceJ d))).andThen augmentBhu recountsBy_augmentBhu
  exact haugmented.map _ fun e => recountsBy_preparing (alters_dropA e)

theorem recountsBy_relaxRal (d : Derivation) : d.relaxRal.RecountsBy isPlain d := by
  rcases d.relaxRal_cases with heq | ⟨i, heq⟩
  · rw [heq]
    exact recountsBy_self _ d
  · rw [heq]
    exact recountsBy_optionally (fun e => trace_update _ _ e) rfl d

theorem recountsBy_strengthenStem (d : Derivation) :
    d.strengthenStem.RecountsBy (!isContraction ·) d := by
  refine RecountsBy.trans ?_ ((recountsBy_relaxRal d).mono not_isContraction_of_isPlain)
  refine (alters_forEach alters_strengthenAt _).recountsBy fun _ _ _ _ hchange => ?_
  cases hchange.2 <;> rfl

-- The step is recorded only if the stem is contracted.
theorem recountsBy_contractPerfect (d : Derivation) :
    d.contractPerfect.RecountsBy isContraction d := by
  have hcontraction : ∀ rule ∈ ["6.4.120", "6.4.121"], isContraction rule = true := by decide
  rcases d.contractPerfect_cases with heq | ⟨i, copy, root, rule, hrule, -, -, -, -, -, heq⟩
  · rw [heq]
    exact recountsBy_self _ d
  · rw [heq]
    exact recountsBy_record_of_trace (hcontraction rule hrule) (by rw [trace_update, trace_update])

theorem recountsBy_joinStem (d : Derivation) : d.joinStem.RecountsBy (fun _ => true) d :=
  ((recountsBy_joining (alters_joined d.contractPerfect)).mono fun _ _ => rfl).trans <|
    (recountsBy_contractPerfect d).mono fun _ _ => rfl

theorem recountsBy_shapeStem (d : Derivation) : d.shapeStem.RecountsBy (fun _ => true) d := by
  unfold shapeStem
  exact ((recountsBy_prepareStem d).mono fun _ _ => rfl).map _ fun e =>
    (recountsBy_joinStem _).trans ((recountsBy_strengthenStem e).mono fun _ _ => rfl)

end Stem

end Derivation

section Sandhi

theorem SoundRule.recountsBy_of_mem_vowelRules {r : SoundRule} (h : r ∈ vowelRules) :
    r.RecountsBy isPlain :=
  (exchanges_of_mem_vowelRules h).recountsBy fun rule _ hsub =>
    (by decide : ∀ rule ∈ vowelNumbers, isPlain rule = true) rule hsub.numbered

theorem ConsonantPass.recountsBy {p : ConsonantPass} {T : FeatureTable} {r : SoundRule}
    (h : p.rule T = .ok r) : r.RecountsBy isPlain :=
  (exchanges_of_rule h).recountsBy fun rule _ hsub =>
    (by decide : ∀ rule ∈ numbers, isPlain rule = true) rule hsub.numbered

namespace Derivation

theorem recountsBy_joinVowels (d : Derivation) : d.joinVowels.RecountsBy isPlain d := by
  obtain ⟨e, hdone, hturn⟩ := d.joinVowels_rests
  rw [hdone]
  exact hturn.relates (R := fun d e => e.RecountsBy isPlain d) (recountsBy_self _)
    (fun _ _ _ hde hef => hef.trans hde) fun r hr => SoundRule.recountsBy_of_mem_vowelRules hr

theorem recountsBy_pass (p : ConsonantPass) (d : Derivation) : (d.pass p).RecountsBy isPlain d := by
  rcases d.pass_rests p with ⟨r, e, hok, hrests, hdone, -⟩ | ⟨fault, -, hfail, -⟩
  · rw [hdone]
    exact hrests.recountsBy (ConsonantPass.recountsBy hok)
  · rw [hfail]
    trivial

theorem recountsBy_finishing {e : Derivation} (h : Alters (fun _ _ => FinishingChange) d e) :
    e.RecountsBy isPlain d :=
  h.recountsBy fun _ _ _ _ hchange => by cases hchange <;> rfl

theorem recountsBy_deaspirateCopy (d : Derivation) : d.deaspirateCopy.RecountsBy isPlain d := by
  rcases d.deaspirateCopy_alters with ⟨e, hdone, halters⟩ | ⟨fault, hfail, -⟩
  · rw [hdone]
    exact recountsBy_finishing halters
  · rw [hfail]
    trivial

theorem recountsBy_devoiceFinal (d : Derivation) : d.devoiceFinal.RecountsBy isPlain d := by
  rcases d.devoiceFinal_cases with heq | ⟨fault, -, heq⟩ |
    ⟨_, _, _, _, _, -, -, -, -, -, -, -, -, heq⟩
  · rw [heq]
    exact recountsBy_self _ d
  · rw [heq]
    trivial
  · rw [heq]
    exact recountsBy_optionally (fun e => trace_update _ _ e) rfl d

theorem recountsBy_joinConsonants (d : Derivation) : d.joinConsonants.RecountsBy isPlain d := by
  have hthen {o : Derivation → Outcome} (ho : ∀ e, (o e).RecountsBy isPlain e) (e : Derivation)
      (he : e.RecountsBy isPlain d) : (o e).RecountsBy isPlain d :=
    Outcome.RecountsBy.trans (ho e) he
  have hthroat := hthen (recountsBy_pass .throat) _ (recountsBy_finishing (alters_dropFinalOfCluster d))
  have hfinish := hthroat.map finishWord fun e =>
    recountsBy_finishing (alters_finishWord e)
  exact joinConsonants_ends_of (hfinish.andThen _ (recountsBy_pass .anusvara))
    (fun p e _ _ he => hthen (recountsBy_pass p) e he) (hthen recountsBy_deaspirateCopy)
    (hthen recountsBy_devoiceFinal) (hthen (recountsBy_pass .nasal))

end Derivation

end Sandhi

namespace Derivation

-- Once the root is there, each rule accounts for what it does.
theorem recounts_conjugate (root : Root) (form : VerbForm) (d : Derivation) :
    (d.conjugate root form).Recounts ((d.taggedFor form).rootStarted root) := by
  have hlakara := ((recountsBy_enterRoot_started root (d.taggedFor form)).andThen _
    recountsBy_addRic).andThen _ (recountsBy_addLakara form.lakara)
  have hsuffixes := (hlakara.map _ recountsBy_choosePada).andThen _ (recountsBy_addSuffixes form)
  have hit := (hsuffixes.map _ recountsBy_extendMarkers).andThen _ recountsBy_addIt
  have hcopy := (hit.map _ recountsBy_reduplicate).andThen _ recountsBy_reduceCopy
  have hstem := (hcopy.mono fun _ _ => rfl).andThen _ recountsBy_shapeStem
  have hvowels := hstem.andThen _ fun e => (recountsBy_joinVowels e).mono fun _ _ => rfl
  exact (hvowels.andThen _ fun e => (recountsBy_joinConsonants e).mono fun _ _ => rfl).recounts

-- What is told after the start ends with the text.
theorem Recounts.history_of_started {d e : Derivation} (he : e.Recounts d)
    (hrecording : d.recording = true) {rule : Rule} (hd : d.history = [⟨rule, d.text⟩]) :
    e.history.head? = some ⟨rule, d.text⟩ ∧ e.history.getLast?.map (·.result) = some e.text := by
  rcases he.tells hrecording with ⟨hhistory, htext⟩ | ⟨steps, rule', hhistory⟩
  · rw [hhistory, hd, htext]
    exact ⟨rfl, rfl⟩
  · rw [hhistory, hd, List.getLast?_concat]
    exact ⟨rfl, rfl⟩

-- A derivation whose root is there as it was taught. That is all its trace tells.
theorem started_eq (root : Root) (form : VerbForm) (choices : Choices) (table : FeatureTable) :
    (((start choices true table).taggedFor form).rootStarted root).text = root.upadesha ∧
      (((start choices true table).taggedFor form).rootStarted root).history =
        [⟨"start", root.upadesha⟩] := by
  have htext : (((start choices true table).taggedFor form).push
      (.ofRoot root.upadesha root.gana root.number)).text = root.upadesha := by
    rw [text_push]
    rfl
  refine ⟨by rw [rootStarted, text_record, htext], ?_⟩
  calc (((start choices true table).taggedFor form).rootStarted root).history
      = [⟨"start", (((start choices true table).taggedFor form).push
          (.ofRoot root.upadesha root.gana root.number)).text⟩] := rfl
    _ = [⟨"start", root.upadesha⟩] := by rw [htext]

end Derivation

-- Each rule of the grammar, applied to any derivation that notes its steps, either notes none and
-- leaves the text as it is, or ends with a step whose result is the text. So a form has a trace that
-- begins with the root as it is taught and ends with the form.
theorem trace_is_faithful :
    (∀ d : Derivation,
      (∀ root, (d.enterRoot root).Recounts d) ∧
      d.addRic.Recounts d ∧
      (∀ lakara, (d.addLakara lakara).Recounts d) ∧
      d.choosePada.Recounts d ∧
      (∀ purusha vacana, (d.giveEnding purusha vacana).Recounts d) ∧
      (∀ lakara, (d.fitEnding lakara).Recounts d) ∧
      d.classifySuffixes.Recounts d ∧
      d.addVikarana.Recounts d ∧
      d.extendMarkers.Recounts d ∧
      d.addIt.Recounts d ∧
      d.reduplicate.Recounts d ∧
      d.reduceCopy.Recounts d ∧
      d.shapeStem.Recounts d ∧
      d.joinVowels.Recounts d ∧
      (∀ r ∈ SoundRule.vowelRules,
        ∃ e, d.sweep r d.changeBound = .done e ∧ r.Rests d e ∧ e.Recounts d) ∧
      d.joinConsonants.Recounts d) ∧
    ∀ root form table forms, verbForms root form true table = .ok forms →
      ∀ d ∈ forms, d.history.head? = some ⟨"start", root.upadesha⟩ ∧
        d.history.getLast?.map (·.result) = some d.text := by
  refine ⟨fun d => ⟨fun root => (d.recountsBy_enterRoot root).recounts,
    d.recountsBy_addRic.recounts, fun lakara => (d.recountsBy_addLakara lakara).recounts,
    d.recountsBy_choosePada.toRecounts,
    fun purusha vacana => (d.recountsBy_giveEnding purusha vacana).recounts,
    fun lakara => (d.recountsBy_fitEnding lakara).recounts,
    d.recountsBy_classifySuffixes.toRecounts, d.recountsBy_addVikarana.recounts,
    d.recountsBy_extendMarkers.toRecounts, d.recountsBy_addIt.recounts,
    d.recountsBy_reduplicate.toRecounts, d.recountsBy_reduceCopy.recounts,
    d.recountsBy_shapeStem.recounts, d.recountsBy_joinVowels.recounts, fun r hr => ?_,
    d.recountsBy_joinConsonants.recounts⟩, ?_⟩
  · obtain ⟨e, hdone, hrests, -⟩ := d.vowelSweep_rests hr
    exact ⟨e, hdone, hrests,
      (hrests.recountsBy (SoundRule.recountsBy_of_mem_vowelRules hr)).toRecounts⟩
  · intro root form table forms hforms d hd
    obtain ⟨choices, hrun⟩ := run_of_mem_verbForms hforms hd
    obtain ⟨htext, hhistory⟩ := Derivation.started_eq root form choices table
    have hends := of_run_done hrun (Derivation.recounts_conjugate root form _)
    have htold := Derivation.Recounts.history_of_started hends rfl (htext.symm ▸ hhistory)
    rwa [htext] at htold

end Vyakarana
