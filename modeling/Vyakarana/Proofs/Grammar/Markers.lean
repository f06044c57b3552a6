import Vyakarana.Grammar.Markers
import Vyakarana.Proofs.Basic
import Vyakarana.Proofs.Derivation.Frame
import Vyakarana.Proofs.Term.Tags

/-!
When markers cannot be dropped.

A root loses its markers just if, before a final ir, none of the vowels F, X, E and O is nasal,
since these four mark nothing. The suffixes and augments of the grammar never fail.
-/

namespace Vyakarana

-- The vowels that are no markers.
def markless : List Char := ['F', 'X', 'E', 'O']

-- The text before a final ir, which is a marker of its own.
def Text.beforeIr (t : Text) : Text :=
  if "i~r".toList.isSuffixOf t then t.take (t.length - 3)
  else if "i~^r".toList.isSuffixOf t then t.take (t.length - 4)
  else t

namespace Stripping

theorem ofMarker_eq_ok_or {c : Char} (h : Sound.isAc c = true) :
    c ∈ markless ∧ Tag.ofMarker [c] = .error (.notMarker [c]) ∨
      c ∉ markless ∧ ∃ marker, Tag.ofMarker [c] = .ok (.it marker) := by
  have hall : ∀ c ∈ SoundClass.ac.sounds,
      c ∈ markless ∧ Marker.ofSound? c = none ∨
        c ∉ markless ∧ (Marker.ofSound? c).isSome = true := by decide
  rcases hall c (List.contains_iff_mem.mp h) with ⟨hc, hnone⟩ | ⟨hc, hsome⟩
  · refine .inl ⟨hc, ?_⟩
    simp only [Tag.ofMarker, hnone]
  · obtain ⟨marker, hmarker⟩ := Option.isSome_iff_exists.mp hsome
    refine .inr ⟨hc, marker, ?_⟩
    simp only [Tag.ofMarker, hmarker]

theorem mem_nasalVowels {t : Text} {v : Char} {accent : Option Char}
    (h : (v, accent) ∈ nasalVowels t) : Sound.isAc v = true ∧ [v, '~'] <:+: t := by
  induction t with
  | nil => cases h
  | cons c rest ih =>
      have hlater (h : (v, accent) ∈ nasalVowels rest) :
          Sound.isAc v = true ∧ [v, '~'] <:+: c :: rest :=
        ⟨(ih h).1, (ih h).2.trans (List.suffix_cons c rest).isInfix⟩
      rw [nasalVowels] at h
      split at h
      · rename_i hnasal
        rcases List.mem_cons.mp h with heq | h
        · cases heq
          obtain ⟨hac, hnext⟩ := (Bool.and_eq_true _ _).mp hnasal
          obtain ⟨rest', rfl⟩ := List.head?_eq_some_iff.mp (beq_iff_eq.mp hnext)
          exact ⟨hac, ⟨[], rest', rfl⟩⟩
        · exact hlater h
      · exact hlater h

theorem exists_mem_nasalVowels {t : Text} {v : Char} (hv : Sound.isAc v = true)
    (h : [v, '~'] <:+: t) : ∃ accent, (v, accent) ∈ nasalVowels t := by
  induction t with
  | nil => simp at h
  | cons c rest ih =>
      rw [nasalVowels]
      rcases List.infix_cons_iff.mp h with hprefix | hlater
      · obtain ⟨more, heq⟩ := hprefix
        cases heq
        rw [if_pos (by simp [hv])]
        exact ⟨_, List.mem_cons_self⟩
      · obtain ⟨accent, hmem⟩ := ih hlater
        split
        · exact ⟨accent, List.mem_cons_of_mem _ hmem⟩
        · exact ⟨accent, hmem⟩

theorem nasalTags_cases {v : Char} (hv : Sound.isAc v = true) (accent : Option Char) :
    v ∈ markless ∧ nasalTags v accent = .error (.notMarker [v]) ∨
      v ∉ markless ∧ ∃ tags, nasalTags v accent = .ok tags ∧ .pratyaya ∉ tags := by
  unfold nasalTags
  rcases ofMarker_eq_ok_or hv with ⟨hc, herror⟩ | ⟨hc, marker, hok⟩
  · rw [herror]
    exact .inl ⟨hc, rfl⟩
  · rw [hok]
    refine .inr ⟨hc, _, rfl, ?_⟩
    dsimp only
    split <;> simp

-- The tags of all nasal vowels are found just if none of these vowels is without a meaning.
theorem allNasalTags_cases (t : Text) :
    (∃ tags, allNasalTags t = .ok tags ∧ .pratyaya ∉ tags ∧ ∀ c ∈ markless, ¬[c, '~'] <:+: t) ∨
      ∃ c ∈ markless, [c, '~'] <:+: t ∧ allNasalTags t = .error (.notMarker [c]) := by
  unfold allNasalTags
  rcases mapM_cases (fun (v, accent) => nasalTags v accent) (nasalVowels t) with
    ⟨rows, hok, hall⟩ | ⟨⟨v, accent⟩, hv, fault, hfault, herror⟩
  · rw [hok]
    refine .inl ⟨rows.flatten, rfl, fun hp => ?_, fun c hc hinfix => ?_⟩
    · obtain ⟨tags, htags, hp⟩ := List.mem_flatten.mp hp
      obtain ⟨⟨v, accent⟩, hv, hrow⟩ := exists_of_mem_right hall tags htags
      dsimp only at hrow
      rcases nasalTags_cases (mem_nasalVowels hv).1 accent with ⟨-, herror⟩ | ⟨-, tags', hok', hno⟩
      · rw [herror] at hrow
        cases hrow
      · rw [hok'] at hrow
        cases hrow
        exact hno hp
    · have hac : Sound.isAc c = true :=
        (by decide : ∀ c ∈ markless, Sound.isAc c = true) c hc
      obtain ⟨accent, hv⟩ := exists_mem_nasalVowels hac hinfix
      obtain ⟨tags, -, hrow⟩ := exists_of_mem_left hall _ hv
      dsimp only at hrow
      rcases nasalTags_cases hac accent with ⟨-, herror⟩ | ⟨hno, -⟩
      · rw [herror] at hrow
        cases hrow
      · exact hno hc
  · obtain ⟨hac, hinfix⟩ := mem_nasalVowels hv
    dsimp only at hfault
    rw [herror]
    rcases nasalTags_cases hac accent with ⟨hc, hmarkless⟩ | ⟨-, tags, hok, -⟩
    · rw [hmarkless] at hfault
      cases hfault
      exact .inr ⟨v, hc, hinfix, rfl⟩
    · rw [hok] at hfault
      cases hfault

theorem text_dropIr (t : Term) : (dropIr t).text = t.text.beforeIr := by
  unfold dropIr Text.beforeIr
  split
  · rfl
  · split
    · exact Term.text_addTags _ _
    · rfl

-- The initial of a taught suffix is kept, or marks something.
def startsWell (u : Text) : Bool :=
  u.head?.all fun c => !cutu.contains c || keptCutu.contains c || (Marker.ofSound? c).isSome

-- A stripping that has met no fault, and will meet none at the initial of a suffix.
structure Harmless (u : Text) (s : Stripping) : Prop where
  fault : s.fault = none
  start : startsWell u = true ∨ s.term.hasTag .pratyaya = false

theorem Harmless.note {u : Text} {s : Stripping} (h : s.Harmless u) (rule : Rule) :
    (s.note rule).Harmless u :=
  ⟨h.fault, h.start⟩

theorem Harmless.change {u : Text} {s : Stripping} (h : s.Harmless u) {f : Term → Term}
    (hf : (f s.term).hasTag .pratyaya = s.term.hasTag .pratyaya) : (s.change f).Harmless u :=
  ⟨h.fault, h.start.imp id hf.trans⟩

theorem Harmless.dropNasals {u : Text} {s : Stripping} (h : s.Harmless u) {tags : List Tag}
    (htags : .pratyaya ∉ tags) : (s.dropNasals tags).Harmless u := by
  unfold Stripping.dropNasals
  split
  · exact h
  · refine (h.change ?_).note _
    rw [Term.hasTag_addTags_of_notMem htags, Term.hasTag_setText]

theorem Harmless.readAccents {u : Text} {s : Stripping} (h : s.Harmless u) :
    s.readAccents.Harmless u := by
  refine h.change ?_
  dsimp only
  rw [Term.hasTag_setText]
  split <;> split <;> simp [Term.hasTag_addTag_of_ne]

theorem Harmless.dropFinal {u : Text} {s : Stripping} (h : s.Harmless u) :
    (s.dropFinal u).Harmless u := by
  unfold Stripping.dropFinal
  split
  · exact h
  · split
    · exact h
    · split
      · exact h.note _
      · split
        · exact h
        · split
          · exact (h.change (by simp [Term.hasTag_addTag_of_ne])).note _
          · exact h

theorem Harmless.dropRootInitial {u : Text} {s : Stripping} (h : s.Harmless u) :
    s.dropRootInitial.Harmless u := by
  unfold Stripping.dropRootInitial
  split
  · split
    · exact (h.change (by simp [Term.hasTag_addTag_of_ne])).note _
    · exact h
  · exact h

theorem Harmless.fault_dropSuffixInitial {u : Text} {s : Stripping} (h : s.Harmless u) :
    (s.dropSuffixInitial u).fault = none := by
  unfold Stripping.dropSuffixInitial
  split
  · exact h.fault
  · rename_i hsuffix
    have hwell : startsWell u = true := by
      refine h.start.resolve_right fun hno => hsuffix ?_
      rw [hno]
      rfl
    split
    · exact h.fault
    · rename_i first hfirst
      split
      · exact h.fault
      · split
        · split
          · exact h.fault
          · rename_i hcutu hkept
            split
            · exact h.fault
            · -- The initial marks something, as it is not kept.
              rename_i hnone
              rw [startsWell, hfirst] at hwell
              simp [hcutu, hkept, hnone] at hwell
        · split
          · split <;> exact h.fault
          · exact h.fault

theorem fault_conclude (u : Text) (s : Stripping) : (s.conclude u).fault = s.fault := by
  unfold conclude
  split <;> rfl

theorem harmless_start {t : Term} {u : Text}
    (h : startsWell u = true ∨ t.hasTag .pratyaya = false) :
    (⟨dropIr t, [], none⟩ : Stripping).Harmless u := by
  refine ⟨rfl, h.imp id fun hno => ?_⟩
  unfold dropIr
  dsimp only
  split
  · rw [Term.hasTag_addTag_of_ne (by simp)]
    exact hno
  · split
    · rw [Term.hasTag_addTags_of_notMem (by simp)]
      exact hno
    · exact hno

-- The only fault of a stripping is that of its nasal vowels.
theorem run_cases {t : Term} {u : Text}
    (h : startsWell u = true ∨ t.hasTag .pratyaya = false) :
    (run t u).fault = none ∧ (∀ c ∈ markless, ¬[c, '~'] <:+: t.text.beforeIr) ∨
      ∃ c ∈ markless, [c, '~'] <:+: t.text.beforeIr ∧
        (run t u).fault = some (.notMarker [c]) := by
  have hstart := harmless_start h
  unfold run
  dsimp only
  rw [text_dropIr]
  rcases allNasalTags_cases t.text.beforeIr with ⟨tags, hok, hno, hnone⟩ | ⟨c, hc, hinfix, herror⟩
  · rw [hok]
    refine .inl ⟨?_, hnone⟩
    have hread := (hstart.dropNasals hno).readAccents
    dsimp only
    rw [fault_conclude]
    split
    · exact hread.dropRootInitial.fault_dropSuffixInitial
    · exact hread.dropFinal.dropRootInitial.fault_dropSuffixInitial
  · rw [herror]
    exact .inr ⟨c, hc, hinfix, rfl⟩

end Stripping

namespace Derivation

theorem background_replay_steps (i : Int) (steps : List (Rule × Term)) (d : Derivation) :
    (steps.foldl (fun d (rule, t) => (d.update i fun _ => t).record rule) d).background =
      d.background := by
  induction steps generalizing d with
  | nil => rfl
  | cons step rest ih =>
      rw [List.foldl_cons, ih, background_record, background_update]

theorem replay_ends (i : Int) (s : Stripping) (d : Derivation) :
    (d.replay i s).Ends (fun e => e.background = d.background ∧ s.fault = none)
      fun fault => s.fault = some fault := by
  unfold replay
  dsimp only
  split
  · rename_i hnone
    exact ⟨by rw [background_update, background_replay_steps], hnone⟩
  · rename_i fault hfault
    exact hfault

theorem dropMarkers_of_none {i : Int} {d : Derivation} (h : d.term? i = none) :
    d.dropMarkers i = .done d := by
  unfold dropMarkers
  rw [h]

theorem dropMarkers_of_taught {i : Int} {d : Derivation} {t : Term} {u : Text}
    (h : d.term? i = some t) (hu : t.upadesha = some u) :
    d.dropMarkers i = d.replay i (Stripping.run t u) := by
  unfold dropMarkers
  rw [h]
  dsimp only
  rw [hu]

-- A taught form that a suffix or an augment can have.
def Droppable (u : Text) : Prop :=
  Stripping.startsWell u = true ∧ ∀ c ∈ markless, ¬[c, '~'] <:+: u.beforeIr

instance (u : Text) : Decidable (Droppable u) := inferInstanceAs (Decidable (_ ∧ _))

theorem keepsBackground_dropMarkers {i : Int} {u : Text} (hu : Droppable u) {d : Derivation}
    (h : ∀ t, d.term? i = some t → t.text = u ∧ t.upadesha = some u) :
    (d.dropMarkers i).KeepsBackground d := by
  rcases ht : d.term? i with _ | t
  · rw [dropMarkers_of_none ht]
    exact rfl
  · obtain ⟨htext, hupadesha⟩ := h t ht
    rw [dropMarkers_of_taught ht hupadesha]
    rcases Stripping.run_cases (t := t) (.inl hu.1) with ⟨hnone, -⟩ | ⟨c, hc, hinfix, -⟩
    · refine (replay_ends i _ d).imp (fun e he => he.1) fun fault hfault => ?_
      rw [hnone] at hfault
      cases hfault
    · rw [htext] at hinfix
      exact absurd hinfix (hu.2 c hc)

-- A new term loses its markers.
theorem keepsBackground_insertTerm {u : Text} (hu : Droppable u) {t : Term} (ht : t.text = u)
    (htaught : t.upadesha = some u) (rule : Rule) (n : Nat) (d : Derivation) :
    (((d.insertTerm n t).record rule).dropMarkers (n : Int)).KeepsBackground d := by
  have hterm : ∀ t', ((d.insertTerm n t).record rule).term? (n : Int) = some t' →
      t'.text = u ∧ t'.upadesha = some u := by
    intro t' h
    rw [term?_record] at h
    rw [term?_insertTerm h]
    exact ⟨ht, htaught⟩
  refine (keepsBackground_dropMarkers hu hterm).trans ?_
  rw [background_record, background_insertTerm]

theorem keepsBackground_augmentBefore {u : Text} (hu : Droppable u) (rule : Rule) (i : Nat)
    (d : Derivation) :
    (d.augmentBefore rule i u).KeepsBackground d :=
  keepsBackground_insertTerm hu rfl rfl rule i d

theorem keepsBackground_augmentAfter {u : Text} (hu : Droppable u) (rule : Rule) (i : Nat)
    (d : Derivation) :
    (d.augmentAfter rule i u).KeepsBackground d :=
  keepsBackground_insertTerm hu rfl rfl rule (i + 1) d

theorem keepsBackground_suffixAfter {u : Text} (hu : Droppable u) (rule : Rule) (i : Nat)
    (tags : List Tag) (d : Derivation) : (d.suffixAfter rule i u tags).KeepsBackground d :=
  keepsBackground_insertTerm hu (by simp [Term.ofUpadesha]) (by simp [Term.ofUpadesha]) rule
    (i + 1) d

theorem keepsBackground_substitute {u : Text} (hu : Droppable u) (rule : Rule) (i : Nat)
    (d : Derivation) : (d.substitute rule i u).KeepsBackground d := by
  unfold substitute
  split
  · have hterm : ∀ t, ((d.update i (·.setUpadesha u)).record rule).term? i = some t →
        t.text = u ∧ t.upadesha = some u := by
      intro t h
      rw [term?_record, term?_update] at h
      obtain ⟨t, -, rfl⟩ := Option.map_eq_some_iff.mp h
      exact ⟨rfl, rfl⟩
    refine (keepsBackground_dropMarkers hu hterm).trans ?_
    rw [background_record, background_update]
  · exact rfl

end Derivation

end Vyakarana
