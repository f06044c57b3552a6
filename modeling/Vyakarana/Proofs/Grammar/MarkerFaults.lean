import Vyakarana.Proofs.Grammar.Stripping

/-!
The two ways in which the markers of a term cannot be dropped.

A sound that is to be dropped is looked up among the markers. A final consonant and an initial l, S
or ku stop stay where they mark nothing. A nasal vowel is dropped in any case, and so is the
initial cu or wu stop of a suffix, so that the four vowels and the two stops that mark nothing
stop the rules with a fault.
-/

namespace Vyakarana

-- The stops of cu and wu that are to be dropped, and are no markers.
def marklessInitials : List Char := ['j', 'q']

namespace Stripping

-- A sound of the term, taught as `u`, that is to be dropped and marks nothing.
def MarksNothing (t : Term) (u : Text) (c : Char) : Prop :=
  c ∈ markless ∧ [c, '~'] <:+: t.text.beforeIr ∨
    t.hasTag .pratyaya = true ∧ c ∈ marklessInitials ∧ u.head? = some c

section

variable (u : Text) (s : Stripping)

theorem fault_dropNasals (tags : List Tag) : (s.dropNasals tags).fault = s.fault := by
  unfold dropNasals
  split <;> rfl

theorem fault_readAccents : s.readAccents.fault = s.fault := rfl

theorem fault_dropFinal : (s.dropFinal u).fault = s.fault := by
  unfold dropFinal
  repeat' split
  all_goals rfl

theorem fault_dropRootInitial : s.dropRootInitial.fault = s.fault := by
  unfold dropRootInitial
  repeat' split
  all_goals rfl

end

theorem mem_marklessInitials {c : Char} (hcutu : cutu.contains c = true)
    (hkept : ¬keptCutu.contains c = true) (hnone : Marker.ofSound? c = none) :
    c ∈ marklessInitials := by
  have hall : ∀ c ∈ cutu.sounds, ¬keptCutu.contains c = true → Marker.ofSound? c = none →
      c ∈ marklessInitials := by decide
  exact hall c (List.contains_iff_mem.mp hcutu) hkept hnone

-- The initial of a suffix is the last of its sounds that can stop the rules.
theorem fault_dropSuffixInitial {s : Stripping} (hs : s.fault = none) (u : Text) :
    (s.dropSuffixInitial u).fault = none ∧
        (s.term.hasTag .pratyaya = true → ∀ c ∈ marklessInitials, u.head? ≠ some c) ∨
      s.term.hasTag .pratyaya = true ∧ ∃ c ∈ marklessInitials, u.head? = some c ∧
        (s.dropSuffixInitial u).fault = some (.notMarker [c]) := by
  have hstops : ∀ c ∈ marklessInitials, (c == 'z') = false ∧ cutu.contains c = true ∧
      keptCutu.contains c = false ∧ Marker.ofSound? c = none := by decide
  -- An initial that is not one of the two stops the rules only if it marks nothing.
  have hother {first : Char} (hfirst : u.head? = some first) (hno : first ∉ marklessInitials) :
      ∀ c ∈ marklessInitials, u.head? ≠ some c := by
    intro c hc heq
    cases hfirst.symm.trans heq
    exact hno hc
  by_cases hsuffix : s.term.hasTag .pratyaya = true
  · rcases hfirst : u.head? with _ | first
    · refine .inl ⟨?_, by simp⟩
      simp only [dropSuffixInitial, hsuffix, hfirst]
      exact hs
    · by_cases hmem : first ∈ marklessInitials
      · obtain ⟨hz, hcutu, hkept, hnone⟩ := hstops first hmem
        refine .inr ⟨hsuffix, first, hmem, rfl, ?_⟩
        simp [dropSuffixInitial, hsuffix, hfirst, hz, hcutu, hkept, hnone, fail]
      · refine .inl ⟨?_, fun _ => hfirst ▸ hother hfirst hmem⟩
        simp only [dropSuffixInitial, hsuffix, hfirst]
        repeat' split
        all_goals first
          | exact hs
          | exact absurd (mem_marklessInitials ‹_› ‹_› ‹_›) hmem
  · refine .inl ⟨?_, fun h => absurd h hsuffix⟩
    rw [dropSuffixInitial, if_pos (by simpa using hsuffix)]
    exact hs

-- A term whose nasal vowels mark something, and that is left with the sounds in between.
def read (t : Term) (tags : List Tag) : Stripping :=
  ((⟨dropIr t, [], none⟩ : Stripping).dropNasals tags).readAccents

def dropFinalUnlessIr (t : Term) (u : Text) (s : Stripping) : Stripping :=
  if endsInIr t.text then s else s.dropFinal u

theorem run_of_ok {t : Term} {tags : List Tag} (h : allNasalTags t.text.beforeIr = .ok tags)
    (u : Text) :
    run t u = (((read t tags).dropFinalUnlessIr t u).dropRootInitial.dropSuffixInitial u).conclude
      u := by
  unfold run
  dsimp only
  rw [text_dropIr, h]
  rfl

theorem run_of_error {t : Term} {fault : Fault}
    (h : allNasalTags t.text.beforeIr = .error fault) (u : Text) :
    (run t u).fault = some fault := by
  unfold run
  dsimp only
  rw [text_dropIr, h]
  rfl

theorem fault_read (t : Term) (tags : List Tag) : (read t tags).fault = none := by
  rw [read, fault_readAccents, fault_dropNasals]

theorem fault_dropFinalUnlessIr (t : Term) (u : Text) (s : Stripping) :
    (s.dropFinalUnlessIr t u).fault = s.fault := by
  unfold dropFinalUnlessIr
  split
  · rfl
  · exact fault_dropFinal u s

theorem sheds_read {t : Term} {tags : List Tag} (h : allNasalTags t.text.beforeIr = .ok tags) :
    Sheds t (read t tags) :=
  ((sheds_dropIr t).dropNasals (isSpelled_of_allNasalTags h)).readAccents

theorem Sheds.dropFinalUnlessIr {t : Term} {s : Stripping} (h : Sheds t s) (u : Text) :
    Sheds t (s.dropFinalUnlessIr t u) := by
  unfold Stripping.dropFinalUnlessIr
  split
  · exact h
  · exact h.dropFinal u

-- Until its initial comes in turn, a term stays a suffix or none.
theorem pratyaya_before_initial {t : Term} {tags : List Tag}
    (h : allNasalTags t.text.beforeIr = .ok tags) (u : Text) :
    ((read t tags).dropFinalUnlessIr t u).dropRootInitial.term.hasTag .pratyaya =
      t.hasTag .pratyaya :=
  Term.hasTag_eq_of_kind ((sheds_read h).dropFinalUnlessIr u).dropRootInitial.term.kind rfl

theorem run_fault_cases (t : Term) (u : Text) :
    (run t u).fault = none ∧ (∀ c, ¬MarksNothing t u c) ∨
      ∃ c, MarksNothing t u c ∧ (run t u).fault = some (.notMarker [c]) := by
  rcases allNasalTags_cases t.text.beforeIr with ⟨tags, hok, -, hnone⟩ | ⟨c, hc, hinfix, herror⟩
  · have hbefore : ((read t tags).dropFinalUnlessIr t u).dropRootInitial.fault = none := by
      rw [fault_dropRootInitial, fault_dropFinalUnlessIr, fault_read]
    rw [run_of_ok hok, fault_conclude]
    rcases fault_dropSuffixInitial hbefore u with
      ⟨hfault, hinitial⟩ | ⟨hsuffix, c, hc, hhead, hfault⟩
    · rw [pratyaya_before_initial hok] at hinitial
      refine .inl ⟨hfault, fun c hmarks => ?_⟩
      rcases hmarks with ⟨hc, hinfix⟩ | ⟨hsuffix, hc, hhead⟩
      · exact hnone c hc hinfix
      · exact hinitial hsuffix c hc hhead
    · rw [pratyaya_before_initial hok] at hsuffix
      exact .inr ⟨c, .inr ⟨hsuffix, hc, hhead⟩, hfault⟩
  · exact .inr ⟨c, .inl ⟨hc, hinfix⟩, run_of_error herror u⟩

end Stripping

namespace Derivation

open Stripping

theorem exists_failed_replay (i : Int) (s : Stripping) (d : Derivation) (fault : Fault) :
    (∃ e, d.replay i s = .failed fault e) ↔ s.fault = some fault := by
  unfold replay
  dsimp only
  split
  · rename_i hnone
    simp [hnone]
  · rename_i fault' hfault
    simp [hfault, eq_comm]

-- The markers of a term cannot be dropped just if a nasal vowel of its text, or the initial of
-- its taught form if it is a suffix, is to be dropped and marks nothing. The fault names this
-- sound.
theorem dropMarkers_fails_iff (d : Derivation) (i : Int) :
    ((∃ fault e, d.dropMarkers i = .failed fault e) ↔
      ∃ t u c, d.term? i = some t ∧ t.upadesha = some u ∧ MarksNothing t u c) ∧
    ∀ fault e, d.dropMarkers i = .failed fault e →
      ∃ t u c, d.term? i = some t ∧ t.upadesha = some u ∧ MarksNothing t u c ∧
        fault = .notMarker [c] := by
  have hnames : ∀ fault e, d.dropMarkers i = .failed fault e →
      ∃ t u c, d.term? i = some t ∧ t.upadesha = some u ∧ MarksNothing t u c ∧
        fault = .notMarker [c] := by
    intro fault e hfailed
    rcases ht : d.term? i with _ | t
    · rw [dropMarkers_of_none ht] at hfailed
      cases hfailed
    · rcases hu : t.upadesha with _ | u
      · simp [dropMarkers, ht, hu] at hfailed
      · rw [dropMarkers_of_taught ht hu] at hfailed
        have hfault := (exists_failed_replay i _ d fault).mp ⟨e, hfailed⟩
        rcases run_fault_cases t u with ⟨hnone, -⟩ | ⟨c, hmarks, hsome⟩
        · cases hnone.symm.trans hfault
        · cases hsome.symm.trans hfault
          exact ⟨t, u, c, rfl, hu, hmarks, rfl⟩
  refine ⟨⟨?_, ?_⟩, hnames⟩
  · rintro ⟨fault, e, hfailed⟩
    obtain ⟨t, u, c, ht, hu, hmarks, -⟩ := hnames fault e hfailed
    exact ⟨t, u, c, ht, hu, hmarks⟩
  · rintro ⟨t, u, c, ht, hu, hmarks⟩
    rcases run_fault_cases t u with ⟨-, hno⟩ | ⟨c', -, hsome⟩
    · exact absurd hmarks (hno c)
    · obtain ⟨e, he⟩ := (exists_failed_replay i _ d _).mpr hsome
      exact ⟨_, e, by rw [dropMarkers_of_taught ht hu, he]⟩

-- A suffix jas has no nasal vowel, and still does not lose its markers.
theorem dropMarkers_fails_at_initial_j :
    ¬∀ (d : Derivation) (i : Int) (fault : Fault) (e : Derivation),
      d.dropMarkers i = .failed fault e →
        ∃ t, d.term? i = some t ∧ ∃ c ∈ markless, [c, '~'] <:+: t.text.beforeIr := by
  intro h
  have hfailed : (Derivation.mk [(Term.ofUpadesha "jas".toList).addTag .pratyaya] [] [] [] [] true
      .standard).dropMarkers 0 = .failed (.notMarker ['j'])
        ⟨[(Term.ofUpadesha "jas".toList).addTag .pratyaya], [], [], [], [], true, .standard⟩ := rfl
  obtain ⟨t, ht, c, hc, hinfix⟩ := h _ 0 _ _ hfailed
  cases ht
  have hnone : ∀ c ∈ markless, ¬[c, '~'] <:+: Text.beforeIr "jas".toList := by decide
  exact hnone c hc hinfix

end Derivation

end Vyakarana
