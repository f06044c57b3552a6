import Mathlib.Order.Bounds.Basic
import Vyakarana.Proofs.Derivation.Sweeps

/-!
The calls that a sweep makes.

A look through the text calls the rule where it applies, until a call reports a change. The calls
before that one may leave steps in the history, but they leave the terms as they are, so that the
change is made at the first offset of the text at which the rule has anything to change. A sweep that
ends makes as many such changes as it counts, and where it ends no offset is left for another one. It
does end if something becomes less from each change to the next.
-/

namespace Vyakarana

-- The site at `k` of the running text, as it is now.
def Derivation.site (d : Derivation) (k : Nat) : Site := ⟨d, d.text, k⟩

theorem Derivation.text_eq_of_terms {d e : Derivation} (h : d.terms = e.terms) :
    d.text = e.text := by
  rw [Derivation.text, Derivation.text, h]

namespace SoundRule

variable {r : SoundRule} {d e mid : Derivation} {limit n k start length : Nat} {text : Text}

-- The call of the rule at a site reports a change.
def reports (r : SoundRule) (s : Site) : Bool := (r.act s).2

-- The rule applies at `k`, and changes something there.
def Fires (r : SoundRule) (d : Derivation) (k : Nat) : Prop :=
  r.applies (d.site k) = true ∧ r.reports (d.site k) = true

-- Whether the rule applies, what it reports and what it makes of the terms depends on the terms and
-- the offset alone. Without reporting a change it leaves the terms as they are, though it may take
-- steps.
structure ReadsTerms (r : SoundRule) : Prop where
  applies : ∀ (d e : Derivation) k, d.terms = e.terms →
    r.applies (d.site k) = r.applies (e.site k)
  reports : ∀ (d e : Derivation) k, d.terms = e.terms →
    r.reports (d.site k) = r.reports (e.site k)
  changes : ∀ (d e : Derivation) k, d.terms = e.terms →
    (r.act (d.site k)).1.terms = (r.act (e.site k)).1.terms
  tacit : ∀ (d : Derivation) k, r.reports (d.site k) = false →
    (r.act (d.site k)).1.terms = d.terms

-- The sites at which a look through the text calls the rule.
def scanCalls (r : SoundRule) (text : Text) : List Nat → Derivation → List Site
  | [], _ => []
  | offset :: rest, d =>
    let site : Site := ⟨d, text, offset⟩
    if r.applies site then
      if r.reports site then [site] else site :: r.scanCalls text rest (r.act site).1
    else r.scanCalls text rest d

-- The calls of a look through the whole text.
def look (r : SoundRule) (d : Derivation) : List Site :=
  r.scanCalls d.text (List.range d.text.length) d

-- The calls of a sweep, look by look.
def calls (r : SoundRule) : Nat → Derivation → List Site
  | 0, d => r.look d
  | limit + 1, d => r.look d ++ if (r.scanAll d).2 then r.calls limit (r.scanAll d).1 else []

-- Each call acts on what the call before has left, and the last one leaves `e`.
def Chained (r : SoundRule) : Derivation → List Site → Derivation → Prop
  | d, [], e => d = e
  | d, s :: rest, e => s.derivation = d ∧ Chained r (r.act s).1 rest e

-- The rule is called at a site of the text as it is by then. If it changes something, it could have
-- changed nothing at an earlier site.
structure Called (r : SoundRule) (s : Site) : Prop where
  current : s.Current
  applies : r.applies s = true
  least : r.reports s = true → IsLeast {k | k < s.text.length ∧ r.Fires s.derivation k} s.offset

theorem Chained.append {before after : List Site} (h : Chained r d before mid)
    (h' : Chained r mid after e) : Chained r d (before ++ after) e := by
  induction before generalizing d with
  | nil =>
      cases h
      exact h'
  | cons s rest ih => exact ⟨h.1, ih h.2⟩

section Look

variable (offsets : List Nat)

theorem scan_passing (h : ¬r.applies ⟨d, text, k⟩ = true) :
    r.scan text (k :: offsets) d = r.scan text offsets d ∧
      r.scanCalls text (k :: offsets) d = r.scanCalls text offsets d := by
  rw [scan, scanCalls, if_neg h, if_neg h]
  exact ⟨rfl, rfl⟩

theorem scan_tacit (h : r.applies ⟨d, text, k⟩ = true) (hr : r.reports ⟨d, text, k⟩ = false) :
    r.scan text (k :: offsets) d = r.scan text offsets (r.act ⟨d, text, k⟩).1 ∧
      r.scanCalls text (k :: offsets) d =
        ⟨d, text, k⟩ :: r.scanCalls text offsets (r.act ⟨d, text, k⟩).1 := by
  rw [scan, scanCalls, if_pos h, if_pos h, hr]
  rw [reports] at hr
  rcases hact : r.act ⟨d, text, k⟩ with ⟨unchanged, reported⟩
  rw [hact] at hr
  dsimp only at hr
  subst hr
  exact ⟨rfl, rfl⟩

theorem scan_reporting (h : r.applies ⟨d, text, k⟩ = true) (hr : r.reports ⟨d, text, k⟩ = true) :
    r.scan text (k :: offsets) d = ((r.act ⟨d, text, k⟩).1, true) ∧
      r.scanCalls text (k :: offsets) d = [⟨d, text, k⟩] := by
  rw [scan, scanCalls, if_pos h, if_pos h, hr]
  rw [reports] at hr
  rcases hact : r.act ⟨d, text, k⟩ with ⟨changed, reported⟩
  rw [hact] at hr
  dsimp only at hr
  subst hr
  exact ⟨rfl, rfl⟩

theorem chained_scan (text : Text) (offsets : List Nat) (d : Derivation) :
    Chained r d (r.scanCalls text offsets d) (r.scan text offsets d).1 := by
  induction offsets generalizing d with
  | nil => rfl
  | cons k rest ih =>
      by_cases happlies : r.applies ⟨d, text, k⟩ = true
      · by_cases hreports : r.reports ⟨d, text, k⟩ = true
        · obtain ⟨hscan, hcalls⟩ := scan_reporting rest happlies hreports
          rw [hscan, hcalls]
          exact ⟨rfl, rfl⟩
        · obtain ⟨hscan, hcalls⟩ :=
            scan_tacit rest happlies (Bool.eq_false_iff.mpr hreports)
          rw [hscan, hcalls]
          exact ⟨rfl, ih _⟩
      · obtain ⟨hscan, hcalls⟩ := scan_passing rest happlies
        rw [hscan, hcalls]
        exact ih d

theorem chained_look {reported : Bool} (h : r.scanAll d = (e, reported)) :
    Chained r d (r.look d) e := by
  have hchained := chained_scan (r := r) d.text (List.range d.text.length) d
  rwa [show r.scan d.text _ d = (e, reported) from h] at hchained

theorem calls_of_still (h : r.scanAll d = (e, false)) (limit : Nat) :
    r.calls limit d = r.look d := by
  cases limit with
  | zero => rfl
  | succ limit => rw [calls, h, if_neg Bool.false_ne_true, List.append_nil]

theorem calls_of_change (h : r.scanAll d = (e, true)) (limit : Nat) :
    r.calls (limit + 1) d = r.look d ++ r.calls limit e := by
  rw [calls, h, if_pos rfl]

theorem countP_quiet {quiet : List Site} (h : ∀ s ∈ quiet, r.Called s ∧ r.reports s = false) :
    quiet.countP r.reports = 0 :=
  List.countP_eq_zero.mpr fun s hs hreports => by
    rw [(h s hs).2] at hreports
    cases hreports

theorem account_of_still
    (h : ∃ f, r.scanAll d = (f, false) ∧ f.terms = d.terms ∧
      (∀ s ∈ r.look d, r.Called s ∧ r.reports s = false) ∧ ∀ k, k < f.text.length → ¬r.Fires f k)
    (hsweep : r.sweep? limit d = some (e, n)) :
    Chained r d (r.calls limit d) e ∧ (r.calls limit d).countP r.reports = n ∧
      (∀ s ∈ r.calls limit d, r.Called s) ∧ ∀ k, k < e.text.length → ¬r.Fires e k := by
  obtain ⟨f, hscan, -, hquiet, hnone⟩ := h
  rw [sweep?_of_still hscan] at hsweep
  cases hsweep
  rw [calls_of_still hscan]
  exact ⟨chained_look hscan, countP_quiet hquiet, fun s hs => (hquiet s hs).1, hnone⟩

end Look

namespace ReadsTerms

variable (h : r.ReadsTerms)
include h

theorem fires_congr (hterms : d.terms = e.terms) : r.Fires d k ↔ r.Fires e k := by
  rw [Fires, Fires, h.applies d e k hterms, h.reports d e k hterms]

-- Where the rule does not fire the look goes on with the same terms, be it after a call or without.
theorem scan_of_quiet (hquiet : ¬r.Fires d k) (offsets : List Nat) :
    ∃ before e, (∀ s ∈ before, r.Called s ∧ r.reports s = false) ∧ e.terms = d.terms ∧
      r.scan d.text (k :: offsets) d = r.scan d.text offsets e ∧
      r.scanCalls d.text (k :: offsets) d = before ++ r.scanCalls d.text offsets e := by
  by_cases happlies : r.applies (d.site k) = true
  · have hreports : r.reports (d.site k) = false := Bool.eq_false_iff.mpr fun hreports =>
      hquiet ⟨happlies, hreports⟩
    have hcalled : r.Called (d.site k) :=
      ⟨rfl, happlies, fun hreport => absurd ⟨happlies, hreport⟩ hquiet⟩
    obtain ⟨hscan, hcalls⟩ := scan_tacit offsets happlies hreports
    exact ⟨[d.site k], _, List.forall_mem_singleton.mpr ⟨hcalled, hreports⟩, h.tacit d k hreports,
      hscan, hcalls⟩
  · obtain ⟨hscan, hcalls⟩ := scan_passing offsets happlies
    exact ⟨[], d, List.forall_mem_nil _, rfl, hscan, hcalls⟩

-- A look through a stretch of the text passes over all of it, or ends with the first offset at which
-- the rule fires. The calls before that report nothing.
theorem look_cases (htext : text = d.text) (start length : Nat) :
    ∃ quiet : List Site, (∀ s ∈ quiet, r.Called s ∧ r.reports s = false) ∧
      ((∃ e, r.scan text (List.range' start length) d = (e, false) ∧
          r.scanCalls text (List.range' start length) d = quiet ∧ e.terms = d.terms ∧
          ∀ k, start ≤ k → k < start + length → ¬r.Fires d k) ∨
        ∃ mid k, r.scan text (List.range' start length) d = ((r.act (mid.site k)).1, true) ∧
          r.scanCalls text (List.range' start length) d = quiet ++ [mid.site k] ∧
          mid.terms = d.terms ∧ k < start + length ∧ r.Fires mid k ∧
          ∀ j, start ≤ j → j < k → ¬r.Fires d j) := by
  induction length generalizing start d with
  | zero => exact ⟨[], by simp, .inl ⟨d, rfl, rfl, rfl, fun k hk hk' => by omega⟩⟩
  | succ length ih =>
      rw [List.range'_succ]
      subst htext
      by_cases hfires : r.Fires d start
      · obtain ⟨hscan, hcalls⟩ :=
          scan_reporting (List.range' (start + 1) length) hfires.1 hfires.2
        exact ⟨[], by simp, .inr ⟨d, start, hscan, hcalls, rfl, by omega, hfires,
          fun j hj hj' => by omega⟩⟩
      · obtain ⟨before, d', hbefore, hterms, hscan, hcalls⟩ :=
          h.scan_of_quiet hfires (List.range' (start + 1) length)
        -- What is found from the next offset on is found from this one on.
        have hmore {k : Nat} (hrest : ∀ j, start + 1 ≤ j → j < k → ¬r.Fires d' j) :
            ∀ j, start ≤ j → j < k → ¬r.Fires d j := by
          intro j hj hjk
          by_cases hstart : j = start
          · rwa [hstart]
          · rw [← h.fires_congr hterms]
            exact hrest j (by omega) hjk
        obtain ⟨quiet, hall, hcases⟩ := ih (Derivation.text_eq_of_terms hterms.symm) (start + 1)
        refine ⟨before ++ quiet, List.forall_mem_append.mpr ⟨hbefore, hall⟩, ?_⟩
        rw [hscan, hcalls, show start + (length + 1) = start + 1 + length by omega]
        rcases hcases with ⟨e, hrest, hothers, heq, hnone⟩ |
          ⟨mid, k, hrest, hothers, heq, hk, hfires', hfirst⟩
        · exact .inl ⟨e, hrest, congrArg _ hothers, heq.trans hterms, hmore hnone⟩
        · refine .inr ⟨mid, k, hrest, ?_, heq.trans hterms, hk, hfires', hmore hfirst⟩
          rw [hothers, List.append_assoc]

-- A look through the whole text finds nothing at which the rule fires, or its last call reports a
-- change.
theorem account_of_look (d : Derivation) :
    (∃ e, r.scanAll d = (e, false) ∧ e.terms = d.terms ∧
        (∀ s ∈ r.look d, r.Called s ∧ r.reports s = false) ∧
        ∀ k, k < e.text.length → ¬r.Fires e k) ∨
      ∃ quiet s, r.scanAll d = ((r.act s).1, true) ∧ r.look d = quiet ++ [s] ∧
        (∀ s ∈ quiet, r.Called s ∧ r.reports s = false) ∧ r.Called s ∧ r.reports s = true ∧
        s.offset < d.text.length ∧ r.Fires d s.offset ∧
        (r.act s).1.terms = (r.act (d.site s.offset)).1.terms := by
  obtain ⟨quiet, hall, hcases⟩ := h.look_cases rfl 0 d.text.length
  rw [← List.range_eq_range', Nat.zero_add] at hcases
  rcases hcases with ⟨e, hscan, hcalls, hterms, hnone⟩ |
    ⟨mid, k, hscan, hcalls, hterms, hk, hfires, hfirst⟩
  · refine .inl ⟨e, hscan, hterms, ?_, fun k hk => ?_⟩
    · rw [look, hcalls]
      exact hall
    · rw [h.fires_congr hterms]
      rw [Derivation.text_eq_of_terms hterms] at hk
      exact hnone k (Nat.zero_le k) hk
  · refine .inr ⟨quiet, mid.site k, hscan, hcalls, hall,
      ⟨rfl, hfires.1, fun _ => ⟨⟨?_, hfires⟩, ?_⟩⟩, hfires.2, hk, (h.fires_congr hterms).mp hfires,
      h.changes mid d k hterms⟩
    · rwa [Derivation.site, Derivation.text_eq_of_terms hterms]
    · rintro j ⟨-, hj⟩
      by_contra hlt
      exact hfirst j (Nat.zero_le j) (Nat.lt_of_not_le hlt) ((h.fires_congr hterms).mp hj)

-- The calls of a sweep that ends.
theorem account_of_sweep (hsweep : r.sweep? limit d = some (e, n)) :
    Chained r d (r.calls limit d) e ∧ (r.calls limit d).countP r.reports = n ∧
      (∀ s ∈ r.calls limit d, r.Called s) ∧ ∀ k, k < e.text.length → ¬r.Fires e k := by
  induction limit generalizing d n with
  | zero =>
      rcases h.account_of_look d with hquiet | ⟨quiet, s, hscan, -⟩
      · exact account_of_still hquiet hsweep
      · rw [sweep?_zero_of_change hscan] at hsweep
        cases hsweep
  | succ limit ih =>
      rcases h.account_of_look d with hquiet | ⟨quiet, s, hscan, hcalls, hall, hs, hreports, -⟩
      · exact account_of_still hquiet hsweep
      · rw [sweep?_of_change hscan] at hsweep
        obtain ⟨⟨e', m⟩, hlater, heq⟩ := Option.map_eq_some_iff.mp hsweep
        cases heq
        obtain ⟨hchained, hcount, hcalled, hnone⟩ := ih hlater
        rw [calls_of_change hscan]
        refine ⟨(chained_look hscan).append hchained, ?_, ?_, hnone⟩
        · rw [hcalls, List.countP_append, List.countP_append, countP_quiet hall, hcount,
            List.countP_singleton, if_pos hreports]
          omega
        · rw [hcalls]
          intro s' hs'
          rcases List.mem_append.mp hs' with hs' | hs'
          · rcases List.mem_append.mp hs' with hs' | hs'
            · exact (hall s' hs').1
            · rwa [List.mem_singleton.mp hs']
          · exact hcalled s' hs'

-- Where the rule fires nowhere, another sweep ends with its first look.
theorem sweep?_again (hnone : ∀ k, k < e.text.length → ¬r.Fires e k) :
    ∃ f, (∀ limit, r.sweep? limit e = some (f, 0)) ∧ f.terms = e.terms := by
  rcases h.account_of_look e with ⟨f, hscan, hterms, -⟩ | ⟨quiet, s, -, -, -, -, -, hs, hfires, -⟩
  · exact ⟨f, sweep?_of_still hscan, hterms⟩
  · exact absurd hfires (hnone s.offset hs)

-- What becomes less wherever the rule fires becomes less from each change to the next.
theorem changes_lt (μ : List Term → Nat)
    (hμ : ∀ d k, r.Fires d k → μ (r.act (d.site k)).1.terms < μ d.terms)
    (hchanges : r.Changes d e) : μ e.terms < μ d.terms := by
  rcases h.account_of_look d with
    ⟨f, hscan, -⟩ | ⟨quiet, s, hscan, -, -, -, -, -, hfires, hterms⟩
  · cases hscan.symm.trans hchanges
  · cases hscan.symm.trans hchanges
    rw [hterms]
    exact hμ d s.offset hfires

end ReadsTerms

-- A sweep that ends with `n` has called the rule, each time on what was left by the call before, and
-- just `n` of these calls reported a change, each at the first offset of the text of that time at
-- which the rule could change anything. At the end there is no such offset, so that another sweep
-- makes no change. A sweep does end if something becomes less with every change that is reported.
theorem sweep_ends_at_rest (h : r.ReadsTerms) (d : Derivation) :
    (∀ limit e n, r.sweep? limit d = some (e, n) →
      Chained r d (r.calls limit d) e ∧ (r.calls limit d).countP r.reports = n ∧
        (∀ s ∈ r.calls limit d, r.Called s) ∧ (∀ k, k < e.text.length → ¬r.Fires e k) ∧
        ∃ f, (∀ again, r.sweep? again e = some (f, 0)) ∧ f.terms = e.terms) ∧
    ∀ μ : Derivation → Nat,
      (∀ f f', Relation.ReflTransGen r.Changes d f → r.Changes f f' → μ f' < μ f) →
      ∃ e n, n ≤ μ d ∧ ∀ limit, n ≤ limit → r.sweep? limit d = some (e, n) := by
  refine ⟨fun limit e n hsweep => ?_, fun μ hμ => sweep?_of_measure μ d hμ⟩
  obtain ⟨hchained, hcount, hcalled, hnone⟩ := h.account_of_sweep hsweep
  exact ⟨hchained, hcount, hcalled, hnone, h.sweep?_again hnone⟩

end SoundRule

theorem Derivation.terms_splice_congr {d e : Derivation} (h : d.terms = e.terms) (k : Int)
    (sub : Text) : (d.splice k sub).terms = (e.splice k sub).terms := by
  unfold Derivation.splice
  split
  · simp only [h]
  · exact h

theorem PatternRule.terms_makeEdits_congr (r : PatternRule) (k : Nat) {d e : Derivation}
    (h : d.terms = e.terms) : (r.makeEdits k d).terms = (r.makeEdits k e).terms := by
  obtain ⟨rule, patterns, edits⟩ := r
  induction edits generalizing d e with
  | nil => exact h
  | cons edit rest ih => exact ih (Derivation.terms_splice_congr h _ _)

-- A rule given by patterns reads nothing but the text.
theorem PatternRule.readsTerms (r : PatternRule) : r.soundRule.ReadsTerms := by
  constructor
  · intro d e k h
    show matchesAt r.patterns (d.text.drop k) = matchesAt r.patterns (e.text.drop k)
    rw [Derivation.text_eq_of_terms h]
  · exact fun _ _ _ _ => rfl
  · intro d e k h
    show ((r.makeEdits k d).record r.rule).terms = ((r.makeEdits k e).record r.rule).terms
    rw [Derivation.terms_record, Derivation.terms_record]
    exact r.terms_makeEdits_congr k h
  · intro d k h
    have hnone : r.edits = [] := List.isEmpty_iff.mp ((Bool.not_eq_false' r.edits.isEmpty).mp h)
    show ((r.makeEdits k d).record r.rule).terms = d.terms
    rw [Derivation.terms_record, PatternRule.makeEdits, hnone]
    rfl

-- Where a rule given by patterns fires, there is a sound that the first pattern accepts.
theorem PatternRule.head_of_fires {r : PatternRule} {first : Pattern} {others : List Pattern}
    (hpatterns : r.patterns = first :: others) {d : Derivation} {k : Nat}
    (h : r.soundRule.Fires d k) : ∃ c, d.text[k]? = some c ∧ first.accepts (some c) = true := by
  have hmatches : matchesAt (first :: others) (d.text.drop k) = true := hpatterns ▸ h.1
  cases hdrop : d.text.drop k with
  | nil =>
      rw [hdrop] at hmatches
      cases hmatches
  | cons c rest =>
      rw [hdrop, matchesAt, List.zip_cons_cons, List.all_cons] at hmatches
      refine ⟨c, ?_, (Bool.and_eq_true_iff.mp (Bool.and_eq_true_iff.mp hmatches).2).1⟩
      rw [← List.head?_drop, hdrop, List.head?_cons]

namespace SoundRule

-- A stop is devoiced before t, and so is the one before it: the second change is to the left of the
-- first one, and the terms without text do not show. There are no more changes than voiced stops.
theorem sweep_spreads_leftwards :
    ∃ (r : PatternRule) (d e : Derivation), d.text = "ddt".toList ∧
      (∀ limit, 2 ≤ limit → r.soundRule.sweep? limit d = some (e, 2)) ∧ e.text = "ttt".toList ∧
      (r.soundRule.calls 2 d).map (·.offset) = [1, 0] ∧
      (r.soundRule.calls 2 d).countP r.soundRule.reports = 2 ∧
      (∀ k, k < e.text.length → ¬r.soundRule.Fires e k) ∧
      ∃ f, (∀ again, r.soundRule.sweep? again e = some (f, 0)) ∧ f.terms = e.terms := by
  let r : PatternRule :=
    ⟨"8.4.55", [.exactly "d".toList, .exactly "t".toList], [(0, "t".toList)]⟩
  let d : Derivation :=
    ⟨[.ofText "d".toList, .ofText [], .ofText "dt".toList], [], [], [], [], true, .standard⟩
  let voiced (c : Char) : Nat := if c = 'd' then 1 else 0
  have hspent (d : Derivation) (k : Nat) (hfires : r.soundRule.Fires d k) :
      Text.weight voiced (r.soundRule.act (d.site k)).1.text < Text.weight voiced d.text := by
    obtain ⟨c, hc, haccepts⟩ := PatternRule.head_of_fires rfl hfires
    obtain rfl : 'd' = c := (List.cons.inj (eq_of_beq haccepts)).1
    have hweight := Derivation.weight_splice voiced d hc "t".toList
    have hact : (r.soundRule.act (d.site k)).1.text = (d.splice k "t".toList).text :=
      Derivation.text_record _ _
    have hd : voiced 'd' = 1 := rfl
    have ht : Text.weight voiced "t".toList = 0 := rfl
    rw [hact]
    omega
  have hresult : (r.soundRule.sweep? 2 d).map (fun x => (x.1.text, x.2)) =
      some ("ttt".toList, 2) := by decide +kernel
  obtain ⟨⟨e, n⟩, hsweep, heq⟩ := Option.map_eq_some_iff.mp hresult
  obtain ⟨htext, rfl⟩ : e.text = "ttt".toList ∧ n = 2 := Prod.mk.inj heq
  obtain ⟨hends, hmeasure⟩ := sweep_ends_at_rest r.readsTerms d
  obtain ⟨-, hcount, -, hnone, hagain⟩ := hends 2 e 2 hsweep
  obtain ⟨e', n, hn, hlimit⟩ := hmeasure (fun d => Text.weight voiced d.text) fun f f' _ hchanges =>
    r.readsTerms.changes_lt (fun ts => Text.weight voiced (ts.flatMap Term.text)) hspent hchanges
  cases (hlimit 2 hn).symm.trans hsweep
  exact ⟨r, d, e, by decide +kernel, hlimit, htext, by decide +kernel, hcount, hnone, hagain⟩

end SoundRule

end Vyakarana
