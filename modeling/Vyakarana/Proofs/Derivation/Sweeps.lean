import Mathlib.Logic.Relation
import Vyakarana.Derivation.PatternRule
import Vyakarana.Proofs.Basic

/-!
Sweeps that come to rest.

`SoundRule.Rests` is a sweep without a limit: the rule looks through the text again and again,
until a look changes nothing. A limit only cuts such a sweep off. It comes to rest from every
derivation if each change of the rule takes away some of the weight of the text, and then the
weight at the beginning bounds the number of changes.
-/

namespace Vyakarana

namespace Text

-- Each sound of a text weighs something.
def weight (w : Char → Nat) : Text → Nat
  | [] => 0
  | c :: rest => w c + weight w rest

@[simp] theorem weight_nil (w : Char → Nat) : weight w [] = 0 := rfl

@[simp] theorem weight_cons (w : Char → Nat) (c : Char) (t : Text) :
    weight w (c :: t) = w c + weight w t := rfl

theorem weight_append (w : Char → Nat) (s t : Text) :
    weight w (s ++ t) = weight w s + weight w t := by
  induction s with
  | nil => simp
  | cons c rest ih =>
      rw [List.cons_append, weight_cons, weight_cons, ih]
      omega

theorem weight_le (w : Char → Nat) {bound : Nat} (h : ∀ c, w c ≤ bound) (t : Text) :
    weight w t ≤ t.length * bound := by
  induction t with
  | nil => simp
  | cons c rest ih =>
      have hc := h c
      rw [weight_cons, List.length_cons, Nat.succ_mul]
      omega

-- What a single sound weighs is exchanged for what its substitute weighs.
theorem weight_substitute (w : Char → Nat) {t : Text} {k : Nat} {c : Char}
    (h : t[k]? = some c) (sub : Text) :
    weight w (t.take k ++ sub ++ t.drop (k + 1)) + w c = weight w t + weight w sub := by
  obtain ⟨hk, rfl⟩ := List.getElem?_eq_some_iff.mp h
  have hsplit : t = t.take k ++ (t[k] :: t.drop (k + 1)) := by
    rw [List.getElem_cons_drop, List.take_append_drop]
  have hw := congrArg (weight w) hsplit
  rw [weight_append, weight_cons] at hw
  rw [weight_append, weight_append]
  omega

end Text

namespace SoundClass

-- Weighs the sounds of the class and no others.
def marks (C : SoundClass) (c : Char) : Nat := if C.contains c then 1 else 0

theorem marks_le (C : SoundClass) (c : Char) : C.marks c ≤ 1 := by
  unfold marks
  split <;> omega

theorem marks_lt {C : SoundClass} {x sub : Char} (hx : C.contains x = true)
    (hsub : C.contains sub = false) : C.marks sub < C.marks x := by
  rw [marks, marks, if_pos hx, hsub]
  exact Nat.one_pos

theorem weight_marks_eq_zero {C : SoundClass} {t : Text} (h : ∀ c ∈ t, C.contains c = false) :
    Text.weight C.marks t = 0 := by
  induction t with
  | nil => rfl
  | cons c rest ih =>
      rw [List.forall_mem_cons] at h
      rw [Text.weight_cons, ih h.2, marks, h.1]
      rfl

end SoundClass

namespace Derivation

theorem text_splice (d : Derivation) {k : Nat} (hk : k < d.text.length) (sub : Text) :
    (d.splice k sub).text = d.text.take k ++ sub ++ d.text.drop (k + 1) :=
  flatMap_spliceTerms d.terms k sub hk

theorem weight_splice (w : Char → Nat) (d : Derivation) {k : Nat} {c : Char}
    (h : d.text[k]? = some c) (sub : Text) :
    Text.weight w (d.splice k sub).text + w c = Text.weight w d.text + Text.weight w sub := by
  rw [text_splice d (List.getElem?_eq_some_iff.mp h).1]
  exact Text.weight_substitute w h sub

end Derivation

namespace Site

-- The text that was looked at is still the text of the derivation.
def Current (s : Site) : Prop := s.text = s.derivation.text

theorem weight_replace (w : Char → Nat) {s : Site} (hs : s.Current) {x : Char}
    (hx : s.here? = some x) (sub : Text) :
    Text.weight w (s.replace sub).text + w x = Text.weight w s.text + Text.weight w sub := by
  rw [here?, hs] at hx
  rw [hs]
  exact Derivation.weight_splice w s.derivation hx sub

theorem weight_replaceNext (w : Char → Nat) {s : Site} (hs : s.Current) {y : Char}
    (hy : s.next? = some y) (sub : Text) :
    Text.weight w (s.replaceNext sub).text + w y =
      Text.weight w s.text + Text.weight w sub := by
  rw [next?, hs] at hy
  rw [hs]
  exact Derivation.weight_splice w s.derivation hy sub

theorem weight_merge (w : Char → Nat) {s : Site} (hs : s.Current) {x y : Char}
    (hx : s.here? = some x) (hy : s.next? = some y) (sub : Text) :
    Text.weight w (s.merge sub).text + w x + w y =
      Text.weight w s.text + Text.weight w sub := by
  have hnext := weight_replaceNext w hs hy []
  have hkept : (s.replaceNext []).text[s.offset]? = some x := by
    rw [next?, hs] at hy
    rw [here?, hs] at hx
    obtain ⟨hk, -⟩ := List.getElem?_eq_some_iff.mp hy
    have hlt : s.offset < s.derivation.text.length := by omega
    rw [replaceNext, Derivation.text_splice _ hk, List.append_nil,
      List.getElem?_append_left (by simp; omega), List.getElem?_take_of_lt (by omega), hx]
  have hhere := Derivation.weight_splice w (s.replaceNext []) hkept sub
  rw [Text.weight_nil] at hnext
  rw [merge]
  omega

section

variable {s : Site} {C : SoundClass} {sub : Text}

theorem weight_replace_lt (hs : s.Current) {x : Char} (hx : s.here? = some x)
    (hC : C.contains x = true) (hsub : ∀ c ∈ sub, C.contains c = false) :
    Text.weight C.marks (s.replace sub).text < Text.weight C.marks s.text := by
  have hw := weight_replace C.marks hs hx sub
  rw [SoundClass.weight_marks_eq_zero hsub] at hw
  have hmark : C.marks x = 1 := by rw [SoundClass.marks, if_pos hC]
  omega

end

end Site

namespace SoundRule

-- A sweep without a limit.
inductive Rests (r : SoundRule) : Derivation → Derivation → Prop
  | still {d e : Derivation} (h : r.scanAll d = (e, false)) : Rests r d e
  | again {d changed e : Derivation} (h : r.scanAll d = (changed, true))
      (later : Rests r changed e) : Rests r d e

theorem sweep?_of_still {r : SoundRule} {d e : Derivation} (h : r.scanAll d = (e, false))
    (limit : Nat) : r.sweep? limit d = some (e, 0) := by
  unfold sweep?
  rw [h]

theorem sweep?_of_change {r : SoundRule} {d changed : Derivation}
    (h : r.scanAll d = (changed, true)) (limit : Nat) :
    r.sweep? (limit + 1) d = (r.sweep? limit changed).map fun (e, n) => (e, n + 1) := by
  conv_lhs => unfold sweep?
  rw [h]

theorem sweep?_zero_of_change {r : SoundRule} {d changed : Derivation}
    (h : r.scanAll d = (changed, true)) : r.sweep? 0 d = none := by
  unfold sweep?
  rw [h]

theorem rests_of_sweep? {r : SoundRule} {limit n : Nat} {d e : Derivation}
    (h : r.sweep? limit d = some (e, n)) : r.Rests d e := by
  induction limit generalizing d n with
  | zero =>
      rcases hscan : r.scanAll d with ⟨changed, reported⟩
      cases reported with
      | false =>
          rw [sweep?_of_still hscan] at h
          cases h
          exact .still hscan
      | true => rw [sweep?_zero_of_change hscan] at h; cases h
  | succ limit ih =>
      rcases hscan : r.scanAll d with ⟨changed, reported⟩
      cases reported with
      | false =>
          rw [sweep?_of_still hscan] at h
          cases h
          exact .still hscan
      | true =>
          rw [sweep?_of_change hscan] at h
          obtain ⟨⟨e', m⟩, hlater, heq⟩ := Option.map_eq_some_iff.mp h
          cases heq
          exact .again hscan (ih hlater)

section

-- What relates a derivation to what any single act makes of it.
variable {r : SoundRule} {R : Derivation → Derivation → Prop} (hrefl : ∀ d, R d d)
  (htrans : ∀ d e f, R d e → R e f → R d f) (hact : ∀ s, R s.derivation (r.act s).1)
include hrefl htrans hact

theorem scan_relates (text : Text) (offsets : List Nat) (d : Derivation) :
    R d (r.scan text offsets d).1 := by
  induction offsets generalizing d with
  | nil => exact hrefl d
  | cons k rest ih =>
      unfold scan
      by_cases happlies : r.applies ⟨d, text, k⟩ = true
      · have hone := hact ⟨d, text, k⟩
        rw [if_pos happlies]
        split
        · rename_i changed heq
          rw [heq] at hone
          exact hone
        · rename_i unchanged heq
          rw [heq] at hone
          exact htrans _ _ _ hone (ih unchanged)
      · rw [if_neg happlies]
        exact ih d

theorem Rests.relates {d e : Derivation} (hrests : r.Rests d e) : R d e := by
  induction hrests with
  | @still d e hscan =>
      have hall := scan_relates hrefl htrans hact d.text (List.range d.text.length) d
      rwa [show r.scan d.text _ d = (e, false) from hscan] at hall
  | @again d changed e hscan _ ih =>
      have hall := scan_relates hrefl htrans hact d.text (List.range d.text.length) d
      rw [show r.scan d.text _ d = (changed, true) from hscan] at hall
      exact htrans _ _ _ hall ih

end

-- A limit that is not too low does not show in the result.
theorem Rests.sweep? {r : SoundRule} {d e : Derivation} (h : r.Rests d e) :
    ∃ n, ∀ limit, n ≤ limit → r.sweep? limit d = some (e, n) := by
  induction h with
  | still h => exact ⟨0, fun limit _ => sweep?_of_still h limit⟩
  | again h later ih =>
      obtain ⟨n, hn⟩ := ih
      refine ⟨n + 1, fun limit hlimit => ?_⟩
      obtain ⟨rest, rfl⟩ : ∃ rest, limit = rest + 1 := ⟨limit - 1, by omega⟩
      rw [sweep?_of_change h, hn rest (by omega)]
      rfl

-- What a derivation is right after the next change that the rule reports.
def Changes (r : SoundRule) (d e : Derivation) : Prop := r.scanAll d = (e, true)

-- A sweep ends if from each change to the next something becomes less, and it makes no more changes
-- than there was of that at the beginning.
theorem sweep?_of_measure {r : SoundRule} (μ : Derivation → Nat) (d : Derivation)
    (hμ : ∀ f f', Relation.ReflTransGen r.Changes d f → r.Changes f f' → μ f' < μ f) :
    ∃ e n, n ≤ μ d ∧ ∀ limit, n ≤ limit → r.sweep? limit d = some (e, n) := by
  induction hm : μ d using Nat.strong_induction_on generalizing d with
  | _ m ih =>
      rcases hscan : r.scanAll d with ⟨f, reported⟩
      cases reported with
      | false => exact ⟨f, 0, Nat.zero_le m, fun limit _ => sweep?_of_still hscan limit⟩
      | true =>
          have hless : μ f < m := hm ▸ hμ d f .refl hscan
          obtain ⟨e, n, hn, hlater⟩ := ih (μ f) hless f
            (fun g g' hg => hμ g g' (.head hscan hg)) rfl
          refine ⟨e, n + 1, by omega, fun limit hlimit => ?_⟩
          obtain ⟨rest, rfl⟩ : ∃ rest, limit = rest + 1 := ⟨limit - 1, by omega⟩
          rw [sweep?_of_change hscan, hlater rest (by omega)]
          rfl

-- A rule that uses up what it is about: it does nothing without reporting it, and each
-- change takes away some of the weight.
structure Spends (r : SoundRule) (w : Char → Nat) : Prop where
  idle : ∀ s, (r.act s).2 = false → (r.act s).1 = s.derivation
  pays : ∀ s, s.Current → r.applies s = true → (r.act s).2 = true →
    Text.weight w (r.act s).1.text < Text.weight w s.text

-- A look through the text changes nothing, or it is one act of the rule.
theorem scan_cases {r : SoundRule}
    (idle : ∀ s, (r.act s).2 = false → (r.act s).1 = s.derivation) (text : Text)
    (offsets : List Nat) (d : Derivation) :
    r.scan text offsets d = (d, false) ∨
      ∃ k, r.applies ⟨d, text, k⟩ = true ∧ (r.act ⟨d, text, k⟩).2 = true ∧
        r.scan text offsets d = ((r.act ⟨d, text, k⟩).1, true) := by
  induction offsets with
  | nil => exact .inl rfl
  | cons k rest ih =>
      by_cases happlies : r.applies ⟨d, text, k⟩ = true
      · rcases hact : r.act ⟨d, text, k⟩ with ⟨changed, reported⟩
        cases reported with
        | true =>
            refine .inr ⟨k, happlies, by rw [hact], ?_⟩
            rw [scan, if_pos happlies, hact]
        | false =>
            have hidle := idle ⟨d, text, k⟩ (by rw [hact])
            rw [hact] at hidle
            rw [scan, if_pos happlies, hact]
            simp only [show changed = d from hidle]
            exact ih
      · rw [scan, if_neg happlies]
        exact ih

theorem Spends.changes_lt {r : SoundRule} {w : Char → Nat} (h : r.Spends w) {d e : Derivation}
    (hchanges : r.Changes d e) : Text.weight w e.text < Text.weight w d.text := by
  rcases scan_cases h.idle d.text (List.range d.text.length) d with
    hsame | ⟨k, happlies, hreport, hscan⟩
  · cases hsame.symm.trans hchanges
  · cases hscan.symm.trans hchanges
    exact h.pays ⟨d, d.text, k⟩ rfl happlies hreport

theorem Spends.sweep? {r : SoundRule} {w : Char → Nat} (h : r.Spends w) (d : Derivation) :
    ∃ e n, n ≤ Text.weight w d.text ∧ ∀ limit, n ≤ limit → r.sweep? limit d = some (e, n) :=
  sweep?_of_measure (fun d => Text.weight w d.text) d fun _ _ _ hchanges => h.changes_lt hchanges

-- From every derivation the rule comes to rest, within the limit.
theorem Spends.sweep_rests {r : SoundRule} {w : Char → Nat} (h : r.Spends w) {limit : Nat}
    {d : Derivation} (hlimit : Text.weight w d.text ≤ limit) :
    ∃ e, d.sweep r limit = .done e ∧ r.Rests d e := by
  obtain ⟨e, n, hn, hsweep⟩ := h.sweep? d
  refine ⟨e, ?_, rests_of_sweep? (hsweep n (Nat.le_refl n))⟩
  rw [Derivation.sweep, hsweep limit (hn.trans hlimit)]

-- A recorded rule reports every change.
theorem spends_recorded {rule : Rule} {applies : Site → Bool} {change : Site → Derivation}
    {w : Char → Nat}
    (h : ∀ s, s.Current → applies s = true →
      Text.weight w (change s).text < Text.weight w s.text) :
    (recorded rule applies change).Spends w where
  idle s hs := by cases hs
  pays s hs happlies _ := by
    rw [recorded, Derivation.text_record]
    exact h s hs happlies

end SoundRule

end Vyakarana
