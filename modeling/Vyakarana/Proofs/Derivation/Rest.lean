import Vyakarana.Proofs.Derivation.Sweeps

/-!
What a sweep leaves.

An act of a sound rule is seen as a cut of the running text around the sounds that it replaces. A
property of the text that every act keeps is still there when the rule has come to rest, and by
then the rule has nothing left to change.
-/

namespace Vyakarana

-- A splice in a text that is cut around the sound replaced.
theorem Derivation.text_splice_of_cut {d : Derivation} {before after : Text} {x : Char}
    (h : d.text = before ++ x :: after) {k : Nat} (hk : before.length = k) (sub : Text) :
    (d.splice k sub).text = before ++ sub ++ after := by
  have hlt : k < d.text.length := by
    rw [h, List.length_append, List.length_cons]
    omega
  rw [text_splice d hlt, h, ← hk]
  simp

namespace Site

variable {s : Site} {x y : Char}

-- The text is cut around the sound at the site.
theorem cut_here (hs : s.Current) (hx : s.here? = some x) :
    ∃ before after, s.text = before ++ x :: after ∧ s.prev? = before.getLast? ∧
      s.next? = after.head? ∧ ∀ sub, (s.replace sub).text = before ++ sub ++ after := by
  obtain ⟨hk, hget⟩ := List.getElem?_eq_some_iff.mp hx
  have hcut : s.text = s.text.take s.offset ++ x :: s.text.drop (s.offset + 1) := by
    rw [← hget, List.getElem_cons_drop, List.take_append_drop]
  have hlength : (s.text.take s.offset).length = s.offset := by
    rw [List.length_take, Nat.min_eq_left (Nat.le_of_lt hk)]
  refine ⟨s.text.take s.offset, s.text.drop (s.offset + 1), hcut, ?_, ?_, fun sub => ?_⟩
  · rw [prev?]
    split
    · rename_i hzero
      rw [hzero, List.take_zero, List.getLast?_nil]
    · rw [List.getLast?_eq_getElem?, hlength, List.getElem?_take_of_lt (by omega)]
  · rw [next?, List.head?_drop]
  · exact Derivation.text_splice_of_cut (hs.symm.trans hcut) hlength sub

-- The text is cut around the sound at the site and the next one.
theorem cut_pair (hs : s.Current) (hx : s.here? = some x) (hy : s.next? = some y) :
    ∃ before after, s.text = before ++ x :: y :: after ∧
      (∀ sub, (s.replace sub).text = before ++ sub ++ y :: after) ∧
      (∀ sub, (s.replaceNext sub).text = before ++ [x] ++ sub ++ after) ∧
      ∀ sub, (s.merge sub).text = before ++ sub ++ after := by
  obtain ⟨hk, hget⟩ := List.getElem?_eq_some_iff.mp hx
  obtain ⟨_, hget'⟩ := List.getElem?_eq_some_iff.mp hy
  have hcut : s.text = s.text.take s.offset ++ x :: y :: s.text.drop (s.offset + 2) := by
    rw [← hget', List.getElem_cons_drop, ← hget, List.getElem_cons_drop, List.take_append_drop]
  have hlength : (s.text.take s.offset).length = s.offset := by
    rw [List.length_take, Nat.min_eq_left (Nat.le_of_lt hk)]
  generalize s.text.drop (s.offset + 2) = after at hcut
  generalize s.text.take s.offset = before at hcut hlength
  have htext : s.derivation.text = before ++ x :: y :: after := hs.symm.trans hcut
  have hnext : ∀ sub, (s.replaceNext sub).text = before ++ [x] ++ sub ++ after := by
    intro sub
    have hcut' : s.derivation.text = (before ++ [x]) ++ y :: after := by
      rw [htext, List.append_assoc, List.singleton_append]
    refine Derivation.text_splice_of_cut hcut' ?_ sub
    rw [List.length_append, hlength, List.length_singleton]
  refine ⟨before, after, hcut, Derivation.text_splice_of_cut htext hlength, hnext, fun sub => ?_⟩
  have hmerged : (s.replaceNext []).text = before ++ x :: after := by
    rw [hnext, List.append_nil, List.append_assoc, List.singleton_append]
  exact Derivation.text_splice_of_cut hmerged hlength sub

end Site

namespace SoundRule

variable {r : SoundRule} {P : Text → Prop}

-- Whatever the rule changes, the text keeps the property.
def Keeps (r : SoundRule) (P : Text → Prop) : Prop :=
  ∀ s, s.Current → r.applies s = true → P s.text → P (r.act s).1.text

-- Wherever the rule applies, one sound of the text gives way to another. `P` holds of the two and of
-- the sound that follows, if there is one.
def Replaces (r : SoundRule) (P : Char → Option Char → Char → Prop) : Prop :=
  ∀ s, s.Current → r.applies s = true → ∃ before x after sub,
    s.text = before ++ x :: after ∧ P x after.head? sub ∧
      (r.act s).1.text = before ++ sub :: after

theorem replaces_recorded {P : Char → Option Char → Char → Prop} {rule : Rule}
    {applies : Site → Bool} {sub : Site → Text}
    (h : ∀ s, applies s = true → ∃ x c, s.here? = some x ∧ sub s = [c] ∧ P x s.next? c) :
    (recorded rule applies fun s => s.replace (sub s)).Replaces P := by
  intro s hs happlies
  obtain ⟨x, c, hx, hsub, hP⟩ := h s happlies
  obtain ⟨before, after, htext, -, hnext, hreplace⟩ := Site.cut_here hs hx
  refine ⟨before, x, after, c, htext, hnext ▸ hP, ?_⟩
  rw [recorded, Derivation.text_record, hreplace, hsub, List.append_assoc, List.singleton_append]

theorem Replaces.keeps {P : Char → Option Char → Char → Prop} {Q : Text → Prop}
    (h : r.Replaces P) (hQ : ∀ before x after sub, P x (List.head? after) sub →
      Q (before ++ x :: after) → Q (before ++ sub :: after)) : r.Keeps Q := by
  intro s hs happlies hkept
  obtain ⟨before, x, after, sub, htext, hP, hact⟩ := h s hs happlies
  rw [htext] at hkept
  rw [hact]
  exact hQ before x after sub hP hkept

-- The rule does nothing without reporting it.
def Idle (r : SoundRule) : Prop := ∀ s, (r.act s).2 = false → (r.act s).1 = s.derivation

-- What relates a derivation to whatever the rule makes of it where it applies.
theorem Rests.relates_where {R : Derivation → Derivation → Prop} (hidle : r.Idle)
    (hrefl : ∀ d, R d d) (htrans : ∀ d e f, R d e → R e f → R d f)
    (hact : ∀ s, s.Current → r.applies s = true → R s.derivation (r.act s).1) {d e : Derivation}
    (hrests : r.Rests d e) : R d e := by
  induction hrests with
  | @still d e hscan =>
      rcases scan_cases hidle d.text (List.range d.text.length) d with hsame | ⟨k, -, -, hact⟩
      · have heq := hsame.symm.trans hscan
        cases heq
        exact hrefl d
      · cases hact.symm.trans hscan
  | @again d changed e hscan _ ih =>
      rcases scan_cases hidle d.text (List.range d.text.length) d with
        hsame | ⟨k, happlies, -, hscan'⟩
      · cases hsame.symm.trans hscan
      · have heq := hscan'.symm.trans hscan
        cases heq
        exact htrans _ _ _ (hact ⟨d, d.text, k⟩ rfl happlies) ih

-- A rule that puts a lighter sound in the place of another uses up what the sounds weigh.
theorem Replaces.spends {P : Char → Option Char → Char → Prop} {w : Char → Nat}
    (h : r.Replaces P) (hidle : r.Idle) (hw : ∀ x y sub, P x y sub → w sub < w x) :
    r.Spends w where
  idle := hidle
  pays s hs happlies _ := by
    obtain ⟨before, x, after, sub, htext, hP, hact⟩ := h s hs happlies
    have hless := hw x _ sub hP
    rw [hact, htext, Text.weight_append, Text.weight_append, Text.weight_cons, Text.weight_cons]
    omega

theorem Rests.keeps (hidle : r.Idle) (h : r.Keeps P) {d e : Derivation} (hrests : r.Rests d e)
    (hP : P d.text) : P e.text :=
  hrests.relates_where (R := fun d e => P d.text → P e.text) hidle (fun _ h => h)
    (fun _ _ _ hde hef h => hef (hde h))
    (fun s hs happlies hP => h s hs happlies (hs.symm ▸ hP)) hP

-- A look that changes nothing has passed over all its offsets.
theorem still_of_scan {text : Text} {offsets : List Nat} {d e : Derivation} (hidle : r.Idle)
    (h : r.scan text offsets d = (e, false)) :
    e = d ∧ ∀ k ∈ offsets, r.applies ⟨d, text, k⟩ = true → (r.act ⟨d, text, k⟩).2 = false := by
  induction offsets with
  | nil =>
      cases h
      exact ⟨rfl, fun k hk => absurd hk List.not_mem_nil⟩
  | cons k rest ih =>
      by_cases happlies : r.applies ⟨d, text, k⟩ = true
      · rcases hact : r.act ⟨d, text, k⟩ with ⟨changed, reported⟩
        rw [scan, if_pos happlies, hact] at h
        cases reported with
        | true => cases h
        | false =>
            have hkept := hidle ⟨d, text, k⟩ (by rw [hact])
            rw [hact] at hkept
            dsimp only at hkept h
            rw [hkept] at h
            obtain ⟨heq, hlater⟩ := ih h
            refine ⟨heq, List.forall_mem_cons.mpr ⟨fun _ => by rw [hact], hlater⟩⟩
      · rw [scan, if_neg happlies] at h
        obtain ⟨heq, hlater⟩ := ih h
        exact ⟨heq, List.forall_mem_cons.mpr ⟨fun hyes => absurd hyes happlies, hlater⟩⟩

-- At rest the rule applies nowhere, or only where it changes nothing.
theorem Rests.at_rest {d e : Derivation} (hidle : r.Idle) (hrests : r.Rests d e) :
    ∀ k < e.text.length, r.applies ⟨e, e.text, k⟩ = true → (r.act ⟨e, e.text, k⟩).2 = false := by
  induction hrests with
  | @still d e hscan =>
      obtain ⟨rfl, hall⟩ := still_of_scan hidle hscan
      exact fun k hk => hall k (List.mem_range.mpr hk)
  | again _ _ ih => exact ih

end SoundRule

end Vyakarana
