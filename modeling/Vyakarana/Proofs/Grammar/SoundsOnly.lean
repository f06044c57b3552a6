import Vyakarana.Proofs.Derivation.Rest
import Vyakarana.Proofs.Grammar.Joining

/-!
Where sounds meet, only sounds change.

The rules that join vowels and consonants write at positions of the running text, each of which is
found again in some term. Whatever they write, the row has the same terms in the same order, alike
but for their text, and so is all that stands beside the row. Among vowels nothing but vowels and
semivowels is exchanged, as long as the augment Aw has no other sounds: the rule for it looks at the
vowel that follows, and not at the sound that it gives up.
-/

namespace Vyakarana

-- The vowels, and the semivowels that they turn into and come from.
def Sound.isFluid (c : Char) : Bool := isAc c || "yvrl".toList.contains c

-- The other sounds of a text, in their order.
def Text.sturdy (t : Text) : Text := t.filter (!Sound.isFluid ·)

section Splices

variable {row : List Term} {k : Nat} {sub : Text}

-- The sound at a position is one of the sounds of its owner.
theorem mem_of_locate? {i place : Nat} {c : Char} (h : locate? row k = some (i, place))
    (hc : (row.flatMap (·.text))[k]? = some c) : ∃ t, row[i]? = some t ∧ c ∈ t.text := by
  induction row generalizing k i with
  | nil => cases h
  | cons t rest ih =>
      rw [locate?] at h
      rw [List.flatMap_cons] at hc
      split at h
      · rename_i hk
        cases h
        rw [List.getElem?_append_left hk] at hc
        exact ⟨t, rfl, List.mem_of_getElem? hc⟩
      · rename_i hk
        obtain ⟨⟨j, place'⟩, hrest, heq⟩ := Option.map_eq_some_iff.mp h
        cases heq
        rw [List.getElem?_append_right (Nat.le_of_not_lt hk)] at hc
        exact ih hrest hc

theorem map_elide_spliceTerms (row : List Term) (k : Nat) (sub : Text) :
    (spliceTerms row k sub).map Term.elide = row.map Term.elide := by
  induction row generalizing k with
  | nil => rfl
  | cons t rest ih =>
      unfold spliceTerms
      split
      · rfl
      · rw [List.map_cons, List.map_cons, ih]

-- After a splice, a term has sounds that it had before and sounds of the substitute.
theorem exists_of_mem_spliceTerms {t : Term} (h : t ∈ spliceTerms row k sub) :
    ∃ u ∈ row, t.elide = u.elide ∧ ∀ c ∈ t.text, c ∈ u.text ∨ c ∈ sub := by
  induction row generalizing k with
  | nil => cases h
  | cons u rest ih =>
      unfold spliceTerms at h
      split at h
      · rcases List.mem_cons.mp h with rfl | h
        · refine ⟨u, List.mem_cons_self, rfl, fun c hc => ?_⟩
          simp only [Term.setText, List.mem_append] at hc
          rcases hc with (hc | hc) | hc
          · exact .inl (List.mem_of_mem_take hc)
          · exact .inr hc
          · exact .inl (List.mem_of_mem_drop hc)
        · exact ⟨t, List.mem_cons_of_mem _ h, rfl, fun c hc => .inl hc⟩
      · rcases List.mem_cons.mp h with rfl | h
        · exact ⟨t, List.mem_cons_self, rfl, fun c hc => .inl hc⟩
        · obtain ⟨v, hv, hsame⟩ := ih h
          exact ⟨v, List.mem_cons_of_mem _ hv, hsame⟩

end Splices

namespace Derivation

-- What is left of a derivation when nothing of it is heard, and nothing of what was written down
-- is read.
def muted (d : Derivation) : Derivation :=
  { d with terms := d.terms.map Term.elide, history := [], ledger := [] }

theorem silent_muted : Silent muted where
  record rule d := by
    unfold record
    split <;> rfl
  splice k sub d := by
    unfold splice
    split
    · simp only [muted, map_elide_spliceTerms]
    · rfl
  update hf i d := by
    unfold update
    split
    · simp only [muted, map_modify hf]
    · rfl

theorem silent_ledger : Silent ledger where
  record := ledger_record
  splice k sub d := ledger_eq_of_background (background_splice k sub d)
  update _ i d := ledger_eq_of_background (background_update i _ d)

-- At most one choice is written down, at the last of the optional rules.
theorem devoiceFinal_leaves (d : Derivation) :
    d.devoiceFinal.Leaves fun e => e.muted = d.muted ∧
      (e.ledger = d.ledger ∨ ∃ verdict, e.ledger = d.ledger ++ [⟨"8.4.56", verdict⟩]) := by
  rcases d.devoiceFinal_cases with heq | ⟨fault, -, heq⟩ |
    ⟨i, _, _, sub, _, -, -, -, -, -, -, -, -, heq⟩
  · rw [heq]
    exact ⟨rfl, .inl rfl⟩
  · rw [heq]
    exact ⟨rfl, .inl rfl⟩
  · rw [heq]
    rcases optionally_cases "8.4.56" (·.update i (·.setAntya [sub])) d with
      ⟨-, heq⟩ | ⟨-, heq⟩
    · rw [heq]
      refine ⟨?_, .inr ⟨.accepted, ?_⟩⟩
      · rw [silent_muted.record, silent_muted.update (Term.elide_setAntya _)]
        rfl
      · rw [silent_ledger.record, silent_ledger.update (Term.elide_setAntya _)]
        rfl
    · rw [heq]
      exact ⟨rfl, .inr ⟨.declined, rfl⟩⟩

theorem joinConsonants_leaves_muted (d : Derivation) :
    d.joinConsonants.Leaves fun e => e.muted = d.muted ∧
      (e.ledger = d.ledger ∨ ∃ verdict, e.ledger = d.ledger ++ [⟨"8.4.56", verdict⟩]) := by
  have hsilent : Silent fun e : Derivation => (e.muted, e.ledger) :=
    { record := fun rule e => by rw [silent_muted.record, silent_ledger.record]
      splice := fun k sub e => by rw [silent_muted.splice, silent_ledger.splice]
      update := fun hf i e => by rw [silent_muted.update hf, silent_ledger.update hf] }
  refine hsilent.joinConsonants (fun e he => ?_) (fun e he => ?_) fun e he => ?_
  · obtain ⟨hsame, hledger⟩ := Prod.mk.inj he
    exact ⟨hsame, .inl hledger⟩
  · obtain ⟨hsame, hledger⟩ := Prod.mk.inj he
    refine Outcome.Leaves.imp (devoiceFinal_leaves e) fun f hf => ?_
    rw [← hsame, ← hledger]
    exact hf
  · refine Outcome.Leaves.imp (hsilent.pass .nasal e) fun f hf => ?_
    obtain ⟨hsame, hledger⟩ := Prod.mk.inj hf
    rw [hsame, hledger]
    exact he

-- The terms taught as Aw have no sounds but vowels and semivowels.
def FluidAugments (d : Derivation) : Prop :=
  ∀ t ∈ d.terms, t.isTaught "Aw".toList = true → ∀ c ∈ t.text, Sound.isFluid c = true

-- Fluid sounds have been exchanged for fluid sounds.
def Blends (d e : Derivation) : Prop :=
  d.FluidAugments → e.FluidAugments ∧ e.text.sturdy = d.text.sturdy

theorem blends_self (d : Derivation) : d.Blends d := fun h => ⟨h, rfl⟩

theorem Blends.trans {d e f : Derivation} (hde : d.Blends e) (hef : e.Blends f) : d.Blends f := by
  intro hd
  obtain ⟨he, hsame⟩ := hde hd
  obtain ⟨hf, hsame'⟩ := hef he
  exact ⟨hf, hsame'.trans hsame⟩

theorem Blends.record {d e : Derivation} (h : d.Blends e) (rule : Rule) :
    d.Blends (e.record rule) := by
  unfold Blends FluidAugments at *
  rwa [terms_record, text_record]

theorem FluidAugments.splice {d : Derivation} (h : d.FluidAugments) (k : Int) {sub : Text}
    (hsub : ∀ c ∈ sub, Sound.isFluid c = true) : (d.splice k sub).FluidAugments := by
  unfold Derivation.splice
  split
  · intro t ht htaught c hc
    obtain ⟨u, hu, hsame, hsounds⟩ := exists_of_mem_spliceTerms ht
    have hupadesha : u.upadesha = t.upadesha :=
      calc u.upadesha = u.elide.upadesha := rfl
        _ = t.elide.upadesha := by rw [hsame]
    rcases hsounds c hc with hc | hc
    · exact h u hu (by rw [Term.isTaught, hupadesha]; exact htaught) c hc
    · exact hsub c hc
  · exact h

end Derivation

-- The sound at a site belongs to a term of the row.
theorem Site.mem_owner {s : Site} (hs : s.Current) {x : Char} (hx : s.here? = some x) {t : Term}
    (ht : s.owner? = some t) : t ∈ s.derivation.terms ∧ x ∈ t.text := by
  obtain ⟨i, hi, hget⟩ := Option.bind_eq_some_iff.mp ht
  obtain ⟨k, hk, hplace⟩ := Option.bind_eq_some_iff.mp hi
  cases hk
  obtain ⟨⟨j, place⟩, hlocate, rfl⟩ := Option.map_eq_some_iff.mp hplace
  rw [here?, hs] at hx
  obtain ⟨u, hu, hmem⟩ := mem_of_locate? hlocate hx
  cases hget.symm.trans hu
  exact ⟨List.mem_of_getElem? hget, hmem⟩

namespace Site

variable {s : Site} {x y : Char} {sub : Text}

theorem sturdy_exchange {before mid after : Text} (hmid : ∀ c ∈ mid, Sound.isFluid c = true)
    (hsub : ∀ c ∈ sub, Sound.isFluid c = true) :
    (before ++ sub ++ after).sturdy = (before ++ mid ++ after).sturdy := by
  have hnone {t : Text} (ht : ∀ c ∈ t, Sound.isFluid c = true) : t.sturdy = [] :=
    List.filter_eq_nil_iff.mpr fun c hc => by simp [ht c hc]
  have hsplit (t : Text) :
      (before ++ t ++ after).sturdy = before.sturdy ++ t.sturdy ++ after.sturdy := by
    simp only [Text.sturdy, List.filter_append]
  rw [hsplit, hsplit, hnone hmid, hnone hsub]

theorem blends_replace (hs : s.Current) (hx : s.here? = some x) (hfluid : Sound.isFluid x = true)
    (hsub : ∀ c ∈ sub, Sound.isFluid c = true) : s.derivation.Blends (s.replace sub) := by
  intro h
  obtain ⟨before, after, htext, -, -, hreplace⟩ := cut_here hs hx
  refine ⟨h.splice _ hsub, ?_⟩
  rw [hreplace, ← hs, htext, List.append_cons]
  exact sturdy_exchange (by simpa using hfluid) hsub

theorem blends_merge (hs : s.Current) (hx : s.here? = some x) (hy : s.next? = some y)
    (hfluidx : s.derivation.FluidAugments → Sound.isFluid x = true)
    (hfluidy : Sound.isFluid y = true) (hsub : ∀ c ∈ sub, Sound.isFluid c = true) :
    s.derivation.Blends (s.merge sub) := by
  intro h
  obtain ⟨before, after, htext, -, -, hmerge⟩ := cut_pair hs hx hy
  have hdropped : (s.replaceNext []).FluidAugments :=
    h.splice _ fun c hc => absurd hc List.not_mem_nil
  refine ⟨hdropped.splice _ hsub, ?_⟩
  have hpair : before ++ x :: y :: after = before ++ [x, y] ++ after := by simp
  rw [hmerge, ← hs, htext, hpair]
  exact sturdy_exchange (by simp [hfluidx h, hfluidy]) hsub

end Site

namespace SoundRule

open Sound

-- Where the rule applies, it exchanges fluid sounds.
def Blends (r : SoundRule) : Prop :=
  ∀ s, s.Current → r.applies s = true → s.derivation.Blends (r.act s).1

theorem isFluid_of_isAc {c : Char} (h : isAc c = true) : isFluid c = true := by
  rw [isFluid, h, Bool.true_or]

-- The grades of the vowels are fluid.
theorem isFluid_vrddhi {y : Char} (h : isAc y = true) :
    ∀ c ∈ (vrddhi? y).getD [], isFluid c = true := by
  have hall : ∀ y ∈ SoundClass.ac.sounds, ∀ c ∈ (vrddhi? y).getD [], isFluid c = true :=
    SoundClass.forall_ofText (by decide)
  exact hall y (List.contains_iff_mem.mp h)

theorem blends_augmentVrddhi : augmentVrddhi.Blends := by
  intro s hs happlies
  obtain ⟨x, y, t, hx, hy, hac, ht, htaught, -, hact⟩ := acts_augmentVrddhi happlies
  obtain ⟨hmem, hsound⟩ := Site.mem_owner hs hx ht
  rw [hact]
  exact (Site.blends_merge hs hx hy (fun h => h t hmem htaught x hsound) (isFluid_of_isAc hac)
    (isFluid_vrddhi hac)).record _

theorem blends_dropYv : dropYv.Blends := by
  intro s hs happlies
  obtain ⟨x, hyv, hx, hact⟩ := acts_dropYv happlies
  have hfluid : ∀ x ∈ ['y', 'v'], isFluid x = true := by decide
  rw [hact]
  exact (Site.blends_replace hs hx (hfluid x hyv) (by simp)).record _

theorem blends_absorbA : absorbA.Blends := by
  intro s hs happlies
  obtain ⟨y, hx, -, -, hact⟩ := acts_absorbA happlies
  rw [hact]
  exact (Site.blends_replace hs hx (by decide) (by simp)).record _

-- A vowel of `C` before another one gives way to fluid sounds.
theorem blends_replaceVowel {rule : Rule} {C : SoundClass} {sub : Char → Text}
    (hsub : ∀ x ∈ C.sounds, isFluid x = true ∧ ∀ c ∈ sub x, isFluid c = true) :
    (forPair rule (fun x y => C.contains x && isAc y) fun s x _ => s.replace (sub x)).Blends := by
  intro s hs happlies
  obtain ⟨x, y, hx, -, hpair, hact⟩ := acts_forPair happlies
  obtain ⟨hC, -⟩ := (Bool.and_eq_true _ _).mp hpair
  obtain ⟨hfluid, hsub⟩ := hsub x (List.contains_iff_mem.mp hC)
  rw [hact]
  exact (Site.blends_replace hs hx hfluid hsub).record rule

theorem blends_mergeSavarna : mergeSavarna.Blends := by
  intro s hs happlies
  obtain ⟨x, y, hx, hy, hpair, hact⟩ := acts_forPair happlies
  simp only [Bool.and_eq_true] at hpair
  have hak : ∀ x ∈ SoundClass.ak.sounds, isFluid x = true ∧
      ∀ c ∈ (dirgha? x).toList, isFluid c = true := SoundClass.forall_ofText (by decide)
  obtain ⟨hfluid, hsub⟩ := hak x (List.contains_iff_mem.mp hpair.1.1)
  obtain ⟨hfluidy, -⟩ := hak y (List.contains_iff_mem.mp hpair.1.2)
  rw [show mergeSavarna.act s = _ from hact]
  exact (Site.blends_merge hs hx hy (fun _ => hfluid) hfluidy hsub).record _

theorem blends_mergeAfterA : mergeAfterA.Blends := by
  intro s hs happlies
  have hA : ∀ x ∈ ['a', 'A'], isFluid x = true := by decide
  obtain ⟨x, y, sub, rule, hx, hy, ha, -, ⟨hfluid, hsub⟩, hact⟩ :=
    acts_mergeAfterA (P := fun y sub => isFluid y = true ∧ ∀ c ∈ sub, isFluid c = true)
      (SoundClass.forall_ofText (by decide)) (SoundClass.forall_ofText (by decide)) happlies
  rw [hact]
  exact (Site.blends_merge hs hx hy (fun _ => hA x (by simpa [isA] using ha)) hfluid hsub).record _

theorem blends_of_mem_vowelRules {r : SoundRule} (h : r ∈ vowelRules) : r.Blends := by
  simp only [vowelRules, List.mem_cons, List.not_mem_nil, or_false] at h
  rcases h with rfl | rfl | rfl | rfl | rfl | rfl | rfl
  · exact blends_augmentVrddhi
  · exact blends_dropYv
  · exact blends_absorbA
  · exact blends_replaceVowel (SoundClass.forall_ofText (by decide))
  · exact blends_mergeSavarna
  · exact blends_replaceVowel (SoundClass.forall_ofText (by decide))
  · exact blends_mergeAfterA

end SoundRule

namespace Derivation

theorem RestsInTurn.blends {d e : Derivation} (h : RestsInTurn SoundRule.vowelRules d e) :
    d.Blends e :=
  h.relates_where blends_self (fun _ _ _ => Blends.trans) fun _ hr =>
    ⟨(SoundRule.restsInBound_of_mem hr).idle, SoundRule.blends_of_mem_vowelRules hr⟩

-- The vowels come to rest, and nothing is written down; the consonants do, or are cut short for want
-- of an articulation, and one choice at most is. Either way nothing but what is heard has changed.
-- Where vowels are joined, the sounds other than vowels and semivowels stay as they are, if there
-- are none of them in the augment.
theorem joining_changes_sounds_only (d : Derivation) :
    (∃ e, d.joinVowels = .done e ∧ e.muted = d.muted ∧ e.ledger = d.ledger ∧
      (d.FluidAugments → e.text.sturdy = d.text.sturdy)) ∧
    d.joinConsonants.Leaves fun e => e.muted = d.muted ∧
      (e.ledger = d.ledger ∨ ∃ verdict, e.ledger = d.ledger ++ [⟨"8.4.56", verdict⟩]) := by
  refine ⟨?_, d.joinConsonants_leaves_muted⟩
  obtain ⟨e, hdone, hturn⟩ := d.joinVowels_rests
  obtain ⟨f, hdone', hsame⟩ := silent_muted.joinVowels d
  obtain ⟨g, hdone'', hledger⟩ := silent_ledger.joinVowels d
  cases hdone.symm.trans hdone'
  cases hdone.symm.trans hdone''
  exact ⟨e, hdone, hsame, hledger, fun h => (hturn.blends h).2⟩

end Derivation

end Vyakarana
