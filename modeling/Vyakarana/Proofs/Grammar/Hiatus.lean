import Mathlib.Data.List.Chain
import Vyakarana.Proofs.Derivation.Rest
import Vyakarana.Proofs.Grammar.VowelSandhi

/-!
The rules for vowels in contact leave no hiatus.

A hiatus is a vowel right before a vowel. Each of the rules for two vowels removes the pairs of one
kind from the text, and none of the later rules brings such a pair back, so that in the end no pair
is left.
-/

namespace Vyakarana

namespace Text

-- No two neighbouring sounds make one of the pairs.
def Avoids (pairs : Char → Char → Bool) (t : Text) : Prop :=
  t.IsChain fun x y => pairs x y = false

instance (pairs : Char → Char → Bool) (t : Text) : Decidable (t.Avoids pairs) :=
  inferInstanceAs (Decidable (List.IsChain _ t))

-- No two neighbouring sounds are both vowels.
def HiatusFree (t : Text) : Prop := t.Avoids fun x y => Sound.isAc x && Sound.isAc y

instance (t : Text) : Decidable t.HiatusFree := inferInstanceAs (Decidable (Avoids _ t))

theorem avoids_iff {pairs : Char → Char → Bool} {t : Text} :
    t.Avoids pairs ↔ ∀ before x y after, t = before ++ x :: y :: after → pairs x y = false := by
  rw [Avoids, List.isChain_iff_forall_rel_of_append_cons_cons]
  exact ⟨fun h before x y after heq => h heq, fun h x y before after heq => h _ _ _ _ heq⟩

variable {pairs : Char → Char → Bool} {before mid sub after : Text}

-- A stretch of the text is exchanged for another one, which fits between its neighbours.
theorem Avoids.exchange (h : Avoids pairs (before ++ mid ++ after)) (hne : sub ≠ [])
    (hsub : Avoids pairs sub)
    (hfirst : ∀ w ∈ before.getLast?, ∀ c ∈ sub.head?, pairs w c = false)
    (hlast : ∀ c ∈ sub.getLast?, ∀ z ∈ after.head?, pairs c z = false) :
    Avoids pairs (before ++ sub ++ after) := by
  have hbefore : before.IsChain fun x y => pairs x y = false :=
    (List.IsChain.left_of_append h).left_of_append
  have hafter : after.IsChain fun x y => pairs x y = false := List.IsChain.right_of_append h
  refine (hbefore.append hsub hfirst).append hafter fun c hc z hz => hlast c ?_ z hz
  rwa [List.getLast?_append_of_ne_nil _ hne] at hc

-- The sounds on both sides of a cut make none of the pairs.
theorem Avoids.before_cut {w y : Char} (h : Avoids pairs (before ++ y :: after))
    (hw : w ∈ before.getLast?) : pairs w y = false :=
  (List.isChain_append.mp h).2.2 w hw y rfl

theorem Avoids.after_cut {x z : Char} (h : Avoids pairs (before ++ x :: after))
    (hz : z ∈ after.head?) : pairs x z = false :=
  (List.IsChain.right_of_append h).rel_head? hz

end Text

namespace Sound

-- Only vowels make such a pair.
def Vocalic (pairs : Char → Char → Bool) : Prop :=
  ∀ x y, pairs x y = true → isAc x = true ∧ isAc y = true

theorem Vocalic.eq_false {pairs : Char → Char → Bool} (h : Vocalic pairs) {x y : Char}
    (hxy : isAc x = false ∨ isAc y = false) : pairs x y = false := by
  by_contra hpair
  obtain ⟨hx, hy⟩ := h x y (Bool.not_eq_false _ ▸ hpair)
  rcases hxy with hno | hno
  · rw [hx] at hno
    cases hno
  · rw [hy] at hno
    cases hno

-- The pairs that the four rules for two vowels are about.
def diphthongPair (x y : Char) : Bool := SoundClass.ec.contains x && isAc y

def savarnaPair (x y : Char) : Bool :=
  SoundClass.ak.contains x && SoundClass.ak.contains y && (savarna x).contains y

def glidePair (x y : Char) : Bool := SoundClass.ik.contains x && isAc y

def gradePair (x y : Char) : Bool :=
  isA x && (SoundClass.ik.contains y || SoundClass.ec.contains y)

theorem isAc_of_mem {C : SoundClass} (hC : ∀ c ∈ C.sounds, isAc c = true) {c : Char}
    (hc : C.contains c = true) : isAc c = true :=
  hC c (List.contains_iff_mem.mp hc)

theorem vocalic_diphthongPair : Vocalic diphthongPair := by
  intro x y h
  obtain ⟨hx, hy⟩ := (Bool.and_eq_true _ _).mp h
  exact ⟨isAc_of_mem (SoundClass.forall_ofText (by decide)) hx, hy⟩

theorem vocalic_savarnaPair : Vocalic savarnaPair := by
  intro x y h
  obtain ⟨hxy, -⟩ := (Bool.and_eq_true _ _).mp h
  obtain ⟨hx, hy⟩ := (Bool.and_eq_true _ _).mp hxy
  have hak : ∀ {c}, SoundClass.ak.contains c = true → isAc c = true :=
    isAc_of_mem (SoundClass.forall_ofText (by decide))
  exact ⟨hak hx, hak hy⟩

theorem vocalic_glidePair : Vocalic glidePair := by
  intro x y h
  obtain ⟨hx, hy⟩ := (Bool.and_eq_true _ _).mp h
  exact ⟨isAc_of_mem (SoundClass.forall_ofText (by decide)) hx, hy⟩

-- Every pair of vowels is one of these.
theorem pair_of_isAc {x y : Char} (hx : isAc x = true) (hy : isAc y = true) :
    diphthongPair x y = true ∨ savarnaPair x y = true ∨ glidePair x y = true ∨
      gradePair x y = true := by
  have hall : ∀ x ∈ SoundClass.ac.sounds, ∀ y ∈ SoundClass.ac.sounds,
      diphthongPair x y = true ∨ savarnaPair x y = true ∨ glidePair x y = true ∨
        gradePair x y = true := by decide
  exact hall x (List.contains_iff_mem.mp hx) y (List.contains_iff_mem.mp hy)

end Sound

namespace Text

open Sound

-- What the first three of the rules for two vowels have removed.
structure Resolved (t : Text) : Prop where
  diphthong : t.Avoids diphthongPair
  savarna : t.Avoids savarnaPair
  glide : t.Avoids glidePair

theorem Avoids.vocalic {pairs : Char → Char → Bool} (hpairs : Vocalic pairs) {t : Text}
    (h : t.HiatusFree) : t.Avoids pairs := by
  refine List.IsChain.imp (fun x y hxy => ?_) h
  refine hpairs.eq_false ?_
  rwa [Bool.and_eq_false_iff] at hxy

-- Sounds without a vowel take the place of others.
theorem Avoids.consonants {pairs : Char → Char → Bool} (hpairs : Vocalic pairs)
    {before mid sub after : Text} (h : Avoids pairs (before ++ mid ++ after)) (hne : sub ≠ [])
    (hsub : ∀ c ∈ sub, isAc c = false) : Avoids pairs (before ++ sub ++ after) := by
  refine h.exchange hne ?_ (fun w _ c hc => ?_) fun c hc z _ => ?_
  · refine avoids_iff.mpr fun before x y after heq => hpairs.eq_false (.inl (hsub x ?_))
    rw [heq]
    simp
  · exact hpairs.eq_false (.inr (hsub c (List.mem_of_mem_head? hc)))
  · exact hpairs.eq_false (.inl (hsub c (List.mem_of_mem_getLast? hc)))

-- Between consonants, what has no hiatus makes no pair of vowels.
theorem Resolved.exchange {before mid sub after : Text}
    (h : (before ++ mid ++ after).Resolved) (hne : sub ≠ []) (hsub : sub.HiatusFree)
    (hbefore : ∀ w ∈ before.getLast?, isAc w = false)
    (hafter : ∀ z ∈ after.head?, isAc z = false) : (before ++ sub ++ after).Resolved := by
  have hexchange : ∀ pairs, Vocalic pairs → Avoids pairs (before ++ mid ++ after) →
      Avoids pairs (before ++ sub ++ after) := by
    intro pairs hpairs h
    exact h.exchange hne (.vocalic hpairs hsub)
      (fun w hw c _ => hpairs.eq_false (.inl (hbefore w hw)))
      fun c _ z hz => hpairs.eq_false (.inr (hafter z hz))
  exact ⟨hexchange _ vocalic_diphthongPair h.diphthong, hexchange _ vocalic_savarnaPair h.savarna,
    hexchange _ vocalic_glidePair h.glide⟩

-- A vowel before a or A, or after a vowel that has a grade, would make a pair that is gone.
theorem Resolved.isAc_beside {before after : Text} {x y : Char}
    (h : (before ++ x :: y :: after).Resolved) (hxy : gradePair x y = true) :
    (∀ w ∈ before.getLast?, isAc w = false) ∧ ∀ z ∈ after.head?, isAc z = false := by
  obtain ⟨hA, hclass⟩ := (Bool.and_eq_true _ _).mp hxy
  have hx : x ∈ ['a', 'A'] := by simpa [isA] using hA
  have hgradeless : ∀ x ∈ ['a', 'A'], isAc x = true ∧
      (SoundClass.ik.contains x || SoundClass.ec.contains x) = false := by decide
  obtain ⟨hxac, hno⟩ := hgradeless x hx
  refine ⟨fun w hw => ?_, fun z hz => ?_⟩
  · by_contra hac
    rcases pair_of_isAc (Bool.not_eq_false _ ▸ hac) hxac with hpair | hpair | hpair | hpair
    · rw [h.diphthong.before_cut hw] at hpair
      cases hpair
    · rw [h.savarna.before_cut hw] at hpair
      cases hpair
    · rw [h.glide.before_cut hw] at hpair
      cases hpair
    · rw [gradePair, hno, Bool.and_false] at hpair
      cases hpair
  · have hdiphthong := h.diphthong
    have hglide := h.glide
    rw [List.append_cons] at hdiphthong hglide
    rcases (Bool.or_eq_true _ _).mp hclass with hik | hec
    · have hpair := hglide.after_cut hz
      rwa [glidePair, hik, Bool.true_and] at hpair
    · have hpair := hdiphthong.after_cut hz
      rwa [diphthongPair, hec, Bool.true_and] at hpair

end Text

namespace SoundRule

open Sound

theorem keeps_forPair {rule : Rule} {applies : Char → Char → Bool}
    {change : Site → Char → Char → Derivation} {P : Text → Prop}
    (h : ∀ s x y, s.Current → s.here? = some x → s.next? = some y → applies x y = true →
      P s.text → P (change s x y).text) : (forPair rule applies change).Keeps P := by
  intro s hs happlies hP
  obtain ⟨x, y, hx, hy, hpair, hact⟩ := acts_forPair happlies
  rw [hact, Derivation.text_record]
  exact h s x y hs hx hy hpair hP

-- A rule that changes something at every pair leaves none of them.
theorem Rests.avoids {r : SoundRule} {pairs : Char → Char → Bool} (hidle : r.Idle)
    (hpairs : ∀ s x y, s.here? = some x → s.next? = some y → pairs x y = true →
      r.applies s = true ∧ (r.act s).2 = true)
    {d e : Derivation} (h : r.Rests d e) : e.text.Avoids pairs := by
  refine Text.avoids_iff.mpr fun before x y after heq => ?_
  by_contra hpair
  have hhere : (⟨e, e.text, before.length⟩ : Site).here? = some x := by
    simp [Site.here?, heq]
  have hnext : (⟨e, e.text, before.length⟩ : Site).next? = some y := by
    simp [Site.next?, heq]
  obtain ⟨happlies, hreports⟩ := hpairs _ x y hhere hnext (Bool.not_eq_false _ ▸ hpair)
  have hquiet := h.at_rest hidle before.length (by simp [heq]) happlies
  rw [hreports] at hquiet
  cases hquiet

theorem Rests.avoids_forPair {rule : Rule} {applies : Char → Char → Bool}
    {change : Site → Char → Char → Derivation} {d e : Derivation}
    (hidle : (forPair rule applies change).Idle)
    (h : (forPair rule applies change).Rests d e) : e.text.Avoids applies := by
  refine h.avoids hidle fun s x y hx hy hxy => ?_
  simp [forPair, hx, hy, hxy]

-- A vowel that turns into its semivowel makes no pair with its neighbours any more.
theorem keeps_toSemivowel {pairs : Char → Char → Bool} (hpairs : Vocalic pairs) :
    toSemivowel.Keeps (Text.Avoids pairs) := by
  refine keeps_forPair fun s x y hs hx hy happlies h => ?_
  obtain ⟨before, after, htext, hreplace, -⟩ := Site.cut_pair hs hx hy
  have hglide : ∀ x ∈ SoundClass.ik.sounds, (semivowel? x).toList ≠ [] ∧
      ∀ c ∈ (semivowel? x).toList, isAc c = false := SoundClass.forall_ofText (by decide)
  obtain ⟨hne, hconsonant⟩ :=
    hglide x (List.contains_iff_mem.mp ((Bool.and_eq_true _ _).mp happlies).1)
  rw [htext, List.append_cons] at h
  rw [hreplace]
  exact h.consonants hpairs hne hconsonant

-- The long vowel has the neighbours of the two vowels that it stands for.
theorem keeps_mergeSavarna : mergeSavarna.Keeps (Text.Avoids diphthongPair) := by
  refine keeps_forPair fun s x y hs hx hy happlies h => ?_
  obtain ⟨before, after, htext, -, -, hmerge⟩ := Site.cut_pair hs hx hy
  have hlong : ∀ x ∈ SoundClass.ak.sounds, isAc x = true ∧
      (dirgha? x).any (!SoundClass.ec.contains ·) = true := SoundClass.forall_ofText (by decide)
  simp only [Bool.and_eq_true] at happlies
  obtain ⟨hac, hnotEc⟩ := hlong x (List.contains_iff_mem.mp happlies.1.1)
  obtain ⟨long, hdirgha, hec⟩ := (Option.any_eq_true _ _).mp hnotEc
  rw [Bool.not_eq_true'] at hec
  rw [htext] at h
  rw [hmerge, hdirgha, Option.toList_some]
  have hcut : Text.Avoids diphthongPair (before ++ [x, y] ++ after) := by simpa using h
  refine hcut.exchange (List.cons_ne_nil _ _)
    (List.isChain_singleton _) (fun w hw c _ => ?_) fun c hc z _ => ?_
  · have hpair := h.before_cut hw
    rw [diphthongPair, hac, Bool.and_true] at hpair
    rw [diphthongPair, hpair, Bool.false_and]
  · obtain rfl : long = c := by simpa using hc
    rw [diphthongPair, hec, Bool.false_and]

theorem keeps_mergeAfterA : mergeAfterA.Keeps Text.Resolved := by
  intro s hs happlies h
  obtain ⟨x, y, sub, rule, hx, hy, hA, hclass, ⟨hne, hfree⟩, hact⟩ :=
    acts_mergeAfterA (P := fun _ sub => sub ≠ [] ∧ Text.HiatusFree sub)
      (SoundClass.forall_ofText (by decide)) (SoundClass.forall_ofText (by decide)) happlies
  obtain ⟨before, after, htext, -, -, hmerge⟩ := Site.cut_pair hs hx hy
  have hcut : s.text = before ++ [x, y] ++ after := by simpa using htext
  rw [htext] at h
  obtain ⟨hbefore, hafter⟩ := h.isAc_beside ((Bool.and_eq_true _ _).mpr ⟨hA, hclass⟩)
  rw [← htext, hcut] at h
  rw [hact, Derivation.text_record, hmerge]
  exact h.exchange hne hfree hbefore hafter

theorem Rests.avoids_mergeAfterA (hidle : mergeAfterA.Idle) {d e : Derivation}
    (h : mergeAfterA.Rests d e) : e.text.Avoids gradePair := by
  refine h.avoids hidle fun s x y hx hy hxy => ?_
  obtain ⟨hA, hclass⟩ := (Bool.and_eq_true _ _).mp hxy
  refine ⟨by simp [mergeAfterA, hx, hy, hA, hclass], ?_⟩
  simp only [mergeAfterA]
  split <;> rfl

end SoundRule

namespace Derivation

-- Whatever the derivation, the vowel rules leave no hiatus in it.
theorem hiatusFree_of_restsInTurn {d e : Derivation}
    (h : RestsInTurn SoundRule.vowelRules d e) : e.text.HiatusFree := by
  have hidle : ∀ r ∈ SoundRule.vowelRules, r.Idle := fun r hr =>
    (SoundRule.restsInBound_of_mem hr).idle
  simp only [SoundRule.vowelRules, List.forall_mem_cons] at hidle
  obtain ⟨-, -, -, hidleDiphthong, hidleSavarna, hidleGlide, hidleGrade, -⟩ := hidle
  obtain ⟨_, -, _, -, _, -, d₄, hdiphthong, d₅, hsavarna, d₆, hglide, d₇, hgrade, rfl⟩ := h
  have h₄ := hdiphthong.avoids_forPair hidleDiphthong
  have h₅ : d₅.text.Avoids Sound.diphthongPair ∧ d₅.text.Avoids Sound.savarnaPair :=
    ⟨hsavarna.keeps hidleSavarna SoundRule.keeps_mergeSavarna h₄,
      hsavarna.avoids_forPair hidleSavarna⟩
  have h₆ : d₆.text.Resolved :=
    ⟨hglide.keeps hidleGlide (SoundRule.keeps_toSemivowel Sound.vocalic_diphthongPair) h₅.1,
      hglide.keeps hidleGlide (SoundRule.keeps_toSemivowel Sound.vocalic_savarnaPair) h₅.2,
      hglide.avoids_forPair hidleGlide⟩
  have h₇ := hgrade.keeps hidleGrade SoundRule.keeps_mergeAfterA h₆
  have hlast := hgrade.avoids_mergeAfterA hidleGrade
  refine Text.avoids_iff.mpr fun before x y after heq => ?_
  by_contra hvowels
  obtain ⟨hx, hy⟩ := (Bool.and_eq_true _ _).mp (Bool.not_eq_false _ ▸ hvowels)
  have hnone {pairs : Char → Char → Bool} (h : Text.Avoids pairs e.text) : pairs x y ≠ true := by
    rw [Text.avoids_iff.mp h before x y after heq]
    exact Bool.false_ne_true
  rcases Sound.pair_of_isAc hx hy with hpair | hpair | hpair | hpair
  · exact hnone h₇.diphthong hpair
  · exact hnone h₇.savarna hpair
  · exact hnone h₇.glide hpair
  · exact hnone hlast hpair

end Derivation

end Vyakarana
