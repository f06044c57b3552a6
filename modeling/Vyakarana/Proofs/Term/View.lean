import Mathlib.Data.List.Basic
import Vyakarana.Proofs.Term.Tags
import Vyakarana.Term.View

/-!
Views of a row.

A view that starts in a row runs on to the first term that is no augment; where only augments are
left it shows the first of them alone. To every question it gives the answer of one term, which has
the texts of its terms one after the other and whatever any of them bears.
-/

namespace Vyakarana

namespace View

section Row

variable {augments rest row : List Term} {x : Term}

-- The terms of a view do not depend on where it starts.
theorem ofRow?_start (n : Nat) (row : List Term) :
    ofRow? n row = (ofRow? 0 row).map fun v => { v with start := n } := by
  cases row with
  | nil => rfl
  | cons t rest =>
      rw [ofRow?, ofRow?]
      split
      · split <;> rfl
      · rfl

theorem upToUnit?_augmented (haugments : ∀ t ∈ augments, t.hasTag .agama = true)
    (hx : x.hasTag .agama = false) :
    upToUnit? (augments ++ x :: rest) = some (augments ++ [x], rest) := by
  induction augments with
  | nil => simp [upToUnit?, hx]
  | cons t more ih =>
      rw [List.forall_mem_cons] at haugments
      rw [List.cons_append, upToUnit?, if_pos haugments.1, ih haugments.2]
      rfl

theorem upToUnit?_of_augments (h : ∀ t ∈ row, t.hasTag .agama = true) : upToUnit? row = none := by
  induction row with
  | nil => rfl
  | cons t rest ih =>
      rw [List.forall_mem_cons] at h
      rw [upToUnit?, if_pos h.1, ih h.2]
      rfl

-- The unit of a term and the augments before it.
theorem ofRow?_augmented (n : Nat) (rest : List Term)
    (haugments : ∀ t ∈ augments, t.hasTag .agama = true) (hx : x.hasTag .agama = false) :
    ∃ v, ofRow? n (augments ++ x :: rest) = some v ∧ v.units = augments ++ [x] ∧ v.last = x ∧
      v.start = n ∧ v.following = rest := by
  cases augments with
  | nil => exact ⟨⟨n, x, [], rest⟩, by simp [ofRow?, hx], rfl, rfl, rfl, rfl⟩
  | cons t more =>
      rw [List.forall_mem_cons] at haugments
      refine ⟨⟨n, t, more ++ [x], rest⟩, ?_, rfl, ?_, rfl, rfl⟩
      · rw [List.cons_append, ofRow?, if_pos haugments.1, upToUnit?_augmented haugments.2 hx]
      · simp [last]

-- An augment that no unit follows.
theorem ofRow?_of_augments (n : Nat) (h : ∀ t ∈ x :: rest, t.hasTag .agama = true) :
    ofRow? n (x :: rest) = some ⟨n, x, [], rest⟩ := by
  rw [List.forall_mem_cons] at h
  rw [ofRow?, if_pos h.1, upToUnit?_of_augments h.2]

-- A row has only augments, or it has a first term that is none.
theorem augments_or_unit (row : List Term) :
    (∀ t ∈ row, t.hasTag .agama = true) ∨
      ∃ augments x rest, row = augments ++ x :: rest ∧
        (∀ t ∈ augments, t.hasTag .agama = true) ∧ x.hasTag .agama = false := by
  cases h : row.find? (!·.hasTag .agama) with
  | none => exact .inl fun t ht => by simpa using List.find?_eq_none.mp h t ht
  | some x =>
      obtain ⟨hx, augments, rest, hrow, haugments⟩ := List.find?_eq_some_iff_append.mp h
      exact .inr ⟨augments, x, rest, hrow, fun t ht => by simpa using haugments t ht,
        by simpa using hx⟩

-- What the view from the head of a row is.
theorem ofRow?_cases (n : Nat) (hrow : row ≠ []) :
    ∃ v, ofRow? n row = some v ∧ v.start = n ∧ row = v.units ++ v.following ∧
      ((∀ t ∈ row, t.hasTag .agama = true) ∧ v.more = [] ∨
        ∃ augments x, v.units = augments ++ [x] ∧ (∀ t ∈ augments, t.hasTag .agama = true) ∧
          x.hasTag .agama = false) := by
  rcases augments_or_unit row with haugments | ⟨augments, x, rest, rfl, haugments, hx⟩
  · obtain ⟨t, rest, rfl⟩ := List.exists_cons_of_ne_nil hrow
    exact ⟨_, ofRow?_of_augments n haugments, rfl, rfl, .inl ⟨haugments, rfl⟩⟩
  · obtain ⟨v, hview, hunits, -, hstart, hfollowing⟩ := ofRow?_augmented n rest haugments hx
    refine ⟨v, hview, hstart, ?_, .inr ⟨augments, x, hunits, haugments, hx⟩⟩
    rw [hunits, hfollowing, List.append_assoc, List.singleton_append]

theorem mem_of_ofRow? {n : Nat} {v : View} (h : ofRow? n row = some v) :
    ∀ t ∈ v.units, t ∈ row := by
  have hrow : row ≠ [] := by
    rintro rfl
    cases h
  obtain ⟨w, hw, -, hcut, -⟩ := ofRow?_cases n hrow
  cases h.symm.trans hw
  intro t ht
  rw [hcut]
  exact List.mem_append_left _ ht

end Row

section Place

variable {terms : List Term} {v : View}

-- A view shows terms of the row.
theorem mem_of_at? {i : Nat} (h : at? terms i = some v) : ∀ t ∈ v.units, t ∈ terms := by
  have hrow : ofRow? i (terms.drop i) = some v := h
  exact fun t ht => List.mem_of_mem_drop (mem_of_ofRow? hrow t ht)

-- The last term is seen alone.
theorem at?_last (init : List Term) (t : Term) :
    at? (init ++ [t]) init.length = some ⟨init.length, t, [], []⟩ := by
  have hrow : at? (init ++ [t]) init.length =
      ofRow? init.length ((init ++ [t]).drop init.length) := rfl
  rw [hrow, List.drop_left, ofRow?]
  split <;> rfl

-- The stretch of a row that a view is to show: up to the first term that is no augment, or the
-- first term alone, if there are only augments from the start on.
structure ShowsUnit (v : View) (terms : List Term) : Prop where
  start_le_stop : v.start ≤ v.stop
  stop_lt : v.stop < terms.length
  units_eq : v.units = terms.extract v.start (v.stop + 1)
  following_eq : v.following = terms.drop (v.stop + 1)
  augments : ∀ i, v.start ≤ i → i < v.stop → terms[i]?.any (·.hasTag .agama) = true
  ends : if (terms.drop v.start).all (·.hasTag .agama) then v.stop = v.start
    else terms[v.stop]?.any (·.hasTag .agama) = false

theorem showsUnit_of_cut {before : List Term} (hterms : terms = before ++ (v.units ++ v.following))
    (hstart : v.start = before.length)
    (hunits : (∀ t ∈ v.units ++ v.following, t.hasTag .agama = true) ∧ v.more = [] ∨
      ∃ augments x, v.units = augments ++ [x] ∧ (∀ t ∈ augments, t.hasTag .agama = true) ∧
        x.hasTag .agama = false) : v.ShowsUnit terms := by
  have hstop : v.stop + 1 = v.start + v.units.length := rfl
  have hdrop : terms.drop v.start = v.units ++ v.following := by
    rw [hterms, hstart, List.drop_left]
  have hplace (k : Nat) : terms[v.start + k]? = (v.units ++ v.following)[k]? := by
    rw [← hdrop, List.getElem?_drop]
  have hle : v.start ≤ v.stop := Nat.le_add_right _ _
  have hlt : v.stop < terms.length := by
    rw [hterms, List.length_append, List.length_append]
    omega
  have hextract : v.units = terms.extract v.start (v.stop + 1) := by
    rw [List.extract_eq_take_drop, hdrop, hstop, Nat.add_sub_cancel_left, List.take_left]
  have hfollowing : v.following = terms.drop (v.stop + 1) := by
    rw [hstop, ← List.drop_drop, hdrop, List.drop_left]
  rcases hunits with ⟨hall, hmore⟩ | ⟨augments, x, hcut, haugments, hx⟩
  · have hlone : v.stop = v.start := by
      rw [stop, hmore]
      rfl
    refine ⟨hle, hlt, hextract, hfollowing, fun i hi hi' => absurd hi' (by omega), ?_⟩
    rw [hdrop, if_pos (List.all_eq_true.mpr hall)]
    exact hlone
  · have hlength : v.stop = v.start + augments.length := by
      rw [hcut, List.length_append, List.length_singleton] at hstop
      omega
    rw [hcut, List.append_assoc] at hplace hdrop
    refine ⟨hle, hlt, hextract, hfollowing, fun i hi hi' => ?_, ?_⟩
    · obtain ⟨k, rfl⟩ := Nat.exists_eq_add_of_le hi
      have hk : k < augments.length := by omega
      rw [hplace, List.getElem?_append_left hk, List.getElem?_eq_getElem hk]
      exact haugments _ (List.getElem_mem hk)
    · have hother : (terms.drop v.start).all (·.hasTag .agama) = false := by
        rw [hdrop, List.all_append, List.singleton_append, List.all_cons, hx, Bool.false_and,
          Bool.and_false]
      rw [hother, if_neg Bool.false_ne_true, hlength, hplace,
        List.getElem?_append_right (Nat.le_refl _), Nat.sub_self]
      exact hx

theorem at?_natCast (terms : List Term) (n : Nat) :
    at? terms n = ofRow? n (terms.drop n) := rfl

theorem at?_negSucc (terms : List Term) (n : Nat) : at? terms (.negSucc n) = none := rfl

-- There is a view from every term of the row, and it shows the unit there.
theorem exists_at? {n : Nat} (hn : n < terms.length) :
    ∃ v, at? terms n = some v ∧ v.start = n ∧ v.ShowsUnit terms := by
  have hrow : terms.drop n ≠ [] := by
    rw [Ne, List.drop_eq_nil_iff]
    omega
  obtain ⟨v, hview, hstart, hcut, hunits⟩ := ofRow?_cases n hrow
  rw [hcut] at hunits
  have hlength : (terms.take n).length = n := List.length_take_of_le (Nat.le_of_lt hn)
  refine ⟨v, hview, hstart, showsUnit_of_cut ?_ (hstart.trans hlength.symm) hunits⟩
  rw [← hcut, List.take_append_drop]

theorem at?_eq_none_iff (terms : List Term) (start : Int) :
    at? terms start = none ↔ start < 0 ∨ (terms.length : Int) ≤ start := by
  cases start with
  | negSucc n => simp [at?_negSucc, Int.negSucc_lt_zero]
  | ofNat n =>
      rw [Int.ofNat_eq_natCast]
      by_cases hn : n < terms.length
      · obtain ⟨v, hview, -⟩ := exists_at? hn
        rw [hview]
        simp only [reduceCtorEq, false_iff]
        omega
      · rw [at?_natCast, List.drop_eq_nil_of_le (Nat.le_of_not_lt hn), ofRow?]
        simp only [true_iff]
        omega

theorem showsUnit_of_at? {start : Int} (h : at? terms start = some v) :
    (v.start : Int) = start ∧ v.ShowsUnit terms := by
  cases start with
  | negSucc n => cases h
  | ofNat n =>
      have hn : n < terms.length := by
        by_contra hle
        have hnone := (at?_eq_none_iff terms n).mpr (.inr (by omega))
        cases hnone.symm.trans h
      obtain ⟨w, hview, hstart, hshows⟩ := exists_at? hn
      cases h.symm.trans hview
      exact ⟨congrArg _ hstart, hshows⟩

end Place

-- The terms of a view as one term. It is taught as the first of them is.
def fused (v : View) : Term :=
  { v.first.addTags (v.more.flatMap (·.tags)) with
    text := v.text
    lakshanas := v.units.flatMap (·.lakshanas) }

-- A view gives the answers of a term.
structure AnswersAs (v : View) (t : Term) : Prop where
  text : v.text = t.text
  isEmpty : v.isEmpty = t.isEmpty
  adi? : v.adi? = t.adi?
  antya? : v.antya? = t.antya?
  hasAdi : ∀ p, v.hasAdi p = t.hasAdi p
  hasAntya : ∀ p, v.hasAntya p = t.hasAntya p
  isTaught : ∀ u, v.isTaught u = t.isTaught u
  isTaughtIn : ∀ us, v.isTaughtIn us = t.isTaughtIn us
  hasTag : ∀ tag, v.hasTag tag = t.hasTag tag
  hasLakshana : ∀ u, v.hasLakshana u = t.hasLakshana u
  hasLakshanaIn : ∀ us, v.hasLakshanaIn us = t.hasLakshanaIn us
  hasAllTags : ∀ tags, v.hasAllTags tags = t.hasAllTags tags
  hasTagIn : ∀ tags, v.hasTagIn tags = t.hasTagIn tags

section Answers

variable (v : View)

theorem adi?_eq_head? : v.adi? = v.text.head? := List.head?_flatMap.symm

theorem antya?_eq_getLast? : v.antya? = v.text.getLast? := List.getLast?_flatMap.symm

theorem isEmpty_iff : v.isEmpty = true ↔ v.text = [] := by
  rw [isEmpty, text, List.all_eq_true, List.flatMap_eq_nil_iff]
  exact forall₂_congr fun t _ => List.isEmpty_iff

theorem adi?_eq_none_iff : v.adi? = none ↔ v.isEmpty = true := by
  rw [adi?_eq_head?, List.head?_eq_none_iff, isEmpty_iff]

theorem antya?_eq_none_iff : v.antya? = none ↔ v.isEmpty = true := by
  rw [antya?_eq_getLast?, List.getLast?_eq_none_iff, isEmpty_iff]

theorem hasTag_iff (tag : Tag) : v.hasTag tag = true ↔ ∃ t ∈ v.units, t.hasTag tag = true :=
  List.any_eq_true

theorem hasAllTags_iff (tags : List Tag) :
    v.hasAllTags tags = true ↔ ∀ tag ∈ tags, ∃ t ∈ v.units, t.hasTag tag = true := by
  rw [hasAllTags, List.all_eq_true]
  exact forall₂_congr fun tag _ => v.hasTag_iff tag

theorem hasTagIn_iff (tags : List Tag) :
    v.hasTagIn tags = true ↔ ∃ tag ∈ tags, ∃ t ∈ v.units, t.hasTag tag = true := by
  rw [hasTagIn, List.any_eq_true]
  exact exists_congr fun tag => and_congr_right fun _ => v.hasTag_iff tag

theorem isKnit_iff :
    v.isKnit = true ↔ ∃ t ∈ v.units, t.hasTag (.it .k) = true ∨ t.hasTag (.it .N) = true := by
  rw [isKnit, hasTagIn_iff]
  simp only [List.mem_cons, List.not_mem_nil, or_false, exists_eq_or_imp, exists_eq_left,
    and_or_left, exists_or]

theorem hasTag_fused (tag : Tag) : v.fused.hasTag tag = v.hasTag tag := by
  have hadded : v.fused.hasTag tag =
      ((v.more.flatMap (·.tags)).contains tag || v.first.hasTag tag) :=
    Term.hasTag_addTags _ tag v.first
  rw [hadded, List.contains_flatMap, Bool.or_comm]
  rfl

theorem hasLakshana_fused (u : Text) : v.fused.hasLakshana u = v.hasLakshana u :=
  List.contains_flatMap

-- It does not matter whether the names or the terms are gone through first.
theorem hasLakshanaIn_eq (us : List Text) : v.hasLakshanaIn us = us.any v.hasLakshana := by
  rw [Bool.eq_iff_iff, hasLakshanaIn]
  simp only [Term.hasLakshanaIn, hasLakshana, Term.hasLakshana, List.any_eq_true]
  constructor
  · rintro ⟨t, ht, u, hu, hhas⟩
    exact ⟨u, hu, t, ht, hhas⟩
  · rintro ⟨u, hu, t, ht, hhas⟩
    exact ⟨t, ht, u, hu, hhas⟩

theorem answersAs_fused : v.AnswersAs v.fused := by
  have hadi : v.adi? = v.fused.adi? := v.adi?_eq_head?
  have hantya : v.antya? = v.fused.antya? := v.antya?_eq_getLast?
  have htaught : v.fused.upadesha = v.first.upadesha := Term.upadesha_addTags _ v.first
  have htag : v.hasTag = v.fused.hasTag := funext fun tag => (v.hasTag_fused tag).symm
  have hlakshana : v.hasLakshana = v.fused.hasLakshana :=
    funext fun u => (v.hasLakshana_fused u).symm
  refine ⟨rfl, ?_, hadi, hantya, fun p => congrArg p.accepts hadi,
    fun p => congrArg p.accepts hantya, fun u => ?_, fun us => ?_, congrFun htag,
    congrFun hlakshana, fun us => ?_, fun tags => ?_, fun tags => ?_⟩
  · rw [Bool.eq_iff_iff, isEmpty_iff]
    exact List.isEmpty_iff.symm
  · rw [isTaught, Term.isTaught, Term.isTaught, htaught]
  · rw [isTaughtIn, Term.isTaughtIn, Term.isTaughtIn, htaught]
  · rw [hasLakshanaIn_eq, hlakshana]
    rfl
  · rw [hasAllTags, htag, Term.hasAllTags]
  · rw [hasTagIn, htag, Term.hasTagIn]

end Answers

-- There is a view from every place in the row, and from no other; it shows the unit there. The
-- first and the last sound of a view are those of its text, it bears what any of its terms bears,
-- and whatever it is asked it answers as one term would.
theorem acts_as_one_term (terms : List Term) (start : Int) :
    (at? terms start = none ↔ start < 0 ∨ (terms.length : Int) ≤ start) ∧
    (∀ v, at? terms start = some v → (v.start : Int) = start ∧ v.ShowsUnit terms) ∧
    ∀ v : View,
      v.text = (v.units.map (·.text)).flatten ∧
      v.adi? = v.text.head? ∧ (v.adi? = none ↔ v.isEmpty = true) ∧
      v.antya? = v.text.getLast? ∧ (v.antya? = none ↔ v.isEmpty = true) ∧
      (∀ tag, v.hasTag tag = true ↔ ∃ t ∈ v.units, t.hasTag tag = true) ∧
      (∀ u, v.hasLakshana u = true ↔ ∃ t ∈ v.units, t.hasLakshana u = true) ∧
      (∀ tags, v.hasAllTags tags = true ↔
        ∀ tag ∈ tags, ∃ t ∈ v.units, t.hasTag tag = true) ∧
      (∀ tags, v.hasTagIn tags = true ↔
        ∃ tag ∈ tags, ∃ t ∈ v.units, t.hasTag tag = true) ∧
      (v.isKnit = true ↔
        ∃ t ∈ v.units, t.hasTag (.it .k) = true ∨ t.hasTag (.it .N) = true) ∧
      v.AnswersAs v.fused := by
  refine ⟨at?_eq_none_iff terms start, fun v => showsUnit_of_at?, fun v => ?_⟩
  exact ⟨List.flatMap_def, v.adi?_eq_head?, v.adi?_eq_none_iff, v.antya?_eq_getLast?,
    v.antya?_eq_none_iff, v.hasTag_iff, fun u => List.any_eq_true, v.hasAllTags_iff,
    v.hasTagIn_iff, v.isKnit_iff, v.answersAs_fused⟩

-- A root, and the suffix sya with its augment.
def augmentedSya : List Term :=
  [.ofRoot "BU".toList 1 none, (Term.ofAgama "iw".toList).setText ['i'], .ofUpadesha "sya".toList]

theorem augmentedSya_acts_as_one_term :
    ∃ v, at? augmentedSya 1 = some v ∧ v.stop = 2 ∧ v.text = "isya".toList ∧
      (v.start : Int) = 1 ∧ v.ShowsUnit augmentedSya :=
  ⟨_, rfl, rfl, rfl, (acts_as_one_term augmentedSya 1).2.1 _ rfl⟩

end View

end Vyakarana
