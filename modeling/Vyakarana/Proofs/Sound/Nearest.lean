import Vyakarana.Proofs.Basic
import Vyakarana.Sound.FeatureTable

/-!
The nearest sound, for every table of articulations.

A sound is replaced by the first of the least distant targets. Distances need not be
symmetric and may be negative when a list of places repeats one, but a sound is at distance
zero from itself, and it is nearer to no sound that has fewer places. So a target that is not its
own nearest target moves on to a target with more places, or to an earlier one with as many:
the replacements never come round to a sound again.
-/

namespace Vyakarana

namespace Articulation

theorem distance_self (a : Articulation) : a.distance a = 0 := by
  have hall : a.sthana.countP (a.sthana.contains ·) = a.sthana.length :=
    List.countP_eq_length.mpr fun p hp => List.contains_iff_mem.mpr hp
  simp only [distance, hall, if_true]
  omega

-- Nothing is nearer than the difference in the number of places.
theorem length_sthana_le (b a : Articulation) :
    (a.sthana.length : Int) - b.sthana.length ≤ b.distance a := by
  have hcount : b.sthana.countP (a.sthana.contains ·) ≤ b.sthana.length := List.countP_le_length
  unfold distance
  split_ifs <;> omega

end Articulation

theorem SoundMap.image?_cons (x y : Char) (images : SoundMap) (z : Char) :
    SoundMap.image? ((x, y) :: images) z = if z = x then some y else images.image? z := by
  rw [SoundMap.image?, List.lookup_cons]
  by_cases hz : z = x
  · simp [hz]
  · rw [beq_eq_false_iff_ne.mpr hz, if_neg hz]
    rfl

namespace FeatureTable

theorem firstLeast_eq_some {key : Articulation → Int} {candidates : List (Char × Articulation)}
    {y : Char × Articulation} (h : firstLeast key candidates = some y) :
    ∃ before after, candidates = before ++ y :: after ∧
      (∀ z ∈ before, key y.2 < key z.2) ∧ ∀ z ∈ after, key y.2 ≤ key z.2 := by
  induction candidates generalizing y with
  | nil => cases h
  | cons first rest ih =>
      rw [firstLeast] at h
      rcases hrest : firstLeast key rest with _ | best
      · rw [hrest] at h
        cases h
        have hnil : rest = [] := by
          cases rest with
          | nil => rfl
          | cons second rest =>
              rw [firstLeast] at hrest
              split at hrest
              · cases hrest
              · split at hrest <;> cases hrest
        subst hnil
        exact ⟨[], [], rfl, by simp, by simp⟩
      · obtain ⟨before, after, rfl, hbefore, hafter⟩ := ih hrest
        rw [hrest] at h
        simp only at h
        split at h
        · rename_i hless
          cases h
          exact ⟨first :: before, after, rfl, List.forall_mem_cons.mpr ⟨hless, hbefore⟩, hafter⟩
        · rename_i hless
          cases h
          refine ⟨[], before ++ best :: after, rfl, by simp, fun z hz => ?_⟩
          rcases List.mem_append.mp hz with hz | hz
          · have := hbefore z hz
            omega
          · rcases List.mem_cons.mp hz with rfl | hz
            · omega
            · have := hafter z hz
              omega

theorem firstLeast_isSome (key : Articulation → Int) (y : Char × Articulation)
    (rest : List (Char × Articulation)) : (firstLeast key (y :: rest)).isSome := by
  rw [firstLeast]
  split
  · rfl
  · split <;> rfl

-- `y` is the first of the least distant sounds of `ys` for `x`.
def Nearest (T : FeatureTable) (ys : List Char) (x y : Char) : Prop :=
  ∃ a b before after, T.features? x = some a ∧ T.features? y = some b ∧
    ys = before ++ y :: after ∧
    (∀ z ∈ before, ∃ c, T.features? z = some c ∧ b.distance a < c.distance a) ∧
    ∀ z ∈ after, ∃ c, T.features? z = some c ∧ b.distance a ≤ c.distance a

theorem Nearest.mem {T : FeatureTable} {ys : List Char} {x y : Char} (h : T.Nearest ys x y) :
    y ∈ ys := by
  obtain ⟨a, b, before, after, -, -, rfl, -, -⟩ := h
  simp

-- The table has articulations for these sounds.
def Covers (T : FeatureTable) (sounds : List Char) : Prop := ∀ c ∈ sounds, T.features? c ≠ none

-- The first of some sounds that has no articulation in the table.
def firstLacking? (T : FeatureTable) (sounds : List Char) : Option Char :=
  sounds.find? fun c => (T.features? c).isNone

theorem firstLacking?_eq_none {T : FeatureTable} {sounds : List Char} :
    T.firstLacking? sounds = none ↔ T.Covers sounds := by
  simp [firstLacking?, Covers, List.find?_eq_none]

theorem firstLacking?_append_of_covers {T : FeatureTable} {sounds : List Char}
    (h : T.Covers sounds) (more : List Char) :
    T.firstLacking? (sounds ++ more) = T.firstLacking? more := by
  rw [firstLacking?, List.find?_append, ← firstLacking?, firstLacking?_eq_none.mpr h,
    Option.none_or]
  rfl

theorem firstLacking?_append {T : FeatureTable} {sounds : List Char} {c : Char}
    (h : T.firstLacking? sounds = some c) (more : List Char) :
    T.firstLacking? (sounds ++ more) = some c := by
  rw [firstLacking?, List.find?_append, ← firstLacking?, h, Option.some_or]

theorem firstLacking?_cons_of_none {T : FeatureTable} {c : Char} (h : T.features? c = none)
    (more : List Char) : T.firstLacking? (c :: more) = some c :=
  List.find?_cons_of_pos (by rw [h]; rfl)

theorem mem_of_firstLacking? {T : FeatureTable} {sounds : List Char} {c : Char}
    (h : T.firstLacking? sounds = some c) : c ∈ sounds ∧ T.features? c = none := by
  have hnone := List.find?_some h
  exact ⟨List.mem_of_find?_eq_some h, Option.isNone_iff_eq_none.mp hnone⟩

theorem features_cases (T : FeatureTable) (c : Char) :
    (∃ a, T.features? c = some a ∧ T.features [c] = .ok a) ∨
      T.features? c = none ∧ T.features [c] = .error (.noFeatures [c]) := by
  rcases hc : T.features? c with _ | a
  · exact .inr ⟨rfl, by simp only [features, hc]⟩
  · exact .inl ⟨a, rfl, by simp only [features, hc]⟩

theorem features_of_none {T : FeatureTable} {c : Char} (h : T.features? c = none) :
    T.features [c] = .error (.noFeatures [c]) := by
  simp only [features, h]

theorem candidates_cases (T : FeatureTable) (ys : List Char) :
    (∃ candidates, ys.mapM (fun y => (T.features [y]).map (y, ·)) = .ok candidates ∧
      candidates.map (·.1) = ys ∧ ∀ p ∈ candidates, T.features? p.1 = some p.2) ∨
    ∃ c, T.firstLacking? ys = some c ∧
      ys.mapM (fun y => (T.features [y]).map (y, ·)) = .error (.noFeatures [c]) := by
  rcases mapM_first_failure (fun y => (T.features [y]).map (y, ·)) ys with
    ⟨candidates, hok, hall⟩ | ⟨before, y, after, e, rfl, hbefore, he, herror⟩
  · refine .inl ⟨candidates, hok, ?_⟩
    clear hok
    induction hall with
    | nil => simp
    | @cons y p ys candidates hp _ ih =>
        rcases features_cases T y with ⟨a, ha, hfa⟩ | ⟨-, hfy⟩
        · rw [hfa] at hp
          cases hp
          exact ⟨congrArg _ ih.1, List.forall_mem_cons.mpr ⟨ha, ih.2⟩⟩
        · rw [hfy] at hp
          cases hp
  · rcases features_cases T y with ⟨a, -, hfa⟩ | ⟨hy', hfy⟩
    · rw [hfa] at he
      cases he
    · rw [hfy] at he
      cases he
      have hcovers : T.Covers before := by
        intro c hc hnone
        obtain ⟨p, hp⟩ := hbefore c hc
        rw [features_of_none hnone] at hp
        cases hp
      refine .inr ⟨y, ?_, herror⟩
      rw [firstLacking?_append_of_covers hcovers, firstLacking?_cons_of_none hy']

theorem nearest?_cases (T : FeatureTable) (ys : SoundClass) (x : Char) :
    (∃ y?, T.nearest? ys x = .ok y? ∧ T.Covers (x :: ys.sounds) ∧
      (ys.sounds ≠ [] → y?.isSome) ∧ ∀ y ∈ y?, T.Nearest ys.sounds x y) ∨
    ∃ c, T.firstLacking? (x :: ys.sounds) = some c ∧
      T.nearest? ys x = .error (.noFeatures [c]) := by
  rcases features_cases T x with ⟨a, ha, hfa⟩ | ⟨hx, hfx⟩
  · rcases candidates_cases T ys.sounds with ⟨candidates, hok, hmap, hall⟩ | ⟨c, hc, herror⟩
    · refine .inl ⟨(firstLeast (fun b => b.distance a) candidates).map (·.1), ?_, ?_, ?_, ?_⟩
      · simp only [nearest?, hfa, hok, bind, Except.bind]
        rfl
      · refine List.forall_mem_cons.mpr ⟨by rw [ha]; exact Option.some_ne_none a, fun c hc => ?_⟩
        rw [← hmap] at hc
        obtain ⟨p, hp, rfl⟩ := List.mem_map.mp hc
        rw [hall p hp]
        exact Option.some_ne_none p.2
      · intro hne
        rcases candidates with _ | ⟨first, rest⟩
        · exact absurd hmap.symm hne
        · rw [Option.isSome_map]
          exact firstLeast_isSome _ _ _
      · intro y hy
        obtain ⟨⟨y, b⟩, hleast, rfl⟩ := Option.map_eq_some_iff.mp hy
        obtain ⟨before, after, rfl, hbefore, hafter⟩ := firstLeast_eq_some hleast
        rw [List.forall_mem_append, List.forall_mem_cons] at hall
        obtain ⟨hall₁, hb, hall₂⟩ := hall
        refine ⟨a, b, before.map (·.1), after.map (·.1), ha, hb, ?_, ?_, ?_⟩
        · rw [← hmap, List.map_append, List.map_cons]
        · intro z hz
          obtain ⟨p, hp, rfl⟩ := List.mem_map.mp hz
          exact ⟨p.2, hall₁ p hp, hbefore p hp⟩
        · intro z hz
          obtain ⟨p, hp, rfl⟩ := List.mem_map.mp hz
          exact ⟨p.2, hall₂ p hp, hafter p hp⟩
    · have hcovers : T.Covers [x] := by
        rw [Covers, List.forall_mem_singleton, ha]
        exact Option.some_ne_none a
      refine .inr ⟨c, (firstLacking?_append_of_covers hcovers ys.sounds).trans hc, ?_⟩
      simp only [nearest?, hfa, herror, bind, Except.bind]
  · refine .inr ⟨x, firstLacking?_cons_of_none hx _, ?_⟩
    simp only [nearest?, hfx, bind, Except.bind]

-- How many places of articulation a sound has.
def places (T : FeatureTable) (c : Char) : Nat := (T.features? c).elim 0 (·.sthana.length)

-- The targets that `c` may still move on to: all of them if it is none of them, otherwise
-- those with more places, and the earlier ones with as many.
def Surpasses (T : FeatureTable) (ys : List Char) (z c : Char) : Prop :=
  c ∈ ys → T.places c < T.places z ∨ T.places c = T.places z ∧ ys.idxOf z < ys.idxOf c

instance (T : FeatureTable) (ys : List Char) (z c : Char) : Decidable (T.Surpasses ys z c) :=
  inferInstanceAs (Decidable (_ → _ ∨ _))

-- How many targets are ahead of a sound.
def ahead (T : FeatureTable) (ys : List Char) (c : Char) : Nat :=
  ys.countP fun z => decide (T.Surpasses ys z c)

theorem ahead_le (T : FeatureTable) (ys : List Char) (c : Char) : T.ahead ys c ≤ ys.length :=
  List.countP_le_length

theorem Nearest.surpasses {T : FeatureTable} {ys : List Char} {x y : Char}
    (h : T.Nearest ys x y) (hne : y ≠ x) : T.Surpasses ys y x := by
  obtain ⟨a, b, before, after, ha, hb, rfl, hbefore, hafter⟩ := h
  intro hx
  have hplaces : T.places x = a.sthana.length ∧ T.places y = b.sthana.length := by
    simp [places, ha, hb]
  have hbound := b.length_sthana_le a
  by_cases hearly : x ∈ before
  · -- A target before `y` is farther from `x` than `y` is, and `x` is at distance zero.
    obtain ⟨c, hc, hless⟩ := hbefore x hearly
    rw [ha] at hc
    cases hc
    rw [Articulation.distance_self] at hless
    exact .inl (by omega)
  · have hlate : x ∈ after := by
      rcases List.mem_append.mp hx with hx | hx
      · exact absurd hx hearly
      · exact (List.mem_cons.mp hx).resolve_left (Ne.symm hne)
    obtain ⟨c, hc, hle⟩ := hafter x hlate
    rw [ha] at hc
    cases hc
    rw [Articulation.distance_self] at hle
    have hy : y ∉ before := by
      intro hy
      obtain ⟨c, hc, hless⟩ := hbefore y hy
      rw [hb] at hc
      cases hc
      omega
    rw [List.idxOf_append_of_notMem hy, List.idxOf_append_of_notMem hearly,
      List.idxOf_cons_self, List.idxOf_cons_ne _ hne]
    omega

theorem Surpasses.trans {T : FeatureTable} {ys : List Char} {w z c : Char} (hz : z ∈ ys)
    (hwz : T.Surpasses ys w z) (hzc : T.Surpasses ys z c) : T.Surpasses ys w c := by
  intro hc
  have hw := hwz hz
  have hc := hzc hc
  omega

theorem not_surpasses_self {T : FeatureTable} {ys : List Char} {c : Char} (hc : c ∈ ys) :
    ¬T.Surpasses ys c c := by
  intro h
  have := h hc
  omega

-- Each replacement leaves fewer targets ahead.
theorem Nearest.ahead_lt {T : FeatureTable} {ys : List Char} {x y : Char}
    (h : T.Nearest ys x y) (hne : y ≠ x) : T.ahead ys y < T.ahead ys x := by
  refine countP_lt_countP (x := y) (fun z _ hz => ?_) h.mem ?_ ?_
  · exact decide_eq_true ((of_decide_eq_true hz).trans h.mem (h.surpasses hne))
  · exact decide_eq_false (not_surpasses_self h.mem)
  · exact decide_eq_true (h.surpasses hne)

-- The images of the sounds of `xs` are their nearest sounds in `ys`.
structure MapsNearest (T : FeatureTable) (xs ys : List Char) (images : SoundMap) : Prop where
  covers : ∀ x ∈ xs, T.Covers (x :: ys)
  source : ∀ x y, images.image? x = some y → x ∈ xs
  nearest : ∀ x y, images.image? x = some y → T.Nearest ys x y
  defined : ys ≠ [] → ∀ x ∈ xs, (images.image? x).isSome

theorem MapsNearest.cons {T : FeatureTable} {xs ys : List Char} {images : SoundMap}
    (h : T.MapsNearest xs ys images) {x y : Char} (hcovers : T.Covers (x :: ys))
    (hy : T.Nearest ys x y) : T.MapsNearest (x :: xs) ys ((x, y) :: images) := by
  have hcases : ∀ z w, SoundMap.image? ((x, y) :: images) z = some w →
      z = x ∧ w = y ∨ images.image? z = some w := by
    intro z w hz
    rw [SoundMap.image?_cons] at hz
    split at hz
    · rename_i hzx
      cases hz
      exact .inl ⟨hzx, rfl⟩
    · exact .inr hz
  refine ⟨List.forall_mem_cons.mpr ⟨hcovers, h.covers⟩, fun z w hz => ?_, fun z w hz => ?_,
    fun hne z hz => ?_⟩
  · rcases hcases z w hz with ⟨rfl, -⟩ | hz
    · exact List.mem_cons_self
    · exact List.mem_cons_of_mem _ (h.source z w hz)
  · rcases hcases z w hz with ⟨rfl, rfl⟩ | hz
    · exact hy
    · exact h.nearest z w hz
  · rw [SoundMap.image?_cons]
    split
    · rfl
    · rename_i hzx
      exact h.defined hne z ((List.mem_cons.mp hz).resolve_left hzx)

theorem MapsNearest.exists_image {T : FeatureTable} {xs ys : List Char} {images : SoundMap}
    (h : T.MapsNearest xs ys images) (hne : ys ≠ []) {x : Char} (hx : x ∈ xs) :
    ∃ y ∈ ys, images.image? x = some y := by
  obtain ⟨y, hy⟩ := Option.isSome_iff_exists.mp (h.defined hne x hx)
  exact ⟨y, (h.nearest x y hy).mem, hy⟩

theorem MapsNearest.covers_all {T : FeatureTable} {xs ys : List Char} {images : SoundMap}
    (h : T.MapsNearest xs ys images) (hne : xs ≠ []) : T.Covers (xs ++ ys) := by
  obtain ⟨x, hx⟩ := List.exists_mem_of_ne_nil _ hne
  refine List.forall_mem_append.mpr ⟨fun c hc => ?_, fun c hc => ?_⟩
  · exact h.covers c hc c List.mem_cons_self
  · exact h.covers x hx c (List.mem_cons_of_mem _ hc)

theorem mapsNearest_images {T : FeatureTable} {ys : SoundClass} {xs : List Char}
    {images : List (Option (Char × Char))}
    (h : List.Forall₂ (fun x image => (T.nearest? ys x).map (fun y => y.map (x, ·)) = .ok image)
      xs images) :
    T.MapsNearest xs ys.sounds (images.filterMap id) := by
  induction h with
  | nil => exact ⟨by simp, by simp [SoundMap.image?], by simp [SoundMap.image?], by simp⟩
  | @cons x image xs images hx _ ih =>
      rcases nearest?_cases T ys x with ⟨y?, hok, hcovers, hsome, hnearest⟩ | ⟨c, -, herror⟩
      · rw [hok] at hx
        cases hx
        rcases y? with _ | y
        · -- There is no candidate for any sound.
          refine ⟨List.forall_mem_cons.mpr ⟨hcovers, ih.covers⟩,
            fun z w hz => List.mem_cons_of_mem _ (ih.source z w hz), ih.nearest, fun hne => ?_⟩
          cases hsome hne
        · exact ih.cons hcovers (hnearest y rfl)
      · rw [herror] at hx
        cases hx

-- With a target to choose, every sound gets an image.
theorem keys_images {T : FeatureTable} {ys : SoundClass} {xs : List Char}
    {images : List (Option (Char × Char))} (hne : ys.sounds ≠ [])
    (h : List.Forall₂ (fun x image => (T.nearest? ys x).map (fun y => y.map (x, ·)) = .ok image)
      xs images) :
    (images.filterMap id).map (·.1) = xs := by
  induction h with
  | nil => rfl
  | @cons x image xs images hx _ ih =>
      rcases nearest?_cases T ys x with ⟨y?, hok, -, hsome, -⟩ | ⟨c, -, herror⟩
      · obtain ⟨y, rfl⟩ := Option.isSome_iff_exists.mp (hsome hne)
        rw [hok] at hx
        cases hx
        exact congrArg (x :: ·) ih
      · rw [herror] at hx
        cases hx

-- The articulations are looked up for the first sound, then for the targets, then for the other
-- sounds.
theorem nearestMap_cases (T : FeatureTable) (xs ys : SoundClass) :
    (∃ images, T.nearestMap xs ys = .ok images ∧ T.MapsNearest xs.sounds ys.sounds images ∧
      (ys.sounds ≠ [] → images.map (·.1) = xs.sounds)) ∨
    ∃ c, T.firstLacking? (xs.sounds.take 1 ++ ys.sounds ++ xs.sounds) = some c ∧
      T.nearestMap xs ys = .error (.noFeatures [c]) := by
  rcases mapM_first_failure (fun x => (T.nearest? ys x).map fun y => y.map (x, ·)) xs.sounds with
    ⟨images, hok, hall⟩ | ⟨before, x, after, e, hcut, hbefore, he, herror⟩
  · refine .inl ⟨images.filterMap id, ?_, mapsNearest_images hall, fun hne => keys_images hne hall⟩
    simp only [nearestMap, hok, bind, Except.bind]
    rfl
  · rcases nearest?_cases T ys x with ⟨y?, hok, -⟩ | ⟨c, hc, hfail⟩
    · rw [hok] at he
      cases he
    · rw [hfail] at he
      cases he
      refine .inr ⟨c, ?_, by simp only [nearestMap, herror, bind, Except.bind]⟩
      rw [hcut]
      cases before with
      | nil => exact firstLacking?_append hc _
      | cons first rest =>
          have hcovers : ∀ z ∈ first :: rest, T.Covers (z :: ys.sounds) := by
            intro z hz
            obtain ⟨y, hy⟩ := hbefore z hz
            rcases nearest?_cases T ys z with ⟨y?, -, hcovers, -⟩ | ⟨c', -, hfail'⟩
            · exact hcovers
            · rw [hfail'] at hy
              cases hy
          have hfirst := hcovers first List.mem_cons_self
          have hsources : T.Covers (first :: rest) :=
            fun z hz => hcovers z hz z List.mem_cons_self
          have hx : T.features? x = none := by
            obtain ⟨hmem, hnone⟩ := mem_of_firstLacking? hc
            rcases List.mem_cons.mp hmem with rfl | hmem
            · exact hnone
            · exact absurd hnone (hfirst c (List.mem_cons_of_mem _ hmem))
          rw [firstLacking?_cons_of_none hx] at hc
          rw [← hc, ← firstLacking?_cons_of_none hx after]
          exact (firstLacking?_append_of_covers hfirst _).trans
            (firstLacking?_append_of_covers hsources _)

theorem mem_of_search {T : FeatureTable} {xs ys : List Char} {c : Char}
    (h : T.firstLacking? (xs.take 1 ++ ys ++ xs) = some c) :
    c ∈ xs ++ ys ∧ T.features? c = none := by
  obtain ⟨hmem, hnone⟩ := mem_of_firstLacking? h
  simp only [List.mem_append] at hmem ⊢
  rcases hmem with (hmem | hmem) | hmem
  · exact ⟨.inl (List.mem_of_mem_take hmem), hnone⟩
  · exact ⟨.inr hmem, hnone⟩
  · exact ⟨.inl hmem, hnone⟩

theorem mapSounds_eq (T : FeatureTable) {xs ys : Text} {sources targets : SoundClass}
    (hx : SoundClass.decode xs = .ok sources) (hy : SoundClass.decode ys = .ok targets) :
    T.mapSounds xs ys = T.nearestMap sources targets := by
  simp only [mapSounds, hx, hy]

end FeatureTable

namespace SoundMap

-- A sound that the map does not have stays.
def step (images : SoundMap) (c : Char) : Char := (images.image? c).getD c

end SoundMap

theorem FeatureTable.MapsNearest.ahead_step_lt {T : FeatureTable} {xs ys : List Char}
    {images : SoundMap} (h : T.MapsNearest xs ys images) (c : Char)
    (hmove : images.step c ≠ c) : T.ahead ys (images.step c) < T.ahead ys c := by
  unfold SoundMap.step at hmove ⊢
  rcases hc : images.image? c with _ | y
  · rw [hc] at hmove
    exact absurd rfl hmove
  · rw [hc] at hmove
    exact (h.nearest c y hc).ahead_lt hmove

end Vyakarana
