import Mathlib.Data.Finset.Card
import Mathlib.Order.SymmDiff
import Vyakarana.Proofs.Sound.FirstNearest

/-!
Articulations as a metric space.

Where no place of articulation is listed twice, the place part of a distance is the number of places
that only one of the two has. So the distance is a metric on what is pronounced, and it is zero just
where the features agree. Whatever a table has no distance for is told apart by its features then:
a sound that is among the targets itself goes to the first target with its features.
-/

namespace Vyakarana

namespace Articulation

section Parts

variable {α : Type*} [DecidableEq α]

-- What one feature of two sounds adds to their distance.
def differs (x y : α) : Int := if x = y then 0 else 1

theorem differs_nonneg (x y : α) : 0 ≤ differs x y := by
  unfold differs
  split <;> omega

theorem differs_comm (x y : α) : differs x y = differs y x := by
  simp only [differs, eq_comm]

theorem differs_eq_zero_iff {x y : α} : differs x y = 0 ↔ x = y := by
  simp [differs]

theorem differs_triangle (x y z : α) : differs x z ≤ differs x y + differs y z := by
  by_cases hxy : x = y
  · rw [hxy]
    have := differs_nonneg y y
    omega
  · have hyz := differs_nonneg y z
    have hone : differs x y = 1 := if_neg hxy
    have hle : differs x z ≤ 1 := by
      unfold differs
      split <;> omega
    omega

theorem card_symmDiff (s t : Finset α) :
    ((symmDiff s t).card : Int) = s.card + t.card - 2 * (s ∩ t).card := by
  have hs := Finset.card_inter_add_card_sdiff s t
  have ht := Finset.card_inter_add_card_sdiff t s
  have hunion : (symmDiff s t).card = (s \ t).card + (t \ s).card :=
    Finset.card_union_of_disjoint disjoint_sdiff_sdiff
  rw [Finset.inter_comm] at ht
  omega

theorem card_symmDiff_triangle (s t u : Finset α) :
    (symmDiff s u).card ≤ (symmDiff s t).card + (symmDiff t u).card :=
  (Finset.card_le_card (symmDiff_triangle s t u)).trans (Finset.card_union_le _ _)

-- The places that two rows share are counted along the first of them.
theorem length_add_sub_shared {xs ys : List α} (hx : xs.Nodup) (hy : ys.Nodup) :
    (xs.length : Int) + ys.length - 2 * (xs.countP (ys.contains ·) : Nat) =
      (symmDiff xs.toFinset ys.toFinset).card := by
  have hshared : xs.countP (ys.contains ·) = (xs.toFinset ∩ ys.toFinset).card := by
    have hset : xs.toFinset ∩ ys.toFinset = (xs.filter (ys.contains ·)).toFinset := by
      ext x
      simp
    rw [hset, List.toFinset_card_of_nodup (hx.filter _), List.countP_eq_length_filter]
  rw [card_symmDiff, List.toFinset_card_of_nodup hx, List.toFinset_card_of_nodup hy, hshared]

end Parts

-- The same features. How the places are ordered makes no difference.
structure Alike (a b : Articulation) : Prop where
  ghosha : a.ghosha = b.ghosha
  prana : a.prana = b.prana
  prayatna : a.prayatna = b.prayatna
  sthana : ∀ p, p ∈ a.sthana ↔ p ∈ b.sthana

theorem Alike.refl (a : Articulation) : a.Alike a := ⟨rfl, rfl, rfl, fun _ => Iff.rfl⟩

theorem Alike.symm {a b : Articulation} (h : a.Alike b) : b.Alike a :=
  ⟨h.ghosha.symm, h.prana.symm, h.prayatna.symm, fun p => (h.sthana p).symm⟩

variable {a b c : Articulation}

theorem distance_eq (ha : a.sthana.Nodup) (hb : b.sthana.Nodup) :
    a.distance b = differs a.ghosha b.ghosha + differs a.prana b.prana +
      differs a.prayatna b.prayatna + (symmDiff a.sthana.toFinset b.sthana.toFinset).card := by
  rw [← length_add_sub_shared ha hb]
  rfl

theorem distance_nonneg (ha : a.sthana.Nodup) (hb : b.sthana.Nodup) : 0 ≤ a.distance b := by
  rw [distance_eq ha hb]
  have := differs_nonneg a.ghosha b.ghosha
  have := differs_nonneg a.prana b.prana
  have := differs_nonneg a.prayatna b.prayatna
  omega

theorem distance_comm (ha : a.sthana.Nodup) (hb : b.sthana.Nodup) :
    a.distance b = b.distance a := by
  rw [distance_eq ha hb, distance_eq hb ha, differs_comm a.ghosha, differs_comm a.prana,
    differs_comm a.prayatna, symmDiff_comm]

theorem distance_eq_zero_iff (ha : a.sthana.Nodup) (hb : b.sthana.Nodup) :
    a.distance b = 0 ↔ a.Alike b := by
  have hghosha := differs_nonneg a.ghosha b.ghosha
  have hprana := differs_nonneg a.prana b.prana
  have hprayatna := differs_nonneg a.prayatna b.prayatna
  rw [distance_eq ha hb]
  constructor
  · intro h
    have hplaces : symmDiff a.sthana.toFinset b.sthana.toFinset = ∅ :=
      Finset.card_eq_zero.mp (by omega)
    refine ⟨differs_eq_zero_iff.mp (by omega), differs_eq_zero_iff.mp (by omega),
      differs_eq_zero_iff.mp (by omega), fun p => ?_⟩
    have hsame := Finset.ext_iff.mp (symmDiff_eq_bot.mp hplaces) p
    rwa [List.mem_toFinset, List.mem_toFinset] at hsame
  · intro h
    have hsame : a.sthana.toFinset = b.sthana.toFinset := by
      ext p
      rw [List.mem_toFinset, List.mem_toFinset, h.sthana p]
    rw [h.ghosha, h.prana, h.prayatna, hsame, symmDiff_self]
    simp [differs]

theorem distance_triangle (ha : a.sthana.Nodup) (hb : b.sthana.Nodup) (hc : c.sthana.Nodup) :
    a.distance c ≤ a.distance b + b.distance c := by
  rw [distance_eq ha hc, distance_eq ha hb, distance_eq hb hc]
  have := differs_triangle a.ghosha b.ghosha c.ghosha
  have := differs_triangle a.prana b.prana c.prana
  have := differs_triangle a.prayatna b.prayatna c.prayatna
  have := card_symmDiff_triangle a.sthana.toFinset b.sthana.toFinset c.sthana.toFinset
  omega

-- Sounds that are alike are as far from every other sound.
theorem Alike.distance_eq (h : a.Alike b) (ha : a.sthana.Nodup) (hb : b.sthana.Nodup)
    (hc : c.sthana.Nodup) : a.distance c = b.distance c := by
  have hab := (distance_eq_zero_iff ha hb).mpr h
  have hba := (distance_eq_zero_iff hb ha).mpr h.symm
  have hle := distance_triangle ha hb hc
  have hge := distance_triangle hb ha hc
  omega

end Articulation

namespace FeatureTable

variable {T : FeatureTable} {sources targets : List Char} {images : SoundMap} {x y : Char}

-- No articulation lists a place twice.
def PlacesOnce (T : FeatureTable) : Prop := ∀ c a, T.features? c = some a → a.sthana.Nodup

-- The table gives both sounds the same features.
def Alike (T : FeatureTable) (x y : Char) : Prop :=
  ∃ a b, T.features? x = some a ∧ T.features? y = some b ∧ a.Alike b

-- The first target in traditional order that has the features of `x`.
def FirstAlike (T : FeatureTable) (targets : List Char) (x y : Char) : Prop :=
  y ∈ targets ∧ T.Alike y x ∧ ∀ z ∈ targets, T.Alike z x → z ≠ y → Sound.precedes y z = true

-- The articulations of the standard table run through the list of places once.
theorem placesOnce_standard : PlacesOnce .standard := by
  intro c a ha
  have hall : (Articulation.sthanas.map (·.2)).Nodup := by decide
  have hstandard : Articulation.standard? c = some a := ha
  unfold Articulation.standard? at hstandard
  split at hstandard
  · cases hstandard
    exact hall.sublist (List.filter_sublist.map _)
  · cases hstandard

-- A target as near as a sound can be has its features.
theorem FirstNearest.firstAlike (hplaces : T.PlacesOnce) (h : T.FirstNearest targets x y)
    (hx : x ∈ targets) : T.FirstAlike targets x y := by
  obtain ⟨hy, a, b, ha, hb, hall⟩ := h
  obtain ⟨a', ha', hle, -⟩ := hall x hx
  cases ha.symm.trans ha'
  have hzero : b.distance a = 0 := by
    have := Articulation.distance_nonneg (hplaces y b hb) (hplaces x a ha)
    rw [Articulation.distance_self] at hle
    omega
  have halike : b.Alike a :=
    (Articulation.distance_eq_zero_iff (hplaces y b hb) (hplaces x a ha)).mp hzero
  refine ⟨hy, ⟨b, a, hb, ha, halike⟩, ?_⟩
  rintro z hz ⟨c, a', hc, ha', hca⟩ hne
  cases ha.symm.trans ha'
  by_contra hlate
  obtain ⟨c', hc', -, hless⟩ := hall z hz
  cases hc.symm.trans hc'
  have hnear := hless (Sound.precedes_of_not (Ne.symm hne) hlate)
  rw [hzero, (Articulation.distance_eq_zero_iff (hplaces z c hc) (hplaces x a ha)).mpr hca] at hnear
  omega

theorem FirstAlike.unique {y' : Char} (h : T.FirstAlike targets x y)
    (h' : T.FirstAlike targets x y') : y = y' := by
  by_contra hne
  have hlt := h.2.2 y' h'.1 h'.2.1 (Ne.symm hne)
  rw [Sound.not_precedes_of_precedes (h'.2.2 y h.1 h.2.1 hne)] at hlt
  cases hlt

-- The image of a sound is the first target with its own features: an earlier one would be as near
-- to the sound.
theorem FirstNearest.image_firstAlike (hplaces : T.PlacesOnce)
    (h : T.FirstNearest targets x y) : T.FirstAlike targets y y := by
  obtain ⟨hy, a, b, ha, hb, hall⟩ := h
  refine ⟨hy, ⟨b, b, hb, hb, .refl b⟩, ?_⟩
  rintro z hz ⟨c, b', hc, hb', hcb⟩ hne
  cases hb.symm.trans hb'
  by_contra hlate
  obtain ⟨c', hc', -, hless⟩ := hall z hz
  cases hc.symm.trans hc'
  have hnear := hless (Sound.precedes_of_not (Ne.symm hne) hlate)
  rw [hcb.distance_eq (hplaces z c hc) (hplaces y b hb) (hplaces x a ha)] at hnear
  omega

-- A sound that is a target too is replaced by the first target with its features.
theorem MapsFirstNearest.image_of_target (hplaces : T.PlacesOnce)
    (h : T.MapsFirstNearest sources targets images) (hx : x ∈ sources) (hx' : x ∈ targets) :
    ∃ y, images.image? x = some y ∧ T.FirstAlike targets x y := by
  obtain ⟨y, hy, hnearest⟩ := h.2 x hx
  exact ⟨y, hy, hnearest.firstAlike hplaces hx'⟩

-- An image stays.
theorem MapsFirstNearest.image_of_image (hplaces : T.PlacesOnce)
    (h : T.MapsFirstNearest sources targets images) (hx : x ∈ sources)
    (hy : images.image? x = some y) (hy' : y ∈ sources) : images.image? y = some y := by
  obtain ⟨y', hsame, hnearest⟩ := h.2 x hx
  cases hy.symm.trans hsame
  obtain ⟨z, hz, hz'⟩ := h.image_of_target hplaces hy' hnearest.1
  rw [hz, hz'.unique (hnearest.image_firstAlike hplaces)]

end FeatureTable

namespace SoundTable

-- Distance is a metric on features where no place is listed twice. So, whatever a table was asked
-- before, a sound that is a source and a target goes to the first target with its features, which
-- is the sound itself unless another target has them too, and an image that is a source stays.
theorem mapSounds_keeps_features :
    (∀ a b c : Articulation, a.sthana.Nodup → b.sthana.Nodup → c.sthana.Nodup →
      0 ≤ a.distance b ∧ a.distance b = b.distance a ∧ (a.distance b = 0 ↔ a.Alike b) ∧
      a.distance c ≤ a.distance b + b.distance c) ∧
    ∀ (T : FeatureTable) (calls : List (Text × Text)) (xs ys : Text) (sources targets : SoundClass),
      T.PlacesOnce → SoundClass.decode xs = .ok sources → SoundClass.decode ys = .ok targets →
      T.Covers (sources.sounds ++ targets.sounds) →
      ∃ images, (((ofFeatures T).after calls).mapSounds xs ys).1 = .ok images ∧
        (∀ x ∈ sources.sounds, x ∈ targets.sounds →
          ∃ y, images.image? x = some y ∧ T.FirstAlike targets.sounds x y ∧
            ((∀ z ∈ targets.sounds, T.Alike z x → z = x) → y = x)) ∧
        ∀ x ∈ sources.sounds, ∀ y ∈ sources.sounds, images.image? x = some y →
          images.image? y = some y := by
  refine ⟨fun a b c ha hb hc => ⟨Articulation.distance_nonneg ha hb,
    Articulation.distance_comm ha hb, Articulation.distance_eq_zero_iff ha hb,
    Articulation.distance_triangle ha hb hc⟩, ?_⟩
  intro T calls xs ys sources targets hplaces hxs hys hcovers
  rcases FeatureTable.mapSounds_first_nearest_or (T := T) hxs hys with
    ⟨-, images, hok, hmaps⟩ | ⟨hlacks, -⟩
  · refine ⟨images, (answer_after T calls xs ys).trans hok, fun x hx hx' => ?_,
      fun x hx y hy hxy => hmaps.image_of_image hplaces hx hxy hy⟩
    obtain ⟨y, hy, hfirst⟩ := hmaps.image_of_target hplaces hx hx'
    exact ⟨y, hy, hfirst, fun honly => honly y hfirst.1 hfirst.2.1⟩
  · exact absurd hcovers hlacks

-- The stops and sibilants before jaS and car. Those that are among these sounds stay.
theorem mapSounds_keeps_features_of_stops :
    FeatureTable.PlacesOnce .standard ∧
    ∃ images, (standard.mapSounds "Jal".toList "jaS car".toList).1 = .ok images ∧
      (∃ y, images.image? 'j' = some y ∧
        FeatureTable.FirstAlike .standard (SoundClass.ofText "jbgqdcwtkpSzs".toList).sounds 'j' y) ∧
      (images.image? 'J' = some 'j' → images.image? 'j' = some 'j') := by
  obtain ⟨images, hok, hkept, hfixed⟩ := mapSounds_keeps_features.2 .standard [] "Jal".toList
    "jaS car".toList (.ofText "JBGQDjbgqdKPCWTcwtkpSzsh".toList) (.ofText "jbgqdcwtkpSzs".toList)
    FeatureTable.placesOnce_standard (by decide +kernel) (by decide +kernel)
    (by unfold FeatureTable.Covers; decide +kernel)
  obtain ⟨y, hy, hfirst, -⟩ := hkept 'j' (by decide) (by decide)
  exact ⟨FeatureTable.placesOnce_standard, images, hok, ⟨y, hy, hfirst⟩,
    hfixed 'J' (by decide) 'j' (by decide)⟩

end SoundTable

end Vyakarana
