import Vyakarana.Proofs.Sound.ClassNotation
import Vyakarana.Proofs.Sound.ClassOrder
import Vyakarana.Proofs.Sound.Nearest
import Vyakarana.Sound.SoundTable

/-!
The answers of a table of sounds.

Between two expressions that can be read, each sound of the one has its nearest sound of the other
as its image, the first in traditional order where several are as near, unless an articulation is
missing. A table that remembers its maps answers as if it had never been asked before: a map that
it keeps is the one it would find again, and a failure leaves it as it was.
-/

namespace Vyakarana

namespace SoundClass

theorem ordered_of_decode {expr : Text} {C : SoundClass} (h : decode expr = .ok C) :
    Ordered C.sounds := by
  unfold decode at h
  split at h
  · cases h
  · obtain ⟨parts, -, rfl⟩ := exists_of_map_ok h
    exact ordered_ofText parts.flatten

theorem sounds_ne_nil_of_decode {expr : Text} {C : SoundClass} (h : decode expr = .ok C) :
    C.sounds ≠ [] := by
  rcases decode_cases expr with ⟨-, herror⟩ | ⟨D, -, -, hok, hne, -⟩ | ⟨_, _, e, -, -, herror, -⟩
  · cases h.symm.trans herror
  · cases h.symm.trans hok
    exact hne
  · cases h.symm.trans herror

end SoundClass

namespace FeatureTable

-- No target is nearer to `x` than `y` is, and those before `y` in traditional order are farther.
def FirstNearest (T : FeatureTable) (targets : List Char) (x y : Char) : Prop :=
  y ∈ targets ∧ ∃ a b, T.features? x = some a ∧ T.features? y = some b ∧
    ∀ z ∈ targets, ∃ c, T.features? z = some c ∧ b.distance a ≤ c.distance a ∧
      (Sound.precedes z y = true → b.distance a < c.distance a)

theorem Nearest.firstNearest {T : FeatureTable} {targets : List Char} {x y : Char}
    (hordered : SoundClass.Ordered targets) (h : T.Nearest targets x y) :
    T.FirstNearest targets x y := by
  refine ⟨h.mem, ?_⟩
  obtain ⟨a, b, before, after, ha, hb, rfl, hbefore, hafter⟩ := h
  refine ⟨a, b, ha, hb, fun z hz => ?_⟩
  by_cases hearly : z ∈ before
  · obtain ⟨c, hc, hless⟩ := hbefore z hearly
    exact ⟨c, hc, hless.le, fun _ => hless⟩
  · have hlate : z = y ∨ z ∈ after := by
      rcases List.mem_append.mp hz with hz | hz
      · exact absurd hz hearly
      · exact List.mem_cons.mp hz
    have hno : ¬Sound.precedes z y = true := fun hzy => hearly (hordered.mem_before hz hzy)
    rcases hlate with rfl | hlate
    · exact ⟨b, hb, le_rfl, fun hzy => absurd hzy hno⟩
    · obtain ⟨c, hc, hle⟩ := hafter z hlate
      exact ⟨c, hc, hle, fun hzy => absurd hzy hno⟩

-- Each source has its image, and there are no other ones.
def MapsFirstNearest (T : FeatureTable) (sources targets : List Char) (images : SoundMap) : Prop :=
  images.map (·.1) = sources ∧
    ∀ x ∈ sources, ∃ y, images.image? x = some y ∧ T.FirstNearest targets x y

section Answers

variable {T : FeatureTable} {xs ys : Text} {sources targets : SoundClass}

theorem mapSounds_first_nearest_or (hx : SoundClass.decode xs = .ok sources)
    (hy : SoundClass.decode ys = .ok targets) :
    (T.Covers (sources.sounds ++ targets.sounds) ∧
      ∃ images, T.mapSounds xs ys = .ok images ∧
        T.MapsFirstNearest sources.sounds targets.sounds images) ∨
    ¬T.Covers (sources.sounds ++ targets.sounds) ∧
      ∃ c, T.firstLacking? (sources.sounds.take 1 ++ targets.sounds ++ sources.sounds) = some c ∧
        T.mapSounds xs ys = .error (.noFeatures [c]) := by
  have hsources := SoundClass.sounds_ne_nil_of_decode hx
  have htargets := SoundClass.sounds_ne_nil_of_decode hy
  have hordered := SoundClass.ordered_of_decode hy
  rw [T.mapSounds_eq hx hy]
  rcases T.nearestMap_cases sources targets with ⟨images, hok, hmaps, hkeys⟩ | ⟨c, hc, herror⟩
  · refine .inl ⟨hmaps.covers_all hsources, images, hok, hkeys htargets, fun x hx => ?_⟩
    obtain ⟨y, hy⟩ := Option.isSome_iff_exists.mp (hmaps.defined htargets x hx)
    exact ⟨y, hy, (hmaps.nearest x y hy).firstNearest hordered⟩
  · refine .inr ⟨fun hcovers => ?_, c, hc, herror⟩
    obtain ⟨hmem, hnone⟩ := mem_of_search hc
    exact hcovers c hmem hnone

theorem mapSounds_of_misread_target {e : ClassError} (hy : SoundClass.decode ys = .error e) :
    T.mapSounds xs ys = .error (.expression e) := by
  simp only [mapSounds, hy]

theorem mapSounds_of_misread_source {e : ClassError} (hy : SoundClass.decode ys = .ok targets)
    (hx : SoundClass.decode xs = .error e) : T.mapSounds xs ys = .error (.expression e) := by
  simp only [mapSounds, hx, hy]

end Answers

end FeatureTable

namespace SoundTable

-- Whatever is remembered would be found again.
def Coherent (S : SoundTable) : Prop :=
  ∀ xs ys images, S.maps.lookup (xs, ys) = some images → S.features.mapSounds xs ys = .ok images

theorem coherent_ofFeatures (T : FeatureTable) : (ofFeatures T).Coherent := by
  intro xs ys images h
  cases h

theorem mapSounds_cases (S : SoundTable) (xs ys : Text) :
    (∃ images, S.maps.lookup (xs, ys) = some images ∧ S.mapSounds xs ys = (.ok images, S)) ∨
    (∃ images, S.features.mapSounds xs ys = .ok images ∧
      S.mapSounds xs ys = (.ok images, { S with maps := ((xs, ys), images) :: S.maps })) ∨
    ∃ fault, S.features.mapSounds xs ys = .error fault ∧ S.mapSounds xs ys = (.error fault, S) := by
  unfold mapSounds
  rcases hkept : S.maps.lookup (xs, ys) with _ | images
  · rcases hfound : S.features.mapSounds xs ys with fault | images
    · exact .inr (.inr ⟨fault, rfl, rfl⟩)
    · exact .inr (.inl ⟨images, rfl, rfl⟩)
  · exact .inl ⟨images, rfl, rfl⟩

theorem features_mapSounds (S : SoundTable) (xs ys : Text) :
    (S.mapSounds xs ys).2.features = S.features := by
  rcases S.mapSounds_cases xs ys with ⟨_, -, heq⟩ | ⟨_, -, heq⟩ | ⟨_, -, heq⟩ <;> rw [heq]

theorem mapSounds_of_error {S : SoundTable} {xs ys : Text} {fault : Fault}
    (h : (S.mapSounds xs ys).1 = .error fault) : (S.mapSounds xs ys).2 = S := by
  rcases S.mapSounds_cases xs ys with ⟨images, -, heq⟩ | ⟨images, -, heq⟩ | ⟨_, -, heq⟩
  · rw [heq] at h
    cases h
  · rw [heq] at h
    cases h
  · rw [heq]

theorem Coherent.answer {S : SoundTable} (h : S.Coherent) (xs ys : Text) :
    (S.mapSounds xs ys).1 = S.features.mapSounds xs ys := by
  rcases S.mapSounds_cases xs ys with ⟨images, hkept, heq⟩ | ⟨_, hfound, heq⟩ | ⟨_, hfound, heq⟩
  · rw [heq, h xs ys images hkept]
  · rw [heq, hfound]
  · rw [heq, hfound]

-- One call keeps the table coherent: what it adds is what it has just found.
theorem Coherent.mapSounds {S : SoundTable} (h : S.Coherent) (xs ys : Text) :
    (S.mapSounds xs ys).2.Coherent := by
  rcases S.mapSounds_cases xs ys with ⟨images, -, heq⟩ | ⟨images, hfound, heq⟩ | ⟨_, -, heq⟩
  · rw [heq]
    exact h
  · rw [heq]
    intro us vs kept hkept
    rw [List.lookup_cons] at hkept
    by_cases hsame : (us, vs) = (xs, ys)
    · rw [beq_iff_eq.mpr hsame] at hkept
      cases hkept
      cases hsame
      exact hfound
    · rw [beq_eq_false_iff_ne.mpr hsame] at hkept
      exact h us vs kept hkept
  · rw [heq]
    exact h

theorem Coherent.after {S : SoundTable} (h : S.Coherent) (calls : List (Text × Text)) :
    (S.after calls).Coherent ∧ (S.after calls).features = S.features := by
  induction calls generalizing S with
  | nil => exact ⟨h, rfl⟩
  | cons call calls ih =>
      obtain ⟨hcoherent, hfeatures⟩ := ih (h.mapSounds call.1 call.2)
      exact ⟨hcoherent, hfeatures.trans (S.features_mapSounds call.1 call.2)⟩

-- Earlier calls make no difference to an answer.
theorem answer_after (T : FeatureTable) (calls : List (Text × Text)) (xs ys : Text) :
    (((ofFeatures T).after calls).mapSounds xs ys).1 = T.mapSounds xs ys := by
  obtain ⟨hcoherent, hfeatures⟩ := (coherent_ofFeatures T).after calls
  rw [hcoherent.answer, hfeatures]
  rfl

-- Whatever was asked before, two expressions that can be read are answered by the first nearest
-- sounds if the articulations are there, and otherwise by the first sound that lacks its
-- articulation in the order of the search: the first source, the targets, the other sources.
-- What cannot be read is reported at once, the target first. A failed call leaves any table as
-- it was.
theorem mapSounds_answers_first_nearest (T : FeatureTable) (calls : List (Text × Text))
    (xs ys : Text) :
    (∀ sources targets, SoundClass.decode xs = .ok sources → SoundClass.decode ys = .ok targets →
      (T.Covers (sources.sounds ++ targets.sounds) →
        ∃ images, (((ofFeatures T).after calls).mapSounds xs ys).1 = .ok images ∧
          T.MapsFirstNearest sources.sounds targets.sounds images) ∧
      (¬T.Covers (sources.sounds ++ targets.sounds) →
        ∃ c, T.firstLacking? (sources.sounds.take 1 ++ targets.sounds ++ sources.sounds) = some c ∧
          (((ofFeatures T).after calls).mapSounds xs ys).1 = .error (.noFeatures [c]))) ∧
    (∀ e, SoundClass.decode ys = .error e →
      (((ofFeatures T).after calls).mapSounds xs ys).1 = .error (.expression e)) ∧
    (∀ e targets, SoundClass.decode ys = .ok targets → SoundClass.decode xs = .error e →
      (((ofFeatures T).after calls).mapSounds xs ys).1 = .error (.expression e)) ∧
    ∀ (S : SoundTable) (fault : Fault), (S.mapSounds xs ys).1 = .error fault →
      (S.mapSounds xs ys).2 = S := by
  rw [answer_after]
  refine ⟨fun sources targets hx hy => ?_, fun e hy => ?_, fun e targets hy hx => ?_,
    fun S fault h => mapSounds_of_error h⟩
  · rcases FeatureTable.mapSounds_first_nearest_or (T := T) hx hy with
      ⟨hcovers, hanswer⟩ | ⟨hlacks, hanswer⟩
    · exact ⟨fun _ => hanswer, fun hno => absurd hcovers hno⟩
    · exact ⟨fun hcovers => absurd hcovers hlacks, fun _ => hanswer⟩
  · exact FeatureTable.mapSounds_of_misread_target hy
  · exact FeatureTable.mapSounds_of_misread_source hy hx

end SoundTable

end Vyakarana
