import Vyakarana.Grammar.FinalSandhi
import Vyakarana.Proofs.Derivation.Exchange
import Vyakarana.Proofs.Derivation.Rest
import Vyakarana.Proofs.Sound.Nearest

/-!
What each rule for consonants in contact does, and what it uses up.

Each of them puts one sound in the place of another. Which sounds these are is said once for each
rule. Most of the rules replace a sound of some class by a sound outside of it, and so use up the
class. The rules that go to the nearest stop may replace a substitute again; they use up the
targets that are still ahead.
-/

namespace Vyakarana

-- The images of the map are sounds.
def SoundMap.Spoken (images : SoundMap) : Prop :=
  ∀ x y, images.image? x = some y → y ∈ Sound.alphabet

-- The nearest sounds are sounds of the class that they are chosen from.
theorem FeatureTable.MapsNearest.spoken {T : FeatureTable} {sources targets : List Char}
    {images : SoundMap} (h : T.MapsNearest sources targets images)
    (htargets : ∀ c ∈ targets, c ∈ Sound.alphabet) : images.Spoken :=
  fun x y hxy => htargets y (h.nearest x y hxy).mem

theorem SoundMap.Spoken.image {images : SoundMap} (h : images.Spoken) (o : Option Char) :
    Text.Spoken (o.bind images.image?).toList := by
  rcases hy : o.bind images.image? with _ | y
  · exact Text.spoken_nil
  · obtain ⟨x, -, hxy⟩ := Option.bind_eq_some_iff.mp hy
    exact Text.spoken_singleton.mpr (h x y hxy)

theorem Sound.nasals_contains_of_nasalOf? {c y : Char} (h : nasalOf? c = some y) :
    SoundClass.nasals.contains y = true :=
  List.find?_some h

theorem Sound.spoken_nasalOf (o : Option Char) : Text.Spoken (o.bind nasalOf?).toList := by
  rcases h : o.bind nasalOf? with _ | n
  · exact Text.spoken_nil
  · obtain ⟨c, -, hn⟩ := Option.bind_eq_some_iff.mp h
    have hall : ∀ n ∈ SoundClass.nasals.sounds, n ∈ alphabet := by decide
    exact Text.spoken_singleton.mpr
      (hall n (List.contains_iff_mem.mp (nasals_contains_of_nasalOf? hn)))

namespace SoundRule

variable {T : FeatureTable} {rule : Rule} {nearest : SoundMap}

theorem replaces_cuToKu (h : T.MapsNearest Sound.cu.sounds Sound.ku.sounds nearest) :
    (cuToKu nearest).Replaces fun x _ sub => x ∈ Sound.cu.sounds ∧ sub ∈ Sound.ku.sounds := by
  refine replaces_recorded fun s happlies => ?_
  obtain ⟨x, hx, hcu⟩ := (Option.any_eq_true _ _).mp ((Bool.and_eq_true _ _).mp happlies).1
  obtain ⟨sub, hku, hsub⟩ := h.exists_image (by decide) (List.contains_iff_mem.mp hcu)
  exact ⟨x, sub, hx, by rw [hx, Option.bind_some, hsub, Option.toList_some],
    List.contains_iff_mem.mp hcu, hku⟩

theorem replaces_toAnusvara :
    toAnusvara.Replaces fun x y sub => x ∈ ['m', 'n'] ∧ y.isSome = true ∧ sub = 'M' := by
  refine replaces_recorded fun s happlies => ?_
  obtain ⟨hmn, hnext⟩ := (Bool.and_eq_true _ _).mp happlies
  obtain ⟨x, hx, hmn⟩ := (Option.any_eq_true _ _).mp hmn
  obtain ⟨y, hy, -⟩ := (Option.any_eq_true _ _).mp hnext
  exact ⟨x, 'M', hx, rfl, List.contains_iff_mem.mp hmn, Option.isSome_iff_exists.mpr ⟨y, hy⟩, rfl⟩

theorem replaces_retroflexS : retroflexS.Replaces fun x _ sub => x = 's' ∧ sub = 'z' := by
  refine replaces_recorded fun s happlies => ?_
  simp only [Bool.and_eq_true, beq_iff_eq] at happlies
  exact ⟨'s', 'z', happlies.1.1, rfl, rfl, rfl⟩

theorem replaces_toNearest {following targets : SoundClass}
    (h : T.MapsNearest SoundClass.jhal.sounds targets.sounds nearest) (hne : targets.sounds ≠ []) :
    (toNearest rule following nearest).Replaces fun x y sub => x ∈ SoundClass.jhal.sounds ∧
      y.isSome = true ∧ sub ∈ targets.sounds ∧ nearest.image? x = some sub ∧ sub ≠ x := by
  refine replaces_recorded fun s happlies => ?_
  simp only [Bool.and_eq_true, bne_iff_ne] at happlies
  obtain ⟨⟨hjhal, hnext⟩, hmove⟩ := happlies
  obtain ⟨x, hx, hjhal⟩ := (Option.any_eq_true _ _).mp hjhal
  obtain ⟨y, hy, -⟩ := (Option.any_eq_true _ _).mp hnext
  obtain ⟨sub, hmem, hsub⟩ := h.exists_image hne (List.contains_iff_mem.mp hjhal)
  rw [hx, Option.bind_some, hsub] at hmove
  exact ⟨x, sub, hx, by rw [hx, Option.bind_some, hsub, Option.toList_some],
    List.contains_iff_mem.mp hjhal, Option.isSome_iff_exists.mpr ⟨y, hy⟩, hmem, hsub,
    fun heq => hmove (congrArg some heq)⟩

-- Every stop has a nasal of its place.
theorem replaces_anusvaraToNasal :
    anusvaraToNasal.Replaces fun x y sub => x = 'M' ∧
      ∃ stop ∈ SoundClass.jhay.sounds, y = some stop ∧ Sound.nasalOf? stop = some sub := by
  refine replaces_recorded fun s happlies => ?_
  obtain ⟨hM, hnext⟩ := (Bool.and_eq_true _ _).mp happlies
  obtain ⟨y, hy, hjhay⟩ := (Option.any_eq_true _ _).mp hnext
  have hnasals : ∀ y ∈ SoundClass.jhay.sounds, (Sound.nasalOf? y).isSome = true :=
    SoundClass.forall_ofText (by decide)
  obtain ⟨sub, hsub⟩ := Option.isSome_iff_exists.mp (hnasals y (List.contains_iff_mem.mp hjhay))
  exact ⟨'M', sub, beq_iff_eq.mp hM, by rw [hy, Option.bind_some, hsub, Option.toList_some], rfl, y,
    List.contains_iff_mem.mp hjhay, hy, hsub⟩

section Assimilation

variable {group : SoundClass} {blocked : Char → Char → Bool}
  (h : T.MapsNearest SoundClass.stu.sounds group.sounds nearest)
  (hgroup : group.sounds ≠ [])
include h hgroup

-- Where the rule applies, one of the two sounds is s or a dental and the other one of the group. The
-- former gives way to the sound of the group that is nearest to it.
theorem assimilate_cases {s : Site}
    (happlies : (assimilate rule group blocked nearest).applies s = true) :
    ∃ x y sub, s.here? = some x ∧ s.next? = some y ∧
      (x ∈ SoundClass.stu.sounds ∧ y ∈ group.sounds ∨
        x ∈ group.sounds ∧ y ∈ SoundClass.stu.sounds) ∧ sub ∈ group.sounds ∧
      (x ∈ SoundClass.stu.sounds ∧ nearest.image? x = some sub ∧
          ((assimilate rule group blocked nearest).act s).1 = (s.replace [sub]).record rule ∨
        y ∈ SoundClass.stu.sounds ∧ nearest.image? y = some sub ∧
          ((assimilate rule group blocked nearest).act s).1 =
            (s.replaceNext [sub]).record rule) := by
  simp only [assimilate] at happlies ⊢
  split at happlies
  · rename_i x y hx hy
    have hpair : x ∈ SoundClass.stu.sounds ∧ y ∈ group.sounds ∨
        x ∈ group.sounds ∧ y ∈ SoundClass.stu.sounds := by
      simpa [SoundClass.contains] using ((Bool.and_eq_true _ _).mp happlies).2
    rcases himage : nearest.image? x with _ | sub
    · -- Only a sound of the group has no image, and then the next one is s or a dental.
      have hx' : x ∉ SoundClass.stu.sounds := by
        intro hstu
        obtain ⟨sub, -, hsub⟩ := h.exists_image hgroup hstu
        cases himage.symm.trans hsub
      obtain ⟨-, hy'⟩ := hpair.resolve_left fun hxy => hx' hxy.1
      obtain ⟨sub, hmem, hsub⟩ := h.exists_image hgroup hy'
      refine ⟨x, y, sub, hx, hy, hpair, hmem, .inr ⟨hy', hsub, ?_⟩⟩
      simp only [hsub, Option.toList_some]
    · exact ⟨x, y, sub, hx, hy, hpair, (h.nearest x sub himage).mem,
        .inl ⟨h.source x sub himage, himage, rfl⟩⟩
  · cases happlies

theorem replaces_assimilate :
    (assimilate rule group blocked nearest).Replaces fun x _ sub => x ∈ SoundClass.stu.sounds ∧
      sub ∈ group.sounds ∧ nearest.image? x = some sub := by
  intro s hs happlies
  obtain ⟨x, y, sub, hx, hy, -, hmem, hact⟩ := assimilate_cases h hgroup happlies
  obtain ⟨before, after, htext, hreplace, hreplaceNext, -⟩ := Site.cut_pair hs hx hy
  rcases hact with ⟨hstu, himage, hact⟩ | ⟨hstu, himage, hact⟩
  · refine ⟨before, x, y :: after, sub, htext, ⟨hstu, hmem, himage⟩, ?_⟩
    rw [hact, Derivation.text_record, hreplace, List.append_assoc, List.singleton_append]
  · refine ⟨before ++ [x], y, after, sub, htext.trans (List.append_cons _ _ _),
      ⟨hstu, hmem, himage⟩, ?_⟩
    rw [hact, Derivation.text_record, hreplaceNext, List.append_assoc, List.singleton_append]

end Assimilation

theorem idle_assimilate (rule : Rule) (group : SoundClass) (blocked : Char → Char → Bool)
    (nearest : SoundMap) : (assimilate rule group blocked nearest).Idle := by
  intro s hs
  simp only [assimilate] at hs ⊢
  split at hs
  · split at hs <;> cases hs
  · rfl

theorem exchanges_assimilate {may : Rule → Text → Prop}
    (h : ∀ o : Option Char, may rule (o.bind nearest.image?).toList) (group : SoundClass)
    (blocked : Char → Char → Bool) : (assimilate rule group blocked nearest).Exchanges may := by
  intro s
  simp only [assimilate]
  split
  · rename_i x y _ _
    split
    · rename_i sub hsub
      have hx := h (some x)
      rw [Option.bind_some, hsub] at hx
      exact .here hx
    · exact .next (h (some y))
  · exact .still

-- What the rules use up.
section Spending

theorem spends_cuToKu (h : T.MapsNearest Sound.cu.sounds Sound.ku.sounds nearest) :
    (cuToKu nearest).Spends Sound.cu.marks := by
  have hapart : ∀ c ∈ Sound.ku.sounds, Sound.cu.contains c = false := by decide
  refine (replaces_cuToKu h).spends (fun s hs => by cases hs) fun x _ sub ⟨hx, hsub⟩ => ?_
  exact SoundClass.marks_lt (List.contains_iff_mem.mpr hx) (hapart sub hsub)

theorem spends_toAnusvara : toAnusvara.Spends (SoundClass.marks ⟨['m', 'n']⟩) := by
  refine replaces_toAnusvara.spends (fun s hs => by cases hs) fun x _ sub ⟨hx, _, hsub⟩ => ?_
  rw [hsub]
  exact SoundClass.marks_lt (List.contains_iff_mem.mpr hx) (by decide)

theorem spends_retroflexS : retroflexS.Spends (SoundClass.marks ⟨['s']⟩) := by
  refine replaces_retroflexS.spends (fun s hs => by cases hs) fun x _ sub ⟨hx, hsub⟩ => ?_
  rw [hx, hsub]
  exact SoundClass.marks_lt (by decide) (by decide)

theorem spends_anusvaraToNasal : anusvaraToNasal.Spends (SoundClass.marks ⟨['M']⟩) := by
  have hapart : ∀ c ∈ SoundClass.nasals.sounds, SoundClass.contains ⟨['M']⟩ c = false := by decide
  refine replaces_anusvaraToNasal.spends (fun s hs => by cases hs) ?_
  rintro x y sub ⟨rfl, stop, -, -, hsub⟩
  exact SoundClass.marks_lt (by decide)
    (hapart sub (List.contains_iff_mem.mp (Sound.nasals_contains_of_nasalOf? hsub)))

theorem spends_assimilate {group : SoundClass} {blocked : Char → Char → Bool}
    (h : T.MapsNearest SoundClass.stu.sounds group.sounds nearest) (hne : group.sounds ≠ [])
    (hapart : ∀ y ∈ group.sounds, SoundClass.stu.contains y = false) :
    (assimilate rule group blocked nearest).Spends SoundClass.stu.marks :=
  (replaces_assimilate h hne).spends (idle_assimilate _ _ _ _) fun _ _ sub ⟨hx, hsub, _⟩ =>
    SoundClass.marks_lt (List.contains_iff_mem.mpr hx) (hapart sub hsub)

theorem spends_toNearest {following targets : SoundClass}
    (h : T.MapsNearest SoundClass.jhal.sounds targets.sounds nearest)
    (hne : targets.sounds ≠ []) :
    (toNearest rule following nearest).Spends (T.ahead targets.sounds) :=
  (replaces_toNearest h hne).spends (fun s hs => by cases hs)
    fun x _ sub ⟨_, _, _, hsub, hmove⟩ => (h.nearest x sub hsub).ahead_lt hmove

end Spending

end SoundRule

end Vyakarana
