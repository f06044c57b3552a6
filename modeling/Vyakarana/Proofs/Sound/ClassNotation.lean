import Vyakarana.Proofs.Basic
import Vyakarana.Sound.ClassExpression

/-!
What class expressions mean.

The meaning of a word is told from the sutras as they stand: a stretch of them is a cut, which
begins with the first sutra that lists the first sound and ends with the closing asked for. An
expression is read just if each of its words has a meaning, and then it stands for all sounds that
its words denote; otherwise the first word without a meaning is named, with what is wrong with it.
-/

namespace Vyakarana

namespace Text

-- The words are what is left between blanks.
theorem words_eq_splitOnP (t : Text) :
    t.words = (t.splitOnP isBlank).filter (!·.isEmpty) := by
  have hfrom : ∀ (t word : Text), (∀ c ∈ word, isBlank c = false) →
      wordsFrom word t = ((word.reverse ++ t).splitOnP isBlank).filter (!·.isEmpty) := by
    intro t
    induction t with
    | nil =>
        intro word hword
        rw [List.append_nil, List.splitOnP_eq_singleton (by simpa using hword), wordsFrom]
        cases word <;> simp
    | cons c rest ih =>
        intro word hword
        rw [wordsFrom]
        by_cases hc : isBlank c = true
        · rw [if_pos hc, List.splitOnP_append_cons _ _ hc, List.filter_append,
            List.splitOnP_eq_singleton (by simpa using hword), ih [] (by simp)]
          cases word <;> simp
        · rw [if_neg hc, ih (c :: word)
            (List.forall_mem_cons.mpr ⟨Bool.eq_false_iff.mpr hc, hword⟩)]
          simp
  exact hfrom t [] (by simp)

end Text

namespace Sound

-- A sound is savarna to itself and to the sounds of its group.
def Homorganic (c x : Char) : Prop := x = c ∨ ∃ group ∈ savarnaGroups, c ∈ group ∧ x ∈ group

-- A word that stands for the savarna sounds of its first one.
def NamesGroup (word : Text) : Prop :=
  "u~".toList <:+ word ∨ ∃ c ∈ "aAiIuUfFxX".toList, word = [c]

-- A word that asks for the sounds from `first` up to a closing by `marker`, after so many other
-- closings by the same marker.
structure AsksFor (word : Text) (first marker : Char) (passed : Nat) : Prop where
  noGroup : ¬NamesGroup word
  several : 1 < word.length
  begins : word.head? = some first
  ends : "R2".toList <:+ word ∧ marker = 'R' ∧ passed = 1 ∨
    ¬"R2".toList <:+ word ∧ word.getLast? = some marker ∧ passed = 0

-- The sutras, cut around those from the first one that lists `first` up to one that `marker`
-- closes, with so many other closings by it in between.
structure Stretch (first marker : Char) (passed : Nat) (before within : List Sutra)
    (closing : Sutra) (after : List Sutra) : Prop where
  cut : sutras = before ++ (within ++ closing :: after)
  unlisted : ∀ s ∈ before, first ∉ s.sounds
  opens : ∃ opening, (within ++ [closing]).head? = some opening ∧ first ∈ opening.sounds
  closes : closing.marker = marker
  passes : within.countP (·.marker == marker) = passed

-- The sounds that these sutras list, from the first occurrence of `first` on.
def listedFrom (first : Char) (stretch : List Sutra) : Text :=
  (stretch.flatMap (·.sounds)).dropWhile (· != first)

inductive Denotes : Text → Char → Prop
  | group {c : Char} {rest : Text} {x : Char} (h : NamesGroup (c :: rest))
      (hx : Homorganic c x) : Denotes (c :: rest) x
  | itself {c : Char} (h : ¬NamesGroup [c]) : Denotes [c] c
  | listed {word : Text} {first marker x : Char} {passed : Nat} {before within after : List Sutra}
      {closing : Sutra} (h : AsksFor word first marker passed)
      (hs : Stretch first marker passed before within closing after)
      (hx : x ∈ listedFrom first (within ++ [closing])) : Denotes word x
  -- the long vowel of a short one that is listed
  | long {word : Text} {first marker short x : Char} {passed : Nat}
      {before within after : List Sutra} {closing : Sutra} (h : AsksFor word first marker passed)
      (hs : Stretch first marker passed before within closing after)
      (hshort : short ∈ listedFrom first (within ++ [closing])) (hx : lengthen? short = some x) :
      Denotes word x

-- A word without a meaning, and what is wrong with it. Of several faults the first counts.
inductive Misread : Text → Text → Prop
  | unknownMarker {word : Text} {first marker : Char} {passed : Nat}
      (h : AsksFor word first marker passed) (hmarker : ∀ s ∈ sutras, s.marker ≠ marker) :
      Misread word "unknown closing marker".toList
  | noSounds {word : Text} {first marker : Char} {passed : Nat}
      (h : AsksFor word first marker passed) (hmarker : ∃ s ∈ sutras, s.marker = marker)
      (hfirst : ∀ s ∈ sutras, first ∉ s.sounds) : Misread word "yields no sounds".toList
  | afterMarker {word : Text} {first marker : Char} {passed : Nat}
      (h : AsksFor word first marker passed) (hmarker : ∃ s ∈ sutras, s.marker = marker)
      (hfirst : ∃ s ∈ sutras, first ∈ s.sounds)
      (hclosing : ∀ before within closing after,
        ¬Stretch first marker passed before within closing after) :
      Misread word
        (Text.quoted [first] ++ " comes after its marker ".toList ++ Text.quoted [marker])

section Closings

variable {marker : Char} {passed : Nat} {s closing : Sutra} {rest row closed : List Sutra}

theorem upToMarker?_of_ne (h : s.marker ≠ marker) :
    upToMarker? marker passed (s :: rest) = (upToMarker? marker passed rest).map (s :: ·) := by
  cases passed <;> simp [upToMarker?, h]

theorem upToMarker?_zero (h : s.marker = marker) :
    upToMarker? marker 0 (s :: rest) = some [s] := by
  simp [upToMarker?, h]

theorem upToMarker?_succ (h : s.marker = marker) :
    upToMarker? marker (passed + 1) (s :: rest) = (upToMarker? marker passed rest).map (s :: ·) := by
  simp [upToMarker?, h]

-- A closing is found, past as many others as there are.
theorem upToMarker?_of_cut (h : closing.marker = marker) (within after : List Sutra) :
    upToMarker? marker (within.countP (·.marker == marker)) (within ++ closing :: after) =
      some (within ++ [closing]) := by
  induction within with
  | nil => exact upToMarker?_zero h
  | cons s rest ih =>
      rw [List.cons_append]
      by_cases hs : s.marker = marker
      · rw [List.countP_cons_of_pos (by simpa using hs), upToMarker?_succ hs, ih]
        rfl
      · rw [List.countP_cons_of_neg (by simpa using hs), upToMarker?_of_ne hs, ih]
        rfl

theorem cut_of_upToMarker? (h : upToMarker? marker passed row = some closed) :
    ∃ within closing after, row = within ++ closing :: after ∧ closing.marker = marker ∧
      within.countP (·.marker == marker) = passed ∧ closed = within ++ [closing] := by
  induction row generalizing passed closed with
  | nil => cases passed <;> cases h
  | cons s rest ih =>
      by_cases hs : s.marker = marker
      · cases passed with
        | zero =>
            rw [upToMarker?_zero hs] at h
            cases h
            exact ⟨[], s, rest, rfl, hs, rfl, rfl⟩
        | succ passed =>
            rw [upToMarker?_succ hs] at h
            obtain ⟨more, hmore, rfl⟩ := Option.map_eq_some_iff.mp h
            obtain ⟨within, closing, after, rfl, hmarker, hcount, rfl⟩ := ih hmore
            refine ⟨s :: within, closing, after, rfl, hmarker, ?_, rfl⟩
            rw [List.countP_cons_of_pos (by simpa using hs), hcount]
      · rw [upToMarker?_of_ne hs] at h
        obtain ⟨more, hmore, rfl⟩ := Option.map_eq_some_iff.mp h
        obtain ⟨within, closing, after, rfl, hmarker, hcount, rfl⟩ := ih hmore
        refine ⟨s :: within, closing, after, rfl, hmarker, ?_, rfl⟩
        rw [List.countP_cons_of_neg (by simpa using hs), hcount]

-- Where a stretch ends does not depend on what its first sutra lists.
theorem upToMarker?_exchange (sounds : Text) :
    upToMarker? marker passed (⟨sounds, s.marker⟩ :: rest) =
      (upToMarker? marker passed (s :: rest)).map fun closed =>
        ⟨sounds, s.marker⟩ :: closed.tail := by
  by_cases hs : s.marker = marker
  · have hs' : (⟨sounds, s.marker⟩ : Sutra).marker = marker := hs
    cases passed with
    | zero =>
        rw [upToMarker?_zero hs, upToMarker?_zero hs']
        rfl
    | succ passed =>
        rw [upToMarker?_succ hs, upToMarker?_succ hs', Option.map_map]
        rfl
  · have hs' : (⟨sounds, s.marker⟩ : Sutra).marker ≠ marker := hs
    rw [upToMarker?_of_ne hs, upToMarker?_of_ne hs', Option.map_map]
    rfl

end Closings

-- A text from the first occurrence of a sound on.
theorem dropWhile_bne {first : Char} {skipped : Text} (h : first ∉ skipped) (rest : Text) :
    (skipped ++ first :: rest).dropWhile (· != first) = first :: rest := by
  have hskipped : ∀ c ∈ skipped, (c != first) = true := fun c hc =>
    bne_iff_ne.mpr fun heq => h (heq ▸ hc)
  rw [List.dropWhile_append_of_pos hskipped, List.dropWhile_cons_of_neg (by simp)]

section Openings

variable {first : Char} {before rest : List Sutra} {opening : Sutra}

theorem sutrasFrom_of_cut (hcut : sutras = before ++ opening :: rest)
    (hbefore : ∀ s ∈ before, first ∉ s.sounds) (hopens : first ∈ opening.sounds) :
    sutrasFrom first = ⟨opening.sounds.dropWhile (· != first), opening.marker⟩ :: rest := by
  have hdrop : sutras.dropWhile (fun s => !s.sounds.contains first) = opening :: rest := by
    rw [hcut, List.dropWhile_append_of_pos (by simpa using hbefore),
      List.dropWhile_cons_of_neg (by simpa using hopens)]
  rw [sutrasFrom, hdrop]

theorem sutrasFrom_eq_nil (h : ∀ s ∈ sutras, first ∉ s.sounds) : sutrasFrom first = [] := by
  have hdrop : sutras.dropWhile (fun s => !s.sounds.contains first) = [] := by
    rw [← List.append_nil sutras, List.dropWhile_append_of_pos (by simpa using h),
      List.dropWhile_nil]
  rw [sutrasFrom, hdrop]

-- The first sutra that lists a sound.
theorem exists_opening (h : ∃ s ∈ sutras, first ∈ s.sounds) :
    ∃ before opening rest, sutras = before ++ opening :: rest ∧
      (∀ s ∈ before, first ∉ s.sounds) ∧ first ∈ opening.sounds := by
  obtain ⟨s, hs, hfirst⟩ := h
  have hsome : (sutras.find? (·.sounds.contains first)).isSome := by
    rw [List.find?_isSome]
    exact ⟨s, hs, by simpa using hfirst⟩
  obtain ⟨opening, hfind⟩ := Option.isSome_iff_exists.mp hsome
  obtain ⟨hopens, before, rest, hcut, hbefore⟩ := List.find?_eq_some_iff_append.mp hfind
  exact ⟨before, opening, rest, hcut, by simpa using hbefore, by simpa using hopens⟩

end Openings

section Stretches

variable {word : Text} {first marker : Char} {passed : Nat} {before within after : List Sutra}
  {closing : Sutra}

-- What is read between a first sound and a marker, when both are known.
def readStretch (word : Text) (first marker : Char) (passed : Nat) : Except ClassError Text :=
  if !sutras.any (·.marker == marker) then .error (.unknownMarker word)
  else
    match sutrasFrom first with
    | [] => .error (.noSounds word)
    | listed =>
      match upToMarker? marker passed listed with
      | some closed => .ok (withLong (closed.flatMap (·.sounds)))
      | none => .error (.afterMarker word first marker)

theorem AsksFor.pratyahara_eq (h : AsksFor word first marker passed) :
    pratyahara word = readStretch word first marker passed := by
  unfold pratyahara
  rw [h.begins]
  rcases h.ends with ⟨hend, rfl, rfl⟩ | ⟨hend, hlast, rfl⟩
  · have hsecond : "R2".toList.isSuffixOf word = true := List.isSuffixOf_iff_suffix.mpr hend
    simp only [hsecond, if_true]
    rfl
  · have hsecond : "R2".toList.isSuffixOf word = false := by
      rw [← Bool.not_eq_true, List.isSuffixOf_iff_suffix]
      exact hend
    simp only [hsecond, hlast, Bool.false_eq_true, if_false]
    rfl

theorem Stretch.pratyahara_eq (h : AsksFor word first marker passed)
    (hs : Stretch first marker passed before within closing after) :
    pratyahara word = .ok (withLong (listedFrom first (within ++ [closing]))) := by
  obtain ⟨opening, hhead, hopens⟩ := hs.opens
  obtain ⟨more, hmore⟩ := List.head?_eq_some_iff.mp hhead
  have hrest : within ++ closing :: after = opening :: (more ++ after) := by
    rw [List.append_cons, hmore, List.cons_append]
  have hmarker : sutras.any (·.marker == marker) = true := by
    rw [List.any_eq_true]
    exact ⟨closing, by rw [hs.cut]; simp, beq_iff_eq.mpr hs.closes⟩
  have hclosed := upToMarker?_of_cut hs.closes within after
  rw [hs.passes, hrest, hmore] at hclosed
  have hcut := hs.cut
  rw [hrest] at hcut
  rw [h.pratyahara_eq, readStretch, hmarker, sutrasFrom_of_cut hcut hs.unlisted hopens]
  simp only [Bool.not_true, Bool.false_eq_true, if_false]
  rw [upToMarker?_exchange, hclosed]
  obtain ⟨skipped, listed, hsounds, hskipped⟩ := List.eq_append_cons_of_mem hopens
  simp only [Option.map_some, List.tail_cons, listedFrom, hmore, List.flatMap_cons, hsounds,
    List.append_assoc, List.cons_append, dropWhile_bne hskipped]

theorem Stretch.listedFrom_ne_nil (hs : Stretch first marker passed before within closing after) :
    listedFrom first (within ++ [closing]) ≠ [] := by
  obtain ⟨opening, hhead, hopens⟩ := hs.opens
  have hmem : first ∈ (within ++ [closing]).flatMap (·.sounds) :=
    List.mem_flatMap.mpr ⟨opening, List.mem_of_mem_head? hhead, hopens⟩
  obtain ⟨skipped, listed, hsounds, hskipped⟩ := List.eq_append_cons_of_mem hmem
  rw [listedFrom, hsounds, dropWhile_bne hskipped]
  exact List.cons_ne_nil first listed

theorem AsksFor.unknownMarker (h : AsksFor word first marker passed)
    (hmarker : ∀ s ∈ sutras, s.marker ≠ marker) :
    pratyahara word = .error (.unknownMarker word) := by
  have hany : sutras.any (·.marker == marker) = false := by simpa using hmarker
  rw [h.pratyahara_eq, readStretch, hany]
  rfl

theorem AsksFor.noSounds (h : AsksFor word first marker passed)
    (hmarker : ∃ s ∈ sutras, s.marker = marker) (hfirst : ∀ s ∈ sutras, first ∉ s.sounds) :
    pratyahara word = .error (.noSounds word) := by
  have hany : sutras.any (·.marker == marker) = true := by simpa using hmarker
  rw [h.pratyahara_eq, readStretch, hany, sutrasFrom_eq_nil hfirst]
  rfl

theorem AsksFor.afterMarker (h : AsksFor word first marker passed)
    (hmarker : ∃ s ∈ sutras, s.marker = marker) (hfirst : ∃ s ∈ sutras, first ∈ s.sounds)
    (hclosing : ∀ before within closing after,
      ¬Stretch first marker passed before within closing after) :
    pratyahara word = .error (.afterMarker word first marker) := by
  have hany : sutras.any (·.marker == marker) = true := by simpa using hmarker
  obtain ⟨before, opening, rest, hcut, hbefore, hopens⟩ := exists_opening hfirst
  have hnone : upToMarker? marker passed (opening :: rest) = none := by
    rcases hclosed : upToMarker? marker passed (opening :: rest) with _ | closed
    · rfl
    · obtain ⟨within, closing, after, hrow, hcloses, hcount, -⟩ := cut_of_upToMarker? hclosed
      refine absurd ⟨by rw [hcut, hrow], hbefore, ⟨opening, ?_, hopens⟩, hcloses, hcount⟩
        (hclosing before within closing after)
      rw [List.append_cons] at hrow
      have hhead := congrArg List.head? hrow.symm
      rwa [List.head?_append_of_ne_nil _ (by simp)] at hhead
  rw [h.pratyahara_eq, readStretch, hany, sutrasFrom_of_cut hcut hbefore hopens]
  simp only [Bool.not_true, Bool.false_eq_true, if_false]
  rw [upToMarker?_exchange, hnone]
  rfl

theorem Misread.asksFor {reason : Text} (h : Misread word reason) :
    ∃ first marker passed, AsksFor word first marker passed := by
  cases h with
  | unknownMarker h _ => exact ⟨_, _, _, h⟩
  | noSounds h _ _ => exact ⟨_, _, _, h⟩
  | afterMarker h _ _ _ => exact ⟨_, _, _, h⟩

theorem Misread.pratyahara_eq {reason : Text} (h : Misread word reason) :
    ∃ e, pratyahara word = .error e ∧ e.subject = word ∧ e.reason = reason := by
  cases h with
  | unknownMarker h hmarker => exact ⟨_, h.unknownMarker hmarker, rfl, rfl⟩
  | noSounds h hmarker hfirst => exact ⟨_, h.noSounds hmarker hfirst, rfl, rfl⟩
  | afterMarker h hmarker hfirst hclosing =>
      exact ⟨_, h.afterMarker hmarker hfirst hclosing, rfl, rfl⟩

-- A word that asks for a stretch gets one, or is misread.
theorem AsksFor.stretch_or_misread (h : AsksFor word first marker passed) :
    (∃ before within closing after, Stretch first marker passed before within closing after) ∨
      ∃ reason, Misread word reason := by
  by_cases hmarker : ∃ s ∈ sutras, s.marker = marker
  · by_cases hfirst : ∃ s ∈ sutras, first ∈ s.sounds
    · by_cases hclosing : ∃ before within closing after,
          Stretch first marker passed before within closing after
      · exact .inl hclosing
      · exact .inr ⟨_, .afterMarker h hmarker hfirst (by simpa using hclosing)⟩
    · exact .inr ⟨_, .noSounds h hmarker (by simpa using hfirst)⟩
  · exact .inr ⟨_, .unknownMarker h (by simpa using hmarker)⟩

end Stretches

section Words

variable {c x : Char} {rest word : Text}

-- No sound is in two groups.
theorem mem_savarna : x ∈ (savarna c).sounds ↔ Homorganic c x := by
  have hapart : ∀ group ∈ savarnaGroups, ∀ other ∈ savarnaGroups, ∀ c ∈ group, c ∈ other →
      group = other := by decide
  constructor
  · intro hx
    unfold savarna at hx
    split at hx
    · rename_i group hfind
      have hc : c ∈ group := by simpa using List.find?_some hfind
      exact .inr ⟨group, List.mem_of_find?_eq_some hfind, hc, SoundClass.mem_ofText.mp hx⟩
    · exact .inl (by simpa [SoundClass.mem_ofText] using hx)
  · rintro (rfl | ⟨group, hgroup, hc, hx⟩)
    · exact savarna_self x
    · have hsome : (savarnaGroups.find? (·.contains c)).isSome :=
        List.find?_isSome.mpr ⟨group, hgroup, by simpa using hc⟩
      obtain ⟨other, hfind⟩ := Option.isSome_iff_exists.mp hsome
      have hother : c ∈ other := by simpa using List.find?_some hfind
      rw [savarna, hfind, SoundClass.mem_ofText,
        ← hapart group hgroup other (List.mem_of_find?_eq_some hfind) c hc hother]
      exact hx

theorem mem_withLong {t : Text} :
    x ∈ withLong t ↔ x ∈ t ∨ ∃ short ∈ t, lengthen? short = some x := by
  simp only [withLong, List.mem_flatMap, List.mem_cons, Option.mem_toList]
  constructor
  · rintro ⟨short, hshort, rfl | hx⟩
    · exact .inl hshort
    · exact .inr ⟨short, hshort, hx⟩
  · rintro (hx | ⟨short, hshort, hx⟩)
    · exact ⟨x, hx, .inl rfl⟩
    · exact ⟨short, hshort, .inr hx⟩

theorem namesGroup_iff : NamesGroup (c :: rest) ↔
    ("u~".toList.isSuffixOf (c :: rest) || (rest.isEmpty && SoundClass.ak.contains c)) = true := by
  rw [Bool.or_eq_true, List.isSuffixOf_iff_suffix, Bool.and_eq_true, NamesGroup,
    SoundClass.contains, List.contains_iff_mem, SoundClass.ak, SoundClass.mem_ofText]
  refine or_congr_right ⟨?_, ?_⟩
  · rintro ⟨d, hd, heq⟩
    obtain ⟨rfl, rfl⟩ := List.cons.inj heq
    exact ⟨rfl, hd⟩
  · rintro ⟨hrest, hc⟩
    rw [List.isEmpty_iff.mp hrest]
    exact ⟨c, hc, rfl⟩

theorem wordSounds_of_group (h : NamesGroup (c :: rest)) :
    wordSounds (c :: rest) = .ok (savarna c).sounds := by
  rw [wordSounds, if_pos (namesGroup_iff.mp h)]

theorem wordSounds_single (h : ¬NamesGroup [c]) : wordSounds [c] = .ok [c] := by
  rw [wordSounds, if_neg (mt namesGroup_iff.mpr h)]
  rfl

theorem AsksFor.wordSounds_eq {first marker : Char} {passed : Nat}
    (h : AsksFor word first marker passed) : wordSounds word = pratyahara word := by
  have hseveral := h.several
  cases word with
  | nil => cases hseveral
  | cons c rest =>
      have hrest : rest.isEmpty = false := by
        rw [← Bool.not_eq_true, List.isEmpty_iff]
        rintro rfl
        exact absurd hseveral (by simp)
      rw [wordSounds, if_neg (mt namesGroup_iff.mpr h.noGroup), hrest]
      rfl

theorem exists_asksFor (hgroup : ¬NamesGroup (c :: rest)) (hrest : rest ≠ []) :
    ∃ marker passed, AsksFor (c :: rest) c marker passed := by
  have hseveral : 1 < (c :: rest).length := by
    have := List.length_pos_iff.mpr hrest
    rw [List.length_cons]
    omega
  by_cases hend : "R2".toList <:+ c :: rest
  · exact ⟨'R', 1, hgroup, hseveral, rfl, .inl ⟨hend, rfl, rfl⟩⟩
  · exact ⟨_, 0, hgroup, hseveral, rfl,
      .inr ⟨hend, List.getLast?_eq_some_getLast (List.cons_ne_nil c rest), rfl⟩⟩

-- A word has a meaning, and its sounds are those that it denotes.
def Meant (word t : Text) : Prop :=
  t ≠ [] ∧ (∀ x, x ∈ t ↔ Denotes word x) ∧ ∀ reason, ¬Misread word reason

theorem meant_of_group (h : NamesGroup (c :: rest)) : Meant (c :: rest) (savarna c).sounds := by
  refine ⟨List.ne_nil_of_mem (savarna_self c), fun x => mem_savarna.trans ⟨.group h, fun hx => ?_⟩,
    fun reason hmisread => ?_⟩
  · cases hx with
    | group _ hx => exact hx
    | itself hno => exact absurd h hno
    | listed hasks => exact absurd h hasks.noGroup
    | long hasks => exact absurd h hasks.noGroup
  · obtain ⟨_, _, _, hasks⟩ := hmisread.asksFor
    exact hasks.noGroup h

theorem meant_of_single (h : ¬NamesGroup [c]) : Meant [c] [c] := by
  have hno : ∀ {first marker : Char} {passed : Nat}, ¬AsksFor [c] first marker passed :=
    fun hasks => absurd hasks.several (by simp)
  refine ⟨List.cons_ne_nil c [], fun x => ⟨fun hx => ?_, fun hx => ?_⟩, fun reason hmisread => ?_⟩
  · rw [List.mem_singleton.mp hx]
    exact .itself h
  · cases hx with
    | group hgroup => exact absurd hgroup h
    | itself => exact List.mem_singleton_self c
    | listed hasks => exact absurd hasks hno
    | long hasks => exact absurd hasks hno
  · obtain ⟨_, _, _, hasks⟩ := hmisread.asksFor
    exact hno hasks

theorem meant_of_stretch {first marker : Char} {passed : Nat} {before within after : List Sutra}
    {closing : Sutra} (h : AsksFor word first marker passed)
    (hs : Stretch first marker passed before within closing after) :
    Meant word (withLong (listedFrom first (within ++ [closing]))) := by
  have hok := hs.pratyahara_eq h
  refine ⟨?_, fun x => ⟨fun hx => ?_, fun hx => ?_⟩, fun reason hmisread => ?_⟩
  · obtain ⟨c, hc⟩ := List.exists_mem_of_ne_nil _ hs.listedFrom_ne_nil
    exact List.ne_nil_of_mem (mem_withLong.mpr (.inl hc))
  · rcases mem_withLong.mp hx with hx | ⟨short, hshort, hx⟩
    · exact .listed h hs hx
    · exact .long h hs hshort hx
  · cases hx with
    | group hgroup => exact absurd hgroup h.noGroup
    | itself => exact absurd h.several (by simp)
    | listed h' hs' hx =>
        rw [Except.ok.inj (hok.symm.trans (hs'.pratyahara_eq h'))]
        exact mem_withLong.mpr (.inl hx)
    | long h' hs' hshort hx =>
        rw [Except.ok.inj (hok.symm.trans (hs'.pratyahara_eq h'))]
        exact mem_withLong.mpr (.inr ⟨_, hshort, hx⟩)
  · obtain ⟨e, herror, -, -⟩ := hmisread.pratyahara_eq
    cases hok.symm.trans herror

theorem wordSounds_cases (hne : word ≠ []) :
    (∃ t, wordSounds word = .ok t ∧ Meant word t) ∨
      ∃ e, wordSounds word = .error e ∧ e.subject = word ∧
        ∀ reason, Misread word reason ↔ reason = e.reason := by
  obtain ⟨c, rest, rfl⟩ := List.exists_cons_of_ne_nil hne
  by_cases hgroup : NamesGroup (c :: rest)
  · exact .inl ⟨_, wordSounds_of_group hgroup, meant_of_group hgroup⟩
  · by_cases hrest : rest = []
    · subst hrest
      exact .inl ⟨_, wordSounds_single hgroup, meant_of_single hgroup⟩
    · obtain ⟨marker, passed, h⟩ := exists_asksFor hgroup hrest
      rw [h.wordSounds_eq]
      rcases h.stretch_or_misread with ⟨before, within, closing, after, hs⟩ | ⟨reason, hmisread⟩
      · exact .inl ⟨_, hs.pratyahara_eq h, meant_of_stretch h hs⟩
      · obtain ⟨e, herror, hsubject, rfl⟩ := hmisread.pratyahara_eq
        refine .inr ⟨e, herror, hsubject, fun reason => ⟨fun h' => ?_, fun heq => heq ▸ hmisread⟩⟩
        obtain ⟨e', herror', -, rfl⟩ := h'.pratyahara_eq
        cases herror.symm.trans herror'
        rfl

theorem meant_of_ok (hne : word ≠ []) {t : Text} (h : wordSounds word = .ok t) :
    Meant word t := by
  rcases wordSounds_cases hne with ⟨t', hok, hmeant⟩ | ⟨e, herror, -⟩
  · cases h.symm.trans hok
    exact hmeant
  · cases h.symm.trans herror

theorem misread_of_error (hne : word ≠ []) {e : ClassError} (h : wordSounds word = .error e) :
    e.subject = word ∧ ∀ reason, Misread word reason ↔ reason = e.reason := by
  rcases wordSounds_cases hne with ⟨t, hok, -⟩ | ⟨e', herror, hsubject, hmisread⟩
  · cases h.symm.trans hok
  · cases h.symm.trans herror
    exact ⟨hsubject, hmisread⟩

end Words

end Sound

namespace SoundClass

open Sound

variable {expr : Text}

theorem ne_nil_of_mem_words {word : Text} (h : word ∈ expr.words) : word ≠ [] := by
  rw [Text.words_eq_splitOnP] at h
  simpa using (List.mem_filter.mp h).2

theorem decode_eq (h : expr.words ≠ []) :
    decode expr = (expr.words.mapM wordSounds).map fun parts => ofText parts.flatten := by
  unfold decode
  split
  · rename_i hnil
    exact absurd hnil h
  · rfl

theorem decode_of_meant {parts : List Text} (hne : expr.words ≠ [])
    (hok : expr.words.mapM wordSounds = .ok parts)
    (hmeant : List.Forall₂ Meant expr.words parts) :
    ∃ C, decode expr = .ok C ∧ C.sounds ≠ [] ∧
      ∀ x, C.contains x = true ↔ ∃ word ∈ expr.words, Denotes word x := by
  have hmem : ∀ x, x ∈ parts.flatten ↔ ∃ word ∈ expr.words, Denotes word x := by
    intro x
    rw [List.mem_flatten]
    constructor
    · rintro ⟨t, ht, hx⟩
      obtain ⟨word, hword, -, hsounds, -⟩ := exists_of_mem_right hmeant t ht
      exact ⟨word, hword, (hsounds x).mp hx⟩
    · rintro ⟨word, hword, hx⟩
      obtain ⟨t, ht, -, hsounds, -⟩ := exists_of_mem_left hmeant word hword
      exact ⟨t, ht, (hsounds x).mpr hx⟩
  refine ⟨ofText parts.flatten, by rw [decode_eq hne, hok]; rfl, ofText_ne_nil ?_, fun x => ?_⟩
  · obtain ⟨word, hword⟩ := List.exists_mem_of_ne_nil _ hne
    obtain ⟨t, ht, hsome, -⟩ := exists_of_mem_left hmeant word hword
    obtain ⟨x, hx⟩ := List.exists_mem_of_ne_nil t hsome
    exact List.ne_nil_of_mem (List.mem_flatten.mpr ⟨t, ht, hx⟩)
  · rw [contains, List.contains_iff_mem, mem_ofText, hmem]

-- The words of an expression are read from the left, and the first one without a meaning stops
-- the reading.
theorem decode_cases (expr : Text) :
    (expr.words = [] ∧ decode expr = .error (.emptyExpression expr)) ∨
    (∃ C, expr.words ≠ [] ∧ (∀ word ∈ expr.words, ∀ reason, ¬Misread word reason) ∧
      decode expr = .ok C ∧ C.sounds ≠ [] ∧
      ∀ x, C.contains x = true ↔ ∃ word ∈ expr.words, Denotes word x) ∨
    ∃ before after e, expr.words = before ++ e.subject :: after ∧
      (∀ word ∈ before, ∀ reason, ¬Misread word reason) ∧ decode expr = .error e ∧
      ∀ reason, Misread e.subject reason ↔ reason = e.reason := by
  by_cases hne : expr.words = []
  · refine .inl ⟨hne, ?_⟩
    unfold decode
    rw [hne]
  refine .inr ?_
  have hword : ∀ word ∈ expr.words, word ≠ [] := fun _ => ne_nil_of_mem_words
  rcases mapM_first_failure wordSounds expr.words with
    ⟨parts, hok, hall⟩ | ⟨before, word, after, e, hcut, hbefore, he, herror⟩
  · have hmeant : List.Forall₂ Meant expr.words parts :=
      ((List.forall₂_and_left (l := expr.words) parts).mpr ⟨hword, hall⟩).imp
        fun word t h => meant_of_ok h.1 h.2
    obtain ⟨C, hC, hsounds⟩ := decode_of_meant hne hok hmeant
    refine .inl ⟨C, hne, fun word hmem => ?_, hC, hsounds⟩
    obtain ⟨t, -, -, -, hno⟩ := exists_of_mem_left hmeant word hmem
    exact hno
  · obtain ⟨rfl, hmisread⟩ := misread_of_error (hword word (by rw [hcut]; simp)) he
    refine .inr ⟨before, after, e, hcut, fun w hw => ?_, ?_, hmisread⟩
    · obtain ⟨t, ht⟩ := hbefore w hw
      exact (meant_of_ok (hword w (by rw [hcut]; simp [hw])) ht).2.2
    · rw [decode_eq hne, herror]
      rfl

-- An expression is read just if it has words and each of them has a meaning. It then stands for
-- the sounds that its words denote, and these are never none. Otherwise it is told what is wrong
-- with the expression, or with the first word that has no meaning.
theorem decode_reads_notation (expr : Text) :
    expr.words = (expr.splitOnP Text.isBlank).filter (!·.isEmpty) ∧
    (∀ C, decode expr = .ok C → C.sounds ≠ [] ∧
      ∀ x, C.contains x = true ↔ ∃ word ∈ expr.words, Denotes word x) ∧
    ((∃ C, decode expr = .ok C) ↔
      expr.words ≠ [] ∧ ∀ word ∈ expr.words, ∀ reason, ¬Misread word reason) ∧
    ∀ subject reason,
      (∃ e, decode expr = .error e ∧ e.subject = subject ∧ e.reason = reason) ↔
        expr.words = [] ∧ subject = expr ∧ reason = "empty expression".toList ∨
        ∃ before after, expr.words = before ++ subject :: after ∧
          (∀ word ∈ before, ∀ reason, ¬Misread word reason) ∧ Misread subject reason := by
  refine ⟨expr.words_eq_splitOnP, ?_⟩
  rcases decode_cases expr with ⟨hnone, hresult⟩ | ⟨C, hne, hread, hresult, hsounds⟩ |
    ⟨before, after, e, hcut, hbefore, hresult, hmisread⟩
  · simp only [hresult, hnone]
    refine ⟨by simp, by simp, fun subject reason => ⟨?_, ?_⟩⟩
    · rintro ⟨e, he, rfl, rfl⟩
      cases he
      exact .inl ⟨trivial, rfl, rfl⟩
    · rintro (⟨-, rfl, rfl⟩ | ⟨before, after, hcut, -⟩)
      · exact ⟨_, rfl, rfl, rfl⟩
      · simp at hcut
  · simp only [hresult]
    refine ⟨fun C' h => ?_, ⟨fun _ => ⟨hne, hread⟩, fun _ => ⟨C, rfl⟩⟩,
      fun subject reason => ⟨?_, ?_⟩⟩
    · cases h
      exact hsounds
    · rintro ⟨e, he, -⟩
      cases he
    · rintro (⟨hnone, -⟩ | ⟨before, after, hcut, -, hbad⟩)
      · exact absurd hnone hne
      · exact absurd hbad (hread subject (by rw [hcut]; simp) reason)
  · simp only [hresult]
    have hbad := (hmisread e.reason).mpr rfl
    refine ⟨fun C h => (by cases h), ⟨?_, ?_⟩, fun subject reason => ⟨?_, ?_⟩⟩
    · rintro ⟨C, h⟩
      cases h
    · rintro ⟨-, hread⟩
      exact absurd hbad (hread e.subject (by rw [hcut]; simp) e.reason)
    · rintro ⟨e', he', rfl, rfl⟩
      cases he'
      exact .inr ⟨before, after, hcut, hbefore, hbad⟩
    · rintro (⟨hnone, -⟩ | ⟨before', after', hcut', hbefore', hbad'⟩)
      · simp [hnone] at hcut
      · -- The first word without a meaning is one word.
        have hsubject : e.subject = subject := by
          by_contra hother
          rcases cut_cases (hcut.symm.trans hcut') hother with ⟨more, rfl, -⟩ | ⟨more, rfl, -⟩
          · exact hbefore' _ (by simp) _ hbad
          · exact hbefore _ (by simp) _ hbad'
        subst hsubject
        exact ⟨e, rfl, rfl, ((hmisread reason).mp hbad').symm⟩

end SoundClass

end Vyakarana
