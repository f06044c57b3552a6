import Vyakarana.Proofs.Derivation.Consultation
import Vyakarana.Proofs.Grammar.MarkerFaults
import Vyakarana.Proofs.Grammar.Notation

/-!
What becomes of each sound and each accent of a taught form.

Of a term that is written as it was taught, the sounds that are no nasal vowels are kept, but for a
last sound and an initial marker. Whatever is dropped is told by a tag, and there are no tags that
do not tell of something that stood in the taught form.
-/

namespace Vyakarana

namespace Text

open NotationUnit

-- The sounds of a text, without its nasal vowels.
def bareSounds : Text → Text
  | [] => []
  | c :: rest =>
    if Sound.alphabet.contains c && rest.head? != some '~' then c :: bareSounds rest
    else bareSounds rest

theorem bareSounds_mark {c : Char} (h : Sound.alphabet.contains c = false) (rest : Text) :
    bareSounds (c :: rest) = bareSounds rest := by
  rw [bareSounds, h, Bool.false_and, if_neg Bool.false_ne_true]

theorem not_sound_of_isAccent {c : Char} (h : Stripping.isAccent c = true) :
    Sound.alphabet.contains c = false := by
  by_contra hc
  rw [Bool.not_eq_false] at hc
  rw [(not_mark_of_mem (List.contains_iff_mem.mp hc)).2] at h
  cases h

theorem bareSounds_accent {mark : Option Char} (h : ∀ c ∈ mark, Stripping.isAccent c = true)
    (rest : Text) : bareSounds (mark.toList ++ rest) = bareSounds rest := by
  cases mark with
  | none => rfl
  | some c => exact bareSounds_mark (not_sound_of_isAccent (h c rfl)) rest

theorem head?_accent {mark : Option Char} (h : ∀ c ∈ mark, Stripping.isAccent c = true)
    {rest : Text} (hrest : rest.head? ≠ some '~') : (mark.toList ++ rest).head? ≠ some '~' := by
  cases mark with
  | none => exact hrest
  | some c => simpa using ne_tilde_of_isAccent (h c rfl)

theorem bareSounds_unit (x : NotationUnit) {rest : Text} (hrest : rest.head? ≠ some '~') :
    bareSounds (x.text ++ rest) = (if x.nasal then [] else [x.sound]) ++ bareSounds rest := by
  obtain ⟨v, nasal, mark, hv, -, hmark⟩ := x
  have hsound : Sound.alphabet.contains v = true := List.contains_iff_mem.mpr hv
  have htilde : Sound.alphabet.contains '~' = false := by decide
  dsimp only [NotationUnit.text, marks]
  cases nasal with
  | true =>
      have hnext : bareSounds ('~' :: (mark.toList ++ rest)) = bareSounds rest := by
        rw [bareSounds_mark htilde, bareSounds_accent hmark]
      simpa [bareSounds] using hnext
  | false =>
      have hnext := head?_accent hmark hrest
      rw [if_neg Bool.false_ne_true, List.nil_append, List.cons_append, bareSounds, hsound,
        Bool.true_and, if_pos (by simpa using hnext), bareSounds_accent hmark]
      rfl

theorem bareSounds_units (units : List NotationUnit) :
    bareSounds (units.flatMap NotationUnit.text) = (units.filter (!·.nasal)).map (·.sound) := by
  induction units with
  | nil => rfl
  | cons x rest ih =>
      rw [List.flatMap_cons, bareSounds_unit x (Stripping.head?_units rest).1, ih]
      cases hnasal : x.nasal <;> simp [hnasal]

theorem mem_alphabet_of_mem_bareSounds {t : Text} {c : Char} (h : c ∈ t.bareSounds) :
    c ∈ Sound.alphabet := by
  induction t with
  | nil => cases h
  | cons x rest ih =>
      rw [bareSounds] at h
      split at h
      · rename_i hx
        rcases List.mem_cons.mp h with rfl | h
        · exact List.contains_iff_mem.mp ((Bool.and_eq_true _ _).mp hx).1
        · exact ih h
      · exact ih h

-- A consonant at the beginning is a sound of its own.
theorem Notated.head?_bareSounds {t : Text} (h : t.Notated) {c : Char} (hc : t.head? = some c)
    (hhal : Sound.isAc c = false) : t.bareSounds.head? = some c := by
  obtain ⟨units, rfl⟩ := h
  cases units with
  | nil => cases hc
  | cons x rest =>
      cases hc
      have hnasal : x.nasal = false := by
        by_contra hyes
        rw [x.isAc_of_nasal (by simpa using hyes)] at hhal
        cases hhal
      rw [bareSounds_units, List.filter_cons_of_pos (by simp [hnasal])]
      rfl

end Text

namespace Stripping

open NotationUnit

-- The sounds that are left once the nasal vowels and the accents are gone.
theorem kept_eq_bareSounds {t : Text} (h : t.Notated) :
    ((withoutNasals t).filter fun c => !isAccent c) = t.bareSounds := by
  obtain ⟨units, rfl⟩ := h
  rw [withoutNasals_units, Text.bareSounds_units]
  have hunit : ∀ x : NotationUnit, x.nasal = false →
      (x.text.filter fun c => !isAccent c) = [x.sound] := by
    intro x hnasal
    rw [NotationUnit.text, marks, hnasal, if_neg Bool.false_ne_true, List.nil_append,
      List.filter_cons_of_pos (by simp [(not_mark_of_mem x.sound_mem).2])]
    refine congrArg (x.sound :: ·) (List.filter_eq_nil_iff.mpr fun c hc => ?_)
    rw [x.isAccent_of_mem c (Option.mem_toList.mp hc)]
    simp
  induction units with
  | nil => rfl
  | cons x rest ih =>
      cases hnasal : x.nasal with
      | true => simpa [hnasal] using ih
      | false =>
          rw [List.filter_cons_of_pos (by simp [hnasal]), List.flatMap_cons, List.filter_append,
            hunit x hnasal, ih]
          rfl

theorem pair_prefix_cons {c m y : Char} {rest : Text} :
    [c, m] <+: y :: rest ↔ c = y ∧ rest.head? = some m := by
  cases rest <;> simp [List.cons_prefix_cons, eq_comm]

-- No sound stands among the marks of a unit.
theorem infix_marks {c m : Char} (hc : c ∈ Sound.alphabet) (nasal : Bool) {mark : Option Char}
    (hmark : ∀ a ∈ mark, isAccent a = true) (rest : Text) :
    [c, m] <:+: marks nasal mark ++ rest ↔ [c, m] <:+: rest := by
  obtain ⟨htilde, haccent⟩ := not_mark_of_mem hc
  have hskip : ∀ {a : Char} {more : Text}, c ≠ a → ([c, m] <:+: a :: more ↔ [c, m] <:+: more) := by
    intro a more hne
    rw [List.infix_cons_iff, pair_prefix_cons]
    exact or_iff_right fun h => hne h.1
  have hlater : [c, m] <:+: mark.toList ++ rest ↔ [c, m] <:+: rest := by
    cases mark with
    | none => rfl
    | some a =>
        refine hskip ?_
        rintro rfl
        cases haccent.symm.trans (hmark c rfl)
  cases nasal with
  | false => exact hlater
  | true => exact (hskip (by simpa using htilde)).trans hlater

-- An accent right after a sound belongs to the unit of this sound.
theorem infix_unit {c m : Char} (hc : c ∈ Sound.alphabet) (hm : isAccent m = true)
    (x : NotationUnit) (rest : List NotationUnit) :
    [c, m] <:+: x.text ++ rest.flatMap NotationUnit.text ↔
      (c = x.sound ∧ x.nasal = false ∧ x.accent = some m) ∨
        [c, m] <:+: rest.flatMap NotationUnit.text := by
  have haccent := (head?_units rest).2
  generalize rest.flatMap NotationUnit.text = after at haccent ⊢
  have hafter : after.head? ≠ some m := by
    intro heq
    rw [heq, Option.any_some, hm] at haccent
    cases haccent
  have hhead : (marks x.nasal x.accent ++ after).head? = some m ↔
      x.nasal = false ∧ x.accent = some m := by
    rw [marks]
    cases x.nasal with
    | true => simp [(ne_tilde_of_isAccent hm).symm]
    | false => cases x.accent <;> simp [hafter]
  rw [NotationUnit.text, List.cons_append, List.infix_cons_iff, pair_prefix_cons, hhead,
    infix_marks hc x.nasal x.isAccent_of_mem]

-- The accents that outlive the nasal vowels stand right after sounds.
theorem mem_withoutNasals_iff {t : Text} (h : t.Notated) {m : Char} (hm : isAccent m = true) :
    m ∈ withoutNasals t ↔ ∃ c ∈ Sound.alphabet, [c, m] <:+: t := by
  obtain ⟨units, rfl⟩ := h
  rw [withoutNasals_units]
  induction units with
  | nil => simp
  | cons x rest ih =>
      have hunit : m ∈ x.text ↔ x.nasal = true ∧ m = '~' ∨ x.accent = some m := by
        have hne : m ≠ x.sound := by
          rintro rfl
          cases hm.symm.trans (not_mark_of_mem x.sound_mem).2
        rw [NotationUnit.text, marks]
        cases x.nasal <;> simp [hne]
      have hsound : (∃ c ∈ Sound.alphabet, [c, m] <:+: (x :: rest).flatMap NotationUnit.text) ↔
          (x.nasal = false ∧ x.accent = some m) ∨
            ∃ c ∈ Sound.alphabet, [c, m] <:+: rest.flatMap NotationUnit.text := by
        rw [List.flatMap_cons]
        constructor
        · rintro ⟨c, hc, hinfix⟩
          exact ((infix_unit hc hm x rest).mp hinfix).imp (·.2) fun h => ⟨c, hc, h⟩
        · rintro (hx | ⟨c, hc, hinfix⟩)
          · exact ⟨x.sound, x.sound_mem, (infix_unit x.sound_mem hm x rest).mpr (.inl ⟨rfl, hx⟩)⟩
          · exact ⟨c, hc, (infix_unit hc hm x rest).mpr (.inr hinfix)⟩
      rw [hsound, ← ih]
      cases hnasal : x.nasal with
      | true => simp [hnasal]
      | false =>
          rw [List.filter_cons_of_pos (by simp [hnasal]), List.flatMap_cons, List.mem_append, hunit]
          simp [hnasal]

theorem nasal_prefix_cons {v m c : Char} {rest : Text} :
    [v, '~', m] <+: c :: rest ↔ v = c ∧ rest.head? = some '~' ∧ rest[1]? = some m := by
  rcases rest with _ | ⟨mark, _ | ⟨accent, more⟩⟩
  · simp [List.cons_prefix_cons]
  · simp [List.cons_prefix_cons, eq_comm]
  · simp [List.cons_prefix_cons, eq_comm]

-- The accent of a nasal vowel is written after its tilde.
theorem mem_nasalVowels_some {t : Text} {v m : Char} :
    (v, some m) ∈ nasalVowels t ↔
      Sound.isAc v = true ∧ isAccent m = true ∧ [v, '~', m] <:+: t := by
  induction t with
  | nil => simp [nasalVowels]
  | cons c rest ih =>
      have haccent : rest[1]?.filter isAccent = some m ↔ rest[1]? = some m ∧ isAccent m = true :=
        Option.filter_eq_some_iff
      rw [nasalVowels, List.infix_cons_iff, nasal_prefix_cons]
      split
      · rename_i hnasal
        rw [Bool.and_eq_true, beq_iff_eq] at hnasal
        rw [List.mem_cons, ih, Prod.mk.injEq, eq_comm (a := some m), haccent]
        constructor
        · rintro (⟨rfl, hm, hmark⟩ | ⟨hv, hmark, hinfix⟩)
          · exact ⟨hnasal.1, hmark, .inl ⟨rfl, hnasal.2, hm⟩⟩
          · exact ⟨hv, hmark, .inr hinfix⟩
        · rintro ⟨hv, hmark, ⟨rfl, -, hm⟩ | hinfix⟩
          · exact .inl ⟨rfl, hm, hmark⟩
          · exact .inr ⟨hv, hmark, hinfix⟩
      · rename_i hnasal
        rw [Bool.and_eq_true, beq_iff_eq] at hnasal
        rw [ih]
        constructor
        · rintro ⟨hv, hmark, hinfix⟩
          exact ⟨hv, hmark, .inr hinfix⟩
        · rintro ⟨hv, hmark, ⟨rfl, htilde, -⟩ | hinfix⟩
          · exact absurd ⟨hv, htilde⟩ hnasal
          · exact ⟨hv, hmark, hinfix⟩

-- What the notation of a taught form tells, apart from the markers at its ends.
inductive ToldBy (u : Text) : Tag → Prop
  | ir (h : endsInIr u = true) : ToldBy u (.it .ir)
  | irAccent (h : "i~^r".toList <:+ u) : ToldBy u .svaritet
  | nasal {v : Char} {marker : Marker} (hv : Sound.isAc v = true) (h : [v, '~'] <:+: u.beforeIr)
      (hmarker : Marker.ofSound? v = some marker) : ToldBy u (.it marker)
  | nasalLow {v : Char} (hv : Sound.isAc v = true) (h : [v, '~', '\\'] <:+: u.beforeIr) :
      ToldBy u .anudattet
  | nasalFalling {v : Char} (hv : Sound.isAc v = true) (h : [v, '~', '^'] <:+: u.beforeIr) :
      ToldBy u .svaritet
  | low {c : Char} (hc : c ∈ Sound.alphabet) (h : [c, '\\'] <:+: u.beforeIr) : ToldBy u .anudatta
  | falling {c : Char} (hc : c ∈ Sound.alphabet) (h : [c, '^'] <:+: u.beforeIr) :
      ToldBy u .svarita

theorem mem_nasalTags {v : Char} {accent : Option Char} {tags : List Tag}
    (haccent : ∀ m ∈ accent, isAccent m = true) (h : nasalTags v accent = .ok tags) (tag : Tag) :
    tag ∈ tags ↔ (∃ marker, Marker.ofSound? v = some marker ∧ tag = .it marker) ∨
      accent = some '\\' ∧ tag = .anudattet ∨ accent = some '^' ∧ tag = .svaritet := by
  obtain ⟨own, hown, rfl⟩ := exists_of_map_ok h
  have hmarker : ∃ marker, Marker.ofSound? v = some marker ∧ own = .it marker := by
    rcases hsound : Marker.ofSound? v with _ | marker
    · simp [Tag.ofMarker, hsound] at hown
    · exact ⟨marker, rfl, by simpa [Tag.ofMarker, hsound] using hown.symm⟩
  obtain ⟨marker, hmarker, rfl⟩ := hmarker
  cases accent with
  | none => simp [hmarker]
  | some m =>
      have hm : m = '\\' ∨ m = '^' := by simpa [isAccent] using haccent m rfl
      rcases hm with rfl | rfl <;> simp [hmarker, or_comm]

theorem mem_allNasalTags {t : Text} {tags : List Tag} (h : allNasalTags t = .ok tags) (tag : Tag) :
    tag ∈ tags ↔
      (∃ v marker, Sound.isAc v = true ∧ [v, '~'] <:+: t ∧ Marker.ofSound? v = some marker ∧
        tag = .it marker) ∨
      (∃ v, Sound.isAc v = true ∧ [v, '~', '\\'] <:+: t ∧ tag = .anudattet) ∨
      ∃ v, Sound.isAc v = true ∧ [v, '~', '^'] <:+: t ∧ tag = .svaritet := by
  obtain ⟨rows, hok, rfl⟩ := exists_of_map_ok h
  rcases mapM_cases (fun (v, accent) => nasalTags v accent) (nasalVowels t) with
    ⟨rows', hok', hall⟩ | ⟨_, -, _, -, herror⟩
  swap
  · cases hok.symm.trans herror
  cases hok.symm.trans hok'
  have haccent : ∀ {v accent}, (v, accent) ∈ nasalVowels t → ∀ m ∈ accent, isAccent m = true := by
    rintro v _ hmem m rfl
    exact (mem_nasalVowels_some.mp hmem).2.1
  -- Each nasal vowel has a row of tags, and each row is that of a nasal vowel.
  have hrow {v : Char} {accent : Option Char} (hmem : (v, accent) ∈ nasalVowels t)
      (htag : (∃ marker, Marker.ofSound? v = some marker ∧ tag = .it marker) ∨
        accent = some '\\' ∧ tag = .anudattet ∨ accent = some '^' ∧ tag = .svaritet) :
      tag ∈ rows.flatten := by
    obtain ⟨row, hrow, heq⟩ := exists_of_mem_left hall _ hmem
    exact List.mem_flatten.mpr ⟨row, hrow, (mem_nasalTags (haccent hmem) heq tag).mpr htag⟩
  constructor
  · intro htag
    obtain ⟨row, hrow, htag⟩ := List.mem_flatten.mp htag
    obtain ⟨⟨v, accent⟩, hmem, heq⟩ := exists_of_mem_right hall row hrow
    obtain ⟨hv, htilde⟩ := mem_nasalVowels hmem
    rcases (mem_nasalTags (haccent hmem) heq tag).mp htag with
      ⟨marker, hmarker, rfl⟩ | ⟨rfl, rfl⟩ | ⟨rfl, rfl⟩
    · exact .inl ⟨v, marker, hv, htilde, hmarker, rfl⟩
    · exact .inr (.inl ⟨v, hv, (mem_nasalVowels_some.mp hmem).2.2, rfl⟩)
    · exact .inr (.inr ⟨v, hv, (mem_nasalVowels_some.mp hmem).2.2, rfl⟩)
  · rintro (⟨v, marker, hv, htilde, hmarker, rfl⟩ | ⟨v, hv, hinfix, rfl⟩ | ⟨v, hv, hinfix, rfl⟩)
    · obtain ⟨accent, hmem⟩ := exists_mem_nasalVowels hv htilde
      exact hrow hmem (.inl ⟨marker, hmarker, rfl⟩)
    · exact hrow (mem_nasalVowels_some.mpr ⟨hv, rfl, hinfix⟩) (.inr (.inl ⟨rfl, rfl⟩))
    · exact hrow (mem_nasalVowels_some.mpr ⟨hv, rfl, hinfix⟩) (.inr (.inr ⟨rfl, rfl⟩))

end Stripping

namespace Term

-- The tags of `t'` are those of `t` and the ones that `told` holds of.
def Gains (told : Tag → Prop) (t t' : Term) : Prop :=
  ∀ tag, t'.hasTag tag = true ↔ t.hasTag tag = true ∨ told tag

variable {told more : Tag → Prop} {t t' t'' : Term}

theorem gains_addTag (tag : Tag) (t : Term) : Gains (· = tag) t (t.addTag tag) := by
  intro x
  rw [hasTag_addTag, Bool.or_eq_true, beq_iff_eq]
  exact or_comm

theorem gains_self (h : ∀ tag, ¬told tag) (t : Term) : Gains told t t :=
  fun tag => (or_iff_left (h tag)).symm

theorem Gains.trans (h : Gains told t t') (h' : Gains more t' t'') :
    Gains (fun tag => told tag ∨ more tag) t t'' :=
  fun tag => by rw [h' tag, h tag, or_assoc]

theorem Gains.congr (h : Gains told t t') (heq : ∀ tag, told tag ↔ more tag) : Gains more t t' :=
  fun tag => by rw [h tag, heq tag]

theorem gains_addTags (tags : List Tag) (t : Term) : Gains (· ∈ tags) t (t.addTags tags) := by
  induction tags generalizing t with
  | nil => exact gains_self (by simp) t
  | cons tag rest ih =>
      exact ((gains_addTag tag t).trans (ih (t.addTag tag))).congr fun x => List.mem_cons.symm

end Term

namespace Stripping

variable {t : Term} {u : Text} {s : Stripping}

theorem endsInIr_iff {t : Text} :
    endsInIr t = true ↔ "i~r".toList <:+ t ∨ "i~^r".toList <:+ t := by
  rw [endsInIr, Bool.or_eq_true, List.isSuffixOf_iff_suffix, List.isSuffixOf_iff_suffix]

theorem gains_dropIr (t : Term) :
    t.Gains (fun tag => endsInIr t.text = true ∧ tag = .it .ir ∨
      "i~^r".toList <:+ t.text ∧ tag = .svaritet) (dropIr t) := by
  have hir : "i~r".toList.isSuffixOf t.text = true ↔ _ := List.isSuffixOf_iff_suffix
  have haccent : "i~^r".toList.isSuffixOf t.text = true ↔ _ := List.isSuffixOf_iff_suffix
  unfold dropIr
  split
  · have hnot : "i~r".toList <:+ t.text → ¬"i~^r".toList <:+ t.text := fun hir haccent =>
      absurd (List.suffix_of_suffix_length_le hir haccent (by decide)) (by decide)
    refine (Term.gains_addTag (.it .ir) t).congr fun tag => ?_
    rw [endsInIr_iff]
    tauto
  · split
    · refine (Term.gains_addTags [.it .ir, .svaritet] t).congr fun tag => ?_
      rw [endsInIr_iff, List.mem_pair]
      tauto
    · refine Term.gains_self (fun tag => ?_) t
      rw [endsInIr_iff]
      tauto

theorem gains_dropNasals (tags : List Tag) (s : Stripping) :
    s.term.Gains (· ∈ tags) (s.dropNasals tags).term := by
  unfold dropNasals
  split
  · rename_i hempty
    exact Term.gains_self (by simp [List.isEmpty_iff.mp hempty]) s.term
  · exact Term.gains_addTags tags _

theorem gains_readAccents (s : Stripping) :
    s.term.Gains (fun tag => '\\' ∈ s.term.text ∧ tag = .anudatta ∨
      '^' ∈ s.term.text ∧ tag = .svarita) s.readAccents.term := by
  have hadd (c : Char) (tag : Tag) (t : Term) :
      t.Gains (fun x => c ∈ s.term.text ∧ x = tag)
        (if s.term.text.contains c then t.addTag tag else t) := by
    split
    · rename_i hc
      exact (Term.gains_addTag tag t).congr fun x => by simp [List.contains_iff_mem.mp hc]
    · rename_i hc
      have hnot : c ∉ s.term.text := fun h => hc (List.contains_iff_mem.mpr h)
      exact Term.gains_self (by simp [hnot]) t
  exact (hadd '\\' .anudatta s.term).trans (hadd '^' .svarita _)

-- All that the notation tells has become tags, and the sounds are left.
theorem gains_read (ht : t.text.Notated) {tags : List Tag}
    (hok : allNasalTags t.text.beforeIr = .ok tags) :
    t.Gains (ToldBy t.text) (read t tags).term := by
  have hnasals : ((⟨dropIr t, [], none⟩ : Stripping).dropNasals tags).term.text =
      withoutNasals t.text.beforeIr := by
    rw [text_dropNasals (by rwa [text_dropIr]), text_dropIr]
  have haccents := gains_readAccents ((⟨dropIr t, [], none⟩ : Stripping).dropNasals tags)
  rw [hnasals] at haccents
  have hall := ((gains_dropIr t).trans (gains_dropNasals tags ⟨dropIr t, [], none⟩)).trans haccents
  refine hall.congr fun tag => ?_
  rw [mem_allNasalTags hok, mem_withoutNasals_iff ht.beforeIr rfl,
    mem_withoutNasals_iff ht.beforeIr rfl]
  constructor
  · rintro (((⟨h, rfl⟩ | ⟨h, rfl⟩) | ⟨v, marker, hv, h, hmarker, rfl⟩ | ⟨v, hv, h, rfl⟩ |
      ⟨v, hv, h, rfl⟩) | ⟨⟨c, hc, h⟩, rfl⟩ | ⟨⟨c, hc, h⟩, rfl⟩)
    · exact .ir h
    · exact .irAccent h
    · exact .nasal hv h hmarker
    · exact .nasalLow hv h
    · exact .nasalFalling hv h
    · exact .low hc h
    · exact .falling hc h
  · rintro (h | h | ⟨hv, h, hmarker⟩ | ⟨hv, h⟩ | ⟨hv, h⟩ | ⟨hc, h⟩ | ⟨hc, h⟩)
    · exact .inl (.inl (.inl ⟨h, rfl⟩))
    · exact .inl (.inl (.inr ⟨h, rfl⟩))
    · exact .inl (.inr (.inl ⟨_, _, hv, h, hmarker, rfl⟩))
    · exact .inl (.inr (.inr (.inl ⟨_, hv, h, rfl⟩)))
    · exact .inl (.inr (.inr (.inr ⟨_, hv, h, rfl⟩)))
    · exact .inr (.inl ⟨⟨_, hc, h⟩, rfl⟩)
    · exact .inr (.inr ⟨⟨_, hc, h⟩, rfl⟩)

theorem text_read (ht : t.text.Notated) {tags : List Tag}
    (hok : allNasalTags t.text.beforeIr = .ok tags) :
    (read t tags).term.text = t.text.beforeIr.bareSounds := by
  rw [read, text_readAccents, text_dropNasals (by rwa [text_dropIr]), text_dropIr,
    kept_eq_bareSounds ht.beforeIr]

-- The markers that a root or a suffix can have at its beginning.
inductive InitialMarker (t : Term) : Text → Marker → Prop
  | root {initial : Text} {marker : Marker} (ht : t.hasTag .dhatu = true)
      (h : (initial, marker) ∈ rootInitials) : InitialMarker t initial marker
  | suffix {c : Char} {marker : Marker} (ht : t.hasTag .pratyaya = true)
      (hc : c = 'z' ∨ cutu.contains c = true ∨ lashaku.contains c = true)
      (h : Marker.ofSound? c = some marker) : InitialMarker t [c] marker

-- The markers that a taught form can have at its end. A vibhakti keeps some of them.
inductive FinalMarker (t : Term) : Text → Marker → Prop
  | sound {c : Char} {marker : Marker} (hc : Sound.isHal c = true)
      (ht : t.hasTag .vibhakti = true → tusma.contains c = false)
      (h : Marker.ofSound? c = some marker) : FinalMarker t [c] marker

theorem length_of_mem_rootInitials {initial : Text} {marker : Marker}
    (h : (initial, marker) ∈ rootInitials) : initial.length = 2 :=
  (by decide : ∀ x ∈ rootInitials, x.1.length = 2) _ h

theorem not_initialMarker_nil (marker : Marker) : ¬InitialMarker t [] marker := by
  rintro (⟨-, h⟩ | _)
  cases length_of_mem_rootInitials h

theorem not_finalMarker_nil (marker : Marker) : ¬FinalMarker t [] marker := by
  rintro ⟨⟩

theorem initialMarker_iff {initial : Text} {marker other : Marker}
    (h : InitialMarker t initial marker) : InitialMarker t initial other ↔ other = marker := by
  constructor
  · intro hother
    cases h with
    | root _ h =>
        cases hother with
        | root _ hother =>
            exact (by decide : ∀ x ∈ rootInitials, ∀ y ∈ rootInitials, x.1 = y.1 → x.2 = y.2)
              _ hother _ h rfl
        | suffix => cases length_of_mem_rootInitials h
    | suffix _ _ h =>
        cases hother with
        | root _ hother => cases length_of_mem_rootInitials hother
        | suffix _ _ hother => exact Option.some.inj (hother.symm.trans h)
  · rintro rfl
    exact h

theorem finalMarker_iff {final : Text} {marker other : Marker} (h : FinalMarker t final marker) :
    FinalMarker t final other ↔ other = marker := by
  constructor
  · intro hother
    cases h with
    | sound _ _ h =>
        cases hother with
        | sound _ _ hother => exact Option.some.inj (hother.symm.trans h)
  · rintro rfl
    exact h

-- Of the sounds of `t` only `initial` and `final` are gone from the ends of `t'`, and the new tags
-- tell just what has been dropped.
structure Trims (t : Term) (initial final : Text) (t' : Term) : Prop where
  sounds : t.text.beforeIr.bareSounds = initial ++ t'.text ++ final
  opening : initial = [] ∨ ∃ marker, InitialMarker t initial marker
  closing : final = [] ∨ ∃ marker, FinalMarker t final marker
  tags : t.Gains (fun tag => ToldBy t.text tag ∨
    ∃ marker, (InitialMarker t initial marker ∨ FinalMarker t final marker) ∧ tag = .it marker) t'

theorem trims_read (ht : t.text.Notated) {tags : List Tag}
    (hok : allNasalTags t.text.beforeIr = .ok tags) : Trims t [] [] (read t tags).term where
  sounds := by rw [text_read ht hok, List.nil_append, List.append_nil]
  opening := .inl rfl
  closing := .inl rfl
  tags := (gains_read ht hok).congr fun tag => by
    simp [not_initialMarker_nil, not_finalMarker_nil]

-- One more marker is dropped, and its tag is added.
theorem gains_marker {told : Tag → Prop} {found more : Marker → Prop} {t t' : Term}
    (h : t.Gains (fun tag => told tag ∨ ∃ marker, found marker ∧ tag = .it marker) t')
    {marker : Marker} (hmore : ∀ other, more other ↔ found other ∨ other = marker) :
    t.Gains (fun tag => told tag ∨ ∃ marker, more marker ∧ tag = .it marker)
      (t'.addTag (.it marker)) := by
  refine (h.trans (Term.gains_addTag (.it marker) t')).congr fun tag => ?_
  simp only [hmore, or_and_right, exists_or, exists_eq_left, or_assoc]

theorem Trims.dropFinal (h : Trims t [] [] s.term)
    (hvibhakti : s.term.hasTag .vibhakti = t.hasTag .vibhakti) (u : Text) :
    ∃ final, Trims t [] final (s.dropFinal u).term := by
  unfold Stripping.dropFinal
  split
  · exact ⟨[], h⟩
  · rename_i c _
    split
    · exact ⟨[], h⟩
    · rename_i hhal
      split
      · exact ⟨[], h⟩
      · rename_i hkept
        split
        · exact ⟨[], h⟩
        · rename_i marker hmarker
          split
          · rename_i hlast
            have hfinal : FinalMarker t [c] marker := by
              refine .sound (by simpa using hhal) (fun hv => ?_) hmarker
              rw [hvibhakti, hv, Bool.true_and] at hkept
              simpa using hkept
            refine ⟨[c], ?_, .inl rfl, .inr ⟨marker, hfinal⟩, ?_⟩
            · rw [h.sounds, List.append_nil, List.nil_append, List.nil_append]
              exact (List.dropLast_append_getLast? c (beq_iff_eq.mp hlast)).symm
            · exact gains_marker h.tags fun other => by
                simp [not_initialMarker_nil, not_finalMarker_nil, finalMarker_iff hfinal]
          · exact ⟨[], h⟩

theorem Trims.dropFinalUnlessIr (h : Trims t [] [] s.term)
    (hvibhakti : s.term.hasTag .vibhakti = t.hasTag .vibhakti) (u : Text) :
    ∃ final, Trims t [] final (s.dropFinalUnlessIr t u).term := by
  unfold Stripping.dropFinalUnlessIr
  split
  · exact ⟨[], h⟩
  · exact h.dropFinal hvibhakti u

theorem Trims.dropRootInitial {final : Text} (h : Trims t [] final s.term)
    (hdhatu : s.term.hasTag .dhatu = t.hasTag .dhatu) :
    ∃ initial, Trims t initial final s.dropRootInitial.term := by
  unfold Stripping.dropRootInitial
  split
  · rename_i hroot
    split
    · rename_i initial marker hfound
      have hmem := List.mem_of_find?_eq_some hfound
      have hprefix : initial <+: s.term.text := by
        simpa using List.find?_some hfound
      have hinitial : InitialMarker t initial marker := .root (hdhatu ▸ hroot) hmem
      refine ⟨initial, ?_, .inr ⟨marker, hinitial⟩, h.closing, ?_⟩
      · obtain ⟨rest, hrest⟩ := hprefix
        rw [h.sounds, ← hrest]
        simp [note, change, Term.addTag, Term.setText, ← hrest]
      · exact gains_marker h.tags fun other => by
          simp [not_initialMarker_nil, initialMarker_iff hinitial, or_comm]
    · exact ⟨[], h⟩
  · exact ⟨[], h⟩

-- A suffix of one sound may have lost it as its final marker. The initial marker is then the same,
-- and nothing is left to drop.
theorem Trims.dropFirst {final : Text} (h : Trims t [] final s.term) {c : Char} {marker : Marker}
    (hhead : t.text.beforeIr.bareSounds.head? = some c) (hinitial : InitialMarker t [c] marker)
    (hmarker : Marker.ofSound? c = some marker) (rule : Rule) :
    ∃ initial, Trims t initial final (s.dropFirst marker rule).term := by
  have hsounds := h.sounds
  rw [List.nil_append] at hsounds
  rw [hsounds] at hhead
  cases htext : s.term.text with
  | nil =>
      rw [htext, List.nil_append] at hhead
      rcases h.closing with rfl | ⟨other, hfinal⟩
      · cases hhead
      · have hsame : FinalMarker t final marker := by
          cases hfinal with
          | sound hc ht _ =>
              cases hhead
              exact .sound hc ht hmarker
        refine ⟨[], ?_, .inl rfl, h.closing, ?_⟩
        · rw [hsounds, htext]
          simp [Stripping.dropFirst, note, change, Term.addTag, Term.setText, htext]
        · exact gains_marker h.tags fun other => by
            simp [not_initialMarker_nil, finalMarker_iff hsame]
  | cons x rest =>
      rw [htext] at hhead
      cases hhead
      refine ⟨[c], ?_, .inr ⟨marker, hinitial⟩, h.closing, ?_⟩
      · rw [hsounds, htext]
        simp [Stripping.dropFirst, note, change, Term.addTag, Term.setText, htext]
      · exact gains_marker h.tags fun other => by
          simp [not_initialMarker_nil, initialMarker_iff hinitial, or_comm]

theorem Trims.dropSuffixInitial {final : Text} (h : Trims t [] final s.term)
    (hpratyaya : s.term.hasTag .pratyaya = t.hasTag .pratyaya)
    (hhead : ∀ c, u.head? = some c → Sound.isAc c = false →
      t.text.beforeIr.bareSounds.head? = some c) :
    ∃ initial, Trims t initial final (s.dropSuffixInitial u).term := by
  have hcutu : ∀ c ∈ cutu.sounds, Sound.isAc c = false := by decide
  have hlashaku : ∀ c ∈ lashaku.sounds, Sound.isAc c = false := by decide
  unfold Stripping.dropSuffixInitial
  split
  · exact ⟨[], h⟩
  · rename_i hsuffix
    have ht : t.hasTag .pratyaya = true := by simpa [hpratyaya] using hsuffix
    split
    · exact ⟨[], h⟩
    · rename_i c hc
      split
      · rename_i hz
        cases beq_iff_eq.mp hz
        exact h.dropFirst (hhead _ hc rfl) (.suffix ht (.inl rfl) rfl) rfl _
      · split
        · rename_i hmem
          have hhal := hcutu c (List.contains_iff_mem.mp hmem)
          split
          · exact ⟨[], h⟩
          · split
            · rename_i marker hmarker
              exact h.dropFirst (hhead c hc hhal) (.suffix ht (.inr (.inl hmem)) hmarker) hmarker _
            · exact ⟨[], h⟩
        · split
          · rename_i hmem
            simp only [Bool.and_eq_true] at hmem
            have hhal := hlashaku c (List.contains_iff_mem.mp hmem.1.2)
            split
            · rename_i marker hmarker
              exact h.dropFirst (hhead c hc hhal) (.suffix ht (.inr (.inr hmem.1.2)) hmarker)
                hmarker _
            · exact ⟨[], h⟩
          · exact ⟨[], h⟩

theorem dropRootInitial_of_not_root (h : s.term.hasTag .dhatu = false) : s.dropRootInitial = s := by
  rw [dropRootInitial, h, if_neg Bool.false_ne_true]

theorem dropSuffixInitial_of_not_suffix (h : s.term.hasTag .pratyaya = false) :
    s.dropSuffixInitial u = s := by
  rw [dropSuffixInitial, h, Bool.not_false, if_pos rfl]

end Stripping

namespace Text

-- The ir that is cut off begins with a vowel.
theorem beforeIr_cut (t : Text) : ∃ ir, t = t.beforeIr ++ ir ∧ (ir = [] ∨ ir.head? = some 'i') := by
  have hcut {ir : Text} (h : ir.isSuffixOf t = true) :
      t = t.take (t.length - ir.length) ++ ir := by
    obtain ⟨rest, hrest⟩ := List.isSuffixOf_iff_suffix.mp h
    rw [← hrest]
    simp
  unfold beforeIr
  split
  · rename_i hir
    exact ⟨_, hcut hir, .inr rfl⟩
  · split
    · rename_i hir
      exact ⟨_, hcut hir, .inr rfl⟩
    · exact ⟨[], (List.append_nil t).symm, .inl rfl⟩

theorem head?_beforeIr {t : Text} {c : Char} (hc : t.head? = some c)
    (hhal : Sound.isAc c = false) : t.beforeIr.head? = some c := by
  obtain ⟨ir, hcut, hir⟩ := t.beforeIr_cut
  rcases hbefore : t.beforeIr with _ | ⟨x, rest⟩
  · rw [hbefore, List.nil_append] at hcut
    rw [hcut] at hc
    rcases hir with rfl | hi
    · cases hc
    · cases hi.symm.trans hc
      cases hhal
  · rw [hcut, hbefore] at hc
    exact hc

end Text

namespace Stripping

variable {t : Term} {u : Text}

theorem term_conclude (u : Text) (s : Stripping) : (s.conclude u).term = s.term := by
  unfold conclude
  split <;> rfl

-- Without a fault, a term that is written as it was taught loses nothing but its markers.
theorem run_trims (hnotated : t.text.Notated)
    (hkind : ¬(t.hasTag .dhatu = true ∧ t.hasTag .pratyaya = true))
    (hok : (run t t.text).fault = none) :
    ∃ initial final, Trims t initial final (run t t.text).term := by
  rcases allNasalTags_cases t.text.beforeIr with ⟨tags, htags, -, -⟩ | ⟨c, -, -, herror⟩
  swap
  · cases hok.symm.trans (run_of_error herror t.text)
  have hread := sheds_read htags
  obtain ⟨final, hfinal⟩ := (trims_read hnotated htags).dropFinalUnlessIr
    (Term.hasTag_eq_of_kind hread.term.kind rfl) t.text
  rw [run_of_ok htags, term_conclude]
  have hsheds := hread.dropFinalUnlessIr t.text
  generalize (read t tags).dropFinalUnlessIr t t.text = s at hfinal hsheds ⊢
  by_cases hsuffix : t.hasTag .pratyaya = true
  · have hroot : s.term.hasTag .dhatu = false := by
      rw [Term.hasTag_eq_of_kind hsheds.term.kind rfl]
      by_contra hdhatu
      exact hkind ⟨by simpa using hdhatu, hsuffix⟩
    rw [dropRootInitial_of_not_root hroot]
    obtain ⟨initial, h⟩ := hfinal.dropSuffixInitial (u := t.text)
      (Term.hasTag_eq_of_kind hsheds.term.kind rfl)
      fun c hc hhal => hnotated.beforeIr.head?_bareSounds (Text.head?_beforeIr hc hhal) hhal
    exact ⟨initial, final, h⟩
  · obtain ⟨initial, h⟩ := hfinal.dropRootInitial (Term.hasTag_eq_of_kind hsheds.term.kind rfl)
    have hno : s.dropRootInitial.term.hasTag .pratyaya = false := by
      rw [Term.hasTag_eq_of_kind hsheds.dropRootInitial.term.kind rfl]
      simpa using hsuffix
    rw [dropSuffixInitial_of_not_suffix hno]
    exact ⟨initial, final, h⟩

-- No initial marker ends in a sound that a vibhakti keeps.
theorem InitialMarker.not_tusma {initial : Text} {marker : Marker}
    (h : InitialMarker t initial marker) {c : Char} (hlast : initial.getLast? = some c) :
    tusma.contains c = false := by
  cases h with
  | root _ hmem =>
      have hall : ∀ x ∈ rootInitials, x.1.getLast?.all (!tusma.contains ·) = true := by decide
      simpa [hlast] using hall _ hmem
  | @suffix x _ _ hclass _ =>
      obtain rfl : x = c := by simpa using hlast
      have hcutu : ∀ c ∈ cutu.sounds, tusma.contains c = false := by decide
      have hlashaku : ∀ c ∈ lashaku.sounds, tusma.contains c = false := by decide
      rcases hclass with rfl | hclass | hclass
      · rfl
      · exact hcutu x (List.contains_iff_mem.mp hclass)
      · exact hlashaku x (List.contains_iff_mem.mp hclass)

-- A vibhakti keeps a final tu, s or m.
theorem Trims.keeps_tusma {t' : Term} {initial final : Text} (h : Trims t initial final t')
    (ht : t.hasTag .vibhakti = true) {c : Char}
    (hlast : t.text.beforeIr.bareSounds.getLast? = some c) (hc : tusma.contains c = true) :
    t'.text.getLast? = some c := by
  rw [h.sounds, List.getLast?_append, List.getLast?_append] at hlast
  have hfinal : final.getLast? = none := by
    rcases h.closing with rfl | ⟨marker, hmarker⟩
    · rfl
    · cases hmarker with
      | sound _ hkept _ =>
          cases hlast
          cases hc.symm.trans (hkept ht)
  rw [hfinal, Option.none_or] at hlast
  rcases Option.or_eq_some_iff.mp hlast with hkept | ⟨-, hinitial⟩
  · exact hkept
  · rcases h.opening with rfl | ⟨marker, hmarker⟩
    · cases hinitial
    · cases hc.symm.trans (hmarker.not_tusma hinitial)

-- Without a fault, every nasal vowel that goes is a marker.
theorem isSome_of_nasal {v : Char} (hok : (run t u).fault = none) (hv : Sound.isAc v = true)
    (h : [v, '~'] <:+: t.text.beforeIr) : (Marker.ofSound? v).isSome = true := by
  rcases run_fault_cases t u with ⟨-, hnone⟩ | ⟨c, -, hfault⟩
  · have hall : ∀ c ∈ SoundClass.ac.sounds, c ∉ markless → (Marker.ofSound? c).isSome = true := by
      decide
    exact hall v (List.contains_iff_mem.mp hv) fun hc => hnone v (.inl ⟨hc, h⟩)
  · cases hok.symm.trans hfault

theorem Trims.not_mark {t' : Term} {initial final : Text} (h : Trims t initial final t') :
    ∀ c ∈ t'.text, c ∉ ['~', '\\', '^'] := by
  intro c hc
  have hsound : c ∈ Sound.alphabet := by
    apply Text.mem_alphabet_of_mem_bareSounds
    rw [h.sounds]
    exact List.mem_append_left _ (List.mem_append_right _ hc)
  exact (by decide : ∀ c ∈ Sound.alphabet, c ∉ ['~', '\\', '^']) c hsound

end Stripping

theorem Term.eq_of_kind {t t' : Term} (h : t'.kind = t.kind) :
    t' = { t with text := t'.text, tags := t'.tags } := by
  cases t
  cases t'
  simp only [kind, mk.injEq] at h
  simp [h]

namespace Derivation

open Stripping

-- A term that is written as it was taught is left with its sounds, but for the nasal vowels, a
-- final and an initial marker. Its new tags are those of what it has lost, and all else in the
-- derivation stays as it is.
theorem dropMarkers_accounts {d e : Derivation} {n : Nat} {t : Term} (ht : d.terms[n]? = some t)
    (htaught : t.upadesha = some t.text) (hnotated : t.text.Notated)
    (hkind : ¬(t.hasTag .dhatu = true ∧ t.hasTag .pratyaya = true))
    (hdone : d.dropMarkers n = .done e) :
    ∃ t' initial final, e.terms = d.terms.set n t' ∧ e.rest = d.rest ∧
      t' = { t with text := t'.text, tags := t'.tags } ∧
      (∀ c ∈ t'.text, c ∉ ['~', '\\', '^']) ∧
      Trims t initial final t' ∧
      (∀ v, Sound.isAc v = true → [v, '~'] <:+: t.text.beforeIr →
        (Marker.ofSound? v).isSome = true) ∧
      (t.hasTag .vibhakti = true → ∀ c, t.text.beforeIr.bareSounds.getLast? = some c →
        tusma.contains c = true → t'.text.getLast? = some c) := by
  have hacts := dropMarkers_ends ht htaught
  rw [hdone] at hacts
  have hok : (run t t.text).fault = none := by
    have hends := replay_ends n (run t t.text) d
    rw [← dropMarkers_of_taught (show d.term? (n : Int) = some t from ht) htaught, hdone] at hends
    exact hends.2
  obtain ⟨initial, final, htrims⟩ := run_trims hnotated hkind hok
  have hterms : e.terms = d.terms.set n (run t t.text).term := by
    rw [hacts.terms, List.modify_eq_set_getElem?, ht]
    rfl
  refine ⟨_, initial, final, hterms, hacts.rest, Term.eq_of_kind (run_sheds t t.text).term.kind,
    htrims.not_mark, htrims, fun v => isSome_of_nasal hok, fun hv c => htrims.keeps_tusma hv⟩

-- Of the root pac nothing is left out: it is taught with two markers at its ends, a nasal vowel and
-- two accents.
theorem dropMarkers_accounts_for_pac :
    ∃ e t' initial final,
      (Derivation.mk [.ofRoot "qupa\\ca~^z".toList 1 none] [] [] [] [] true .standard).dropMarkers
        (0 : Nat) = .done e ∧ e.terms = [t'] ∧ t'.text = "pac".toList ∧
      Trims (.ofRoot "qupa\\ca~^z".toList 1 none) initial final t' := by
  obtain ⟨e, hdone⟩ : ∃ e, (Derivation.mk [.ofRoot "qupa\\ca~^z".toList 1 none] [] [] [] [] true
      .standard).dropMarkers (0 : Nat) = .done e := ⟨_, rfl⟩
  obtain ⟨t', initial, final, hterms, -, -, -, htrims, -, -⟩ :=
    dropMarkers_accounts (t := .ofRoot "qupa\\ca~^z".toList 1 none) rfl rfl (by decide) (by decide)
      hdone
  have htext : ((Derivation.mk [.ofRoot "qupa\\ca~^z".toList 1 none] [] [] [] [] true
      .standard).dropMarkers (0 : Nat)).left.text = "pac".toList := by decide +kernel
  rw [hdone] at htext
  simp only [Outcome.left, Derivation.text, hterms] at htext
  exact ⟨e, t', initial, final, hdone, hterms, by simpa using htext, htrims⟩

end Derivation

end Vyakarana
