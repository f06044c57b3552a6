import Vyakarana.Proofs.Grammar.Shaping
import Vyakarana.Proofs.Grammar.Stem

/-!
The shape of the copy in the perfect.

A root with one vowel is copied, and the copy is reduced rule by rule. Each rule is done to the copy
alone, and what it makes of the text is seen from the one vowel and the consonants on either side.
A copy that begins with a consonant comes down to one consonant and one short vowel. The rules that
drop consonants look at the first sound, though, and a vowel there keeps them off: the
consonants after an initial vowel stay.
-/

namespace Vyakarana

namespace Text

theorem replaceAll_of_notMem {x : Char} {sub t : Text} (h : x ∉ t) : replaceAll [x] sub t = t := by
  have hfrom : ∀ t : Text, x ∉ t → replaceFrom [x] sub 0 t = t := by
    intro t
    induction t with
    | nil => exact fun _ => rfl
    | cons c rest ih =>
        intro hno
        rw [List.mem_cons, not_or] at hno
        rw [replaceFrom, ih hno.2, if_neg]
        simpa [List.isPrefixOf] using hno.1
  exact hfrom t h

-- A sound that occurs once.
theorem replaceAll_of_cut {x : Char} {before after : Text} (hbefore : x ∉ before)
    (hafter : x ∉ after) (sub : Text) :
    replaceAll [x] sub (before ++ x :: after) = before ++ sub ++ after := by
  have hrest : replaceFrom [x] sub 0 after = after := replaceAll_of_notMem hafter
  have hfrom : ∀ before : Text, x ∉ before →
      replaceFrom [x] sub 0 (before ++ x :: after) = before ++ sub ++ after := by
    intro before
    induction before with
    | nil =>
        intro _
        rw [List.nil_append, replaceFrom, if_pos (by simp [List.isPrefixOf])]
        rw [show [x].length - 1 = 0 from rfl, hrest, List.nil_append]
    | cons c rest ih =>
        intro hno
        rw [List.mem_cons, not_or] at hno
        rw [List.cons_append, replaceFrom, ih hno.2, if_neg]
        · rfl
        · simpa [List.isPrefixOf] using hno.1
  exact hfrom before hbefore

end Text

namespace Sound

-- The vowel of a copy: shortened (7.4.59), and a for f (7.4.66).
def shortened (v : Char) : Char := (hrasva? v).getD v

def copyVowel (v : Char) : Char := if shortened v = 'f' then 'a' else shortened v

-- 7.4.70: at the beginning of the copy.
def initialVowel (v : Char) : Char := if copyVowel v = 'a' then 'A' else copyVowel v

theorem isHal_of_isAc {c : Char} (h : isAc c = true) : isHal c = false := by
  have hall : ∀ c ∈ SoundClass.ac.sounds, isHal c = false := by decide
  exact hall c (List.contains_iff_mem.mp h)

theorem isAc_of_isHal {c : Char} (h : isHal c = true) : isAc c = false := by
  have hall : ∀ c ∈ SoundClass.hal.sounds, isAc c = false := by decide
  exact hall c (List.contains_iff_mem.mp h)

theorem isAc_shortened {v : Char} (h : isAc v = true) : isAc (shortened v) = true := by
  have hall : ∀ v ∈ SoundClass.ac.sounds, isAc (shortened v) = true := by decide
  exact hall v (List.contains_iff_mem.mp h)

theorem isHrasva_copyVowel {v : Char} (h : isAc v = true) :
    isAc (copyVowel v) = true ∧ isHrasva (copyVowel v) = true := by
  have hall : ∀ v ∈ SoundClass.ac.sounds,
      isAc (copyVowel v) = true ∧ isHrasva (copyVowel v) = true := by decide
  exact hall v (List.contains_iff_mem.mp h)

theorem isHrasva_initialVowel {v : Char} (h : isAc v = true) :
    isAc (initialVowel v) = true ∧ (isHrasva (initialVowel v) = true ∨ initialVowel v = 'A') := by
  have hall : ∀ v ∈ SoundClass.ac.sounds, isAc (initialVowel v) = true ∧
      (isHrasva (initialVowel v) = true ∨ initialVowel v = 'A') := by decide
  exact hall v (List.contains_iff_mem.mp h)

end Sound

-- One vowel with consonants before it and after it.
structure OneVowel (onset : Text) (v : Char) (coda t : Text) : Prop where
  text : t = onset ++ v :: coda
  onset : ∀ c ∈ onset, Sound.isHal c = true
  vowel : Sound.isAc v = true
  coda : ∀ c ∈ coda, Sound.isHal c = true

-- One consonant at the most, and then one vowel, which is short unless it is an initial A.
def UsualShape (t : Text) : Prop :=
  ∃ onset v, t = onset ++ [v] ∧ onset.length ≤ 1 ∧ (∀ c ∈ onset, Sound.isHal c = true) ∧
    Sound.isAc v = true ∧ (Sound.isHrasva v = true ∨ onset = [] ∧ v = 'A')

theorem exists_oneVowel {t : Text} (hsounds : ∀ c ∈ t, Sound.isAc c = true ∨ Sound.isHal c = true)
    (hone : t.countP Sound.isAc = 1) : ∃ onset v coda, OneVowel onset v coda t := by
  induction t with
  | nil => cases hone
  | cons c rest ih =>
      rw [List.forall_mem_cons] at hsounds
      by_cases hc : Sound.isAc c = true
      · rw [List.countP_cons_of_pos hc, Nat.add_eq_right, List.countP_eq_zero] at hone
        refine ⟨[], c, rest, rfl, by simp, hc, fun x hx => ?_⟩
        exact (hsounds.2 x hx).resolve_left (hone x hx)
      · rw [List.countP_cons_of_neg hc] at hone
        obtain ⟨onset, v, coda, h⟩ := ih hsounds.2 hone
        refine ⟨c :: onset, v, coda, by rw [h.text]; rfl, ?_, h.vowel, h.coda⟩
        exact List.forall_mem_cons.mpr ⟨hsounds.1.resolve_left hc, h.onset⟩

namespace OneVowel

variable {onset coda t : Text} {v x : Char}

theorem filter_isAc (h : OneVowel onset v coda t) : t.filter Sound.isAc = [v] := by
  have hnone {s : Text} (hs : ∀ c ∈ s, Sound.isHal c = true) : s.filter Sound.isAc = [] :=
    List.filter_eq_nil_iff.mpr fun c hc => by simp [Sound.isAc_of_isHal (hs c hc)]
  rw [h.text, List.filter_append, hnone h.onset, List.filter_cons_of_pos h.vowel, hnone h.coda]
  rfl

-- No vowel is among the consonants.
theorem notMem (h : OneVowel onset v coda t) (hx : Sound.isAc x = true) : x ∉ onset ∧ x ∉ coda := by
  have hno := Sound.isHal_of_isAc hx
  refine ⟨fun hmem => ?_, fun hmem => ?_⟩
  · rw [h.onset x hmem] at hno
    cases hno
  · rw [h.coda x hmem] at hno
    cases hno

-- Where there is no consonant, the vowel stands alone.
theorem eq_nil (h : OneVowel onset v coda t) (hno : ∀ c ∈ t, Sound.isHal c = false) :
    onset = [] ∧ coda = [] := by
  have hnil {s : Text} (hs : ∀ c ∈ s, Sound.isHal c = true) (hsub : ∀ c ∈ s, c ∈ t) : s = [] := by
    refine List.eq_nil_iff_forall_not_mem.mpr fun c hc => ?_
    exact Bool.false_ne_true ((hno c (hsub c hc)).symm.trans (hs c hc))
  exact ⟨hnil h.onset fun c hc => by simp [h.text, hc],
    hnil h.coda fun c hc => by simp [h.text, hc]⟩

-- If it is a vowel that stands first, no consonant is before the vowel.
theorem of_vowel_first (h : OneVowel onset v coda t) {w : Char} {rest : Text} (ht : t = w :: rest)
    (hw : Sound.isAc w = true) : OneVowel [] w rest t := by
  have htext := h.text
  cases onset with
  | nil =>
      rw [ht, List.nil_append, List.cons.injEq] at htext
      obtain ⟨rfl, rfl⟩ := htext
      exact ⟨ht, h.onset, hw, h.coda⟩
  | cons c more =>
      rw [ht, List.cons_append, List.cons.injEq] at htext
      obtain ⟨rfl, -⟩ := htext
      exact absurd List.mem_cons_self (h.notMem hw).1

theorem exchange (h : OneVowel onset v coda t) (hx : Sound.isAc x = true) {s : Text}
    (hs : s = onset ++ x :: coda) : OneVowel onset x coda s :=
  ⟨hs, h.onset, hx, h.coda⟩

theorem usualShape (h : OneVowel onset v [] t) (honset : onset.length ≤ 1)
    (hv : Sound.isHrasva v = true ∨ onset = [] ∧ v = 'A') : UsualShape t :=
  ⟨onset, v, h.text, honset, h.onset, h.vowel, hv⟩

end OneVowel

-- After an initial vowel, the usual shape leaves no room for more.
theorem not_usualShape {v c : Char} {rest : Text} (hv : Sound.isAc v = true) :
    ¬UsualShape (v :: c :: rest) := by
  rintro ⟨onset, w, htext, hlength, hhal, -, -⟩
  cases onset with
  | nil => cases htext
  | cons x more =>
      rw [List.cons_append, List.cons.injEq] at htext
      obtain ⟨rfl, -⟩ := htext
      have hno := Sound.isHal_of_isAc hv
      rw [hhal v List.mem_cons_self] at hno
      cases hno

namespace Term

-- 7.4.61 and 7.4.60
def dropConsonants (t : Term) : Term :=
  if t.hasAdi (.oneOf .shar) && SoundClass.khay.containsSome (t.sound? 1) then
    t.setText (keepOneConsonant 1 t.text)
  else if t.adi?.any Sound.isHal && (t.text.drop 1).any Sound.isHal then
    t.setText (keepOneConsonant 0 t.text)
  else t

-- 7.4.62, when the sounds that stand for the first one are known.
def palatalize (palatals : SoundMap) (t : Term) : Term :=
  match t.adi? with
  | none => t
  | some first =>
    if !kuAndHSounds.contains first then t
    else
      match palatals.image? first with
      | some sub => t.setAdi [sub]
      | none => t

-- 7.4.59
def shortenVowel (t : Term) : Term :=
  match t.text.find? Sound.isAc with
  | none => t
  | some vowel =>
    match Sound.hrasva? vowel with
    | none => t
    | some short => if short = vowel then t else t.replaceText [vowel] [short]

-- 7.4.66
def replaceF (t : Term) : Term := if t.text.contains 'f' then t.replaceText ['f'] ['a'] else t

-- 7.4.70
def lengthenInitial (t : Term) : Term := if t.adi? == some 'a' then t.setAdi ['A'] else t

-- The roots that 7.4.73 names.
def isBhu (t : Term) : Bool := t.isTaught "BU".toList && (t.gana == some 1 || t.gana == some 2)

-- The copy of `root`, after all these rules.
def reducedCopy (palatals : SoundMap) (root copy : Term) : Term :=
  let reduced := (copy.dropConsonants.palatalize palatals).shortenVowel.replaceF.lengthenInitial
  if root.isBhu then reduced.setAntya ['a'] else reduced

end Term

-- Each sound stands for a palatal, if for any.
def SoundMap.Palatalizes (palatals : SoundMap) : Prop :=
  ∀ c y, palatals.image? c = some y → y ∈ Sound.cu.sounds

namespace Term

variable {onset coda : Text} {v c x : Char} {t root copy : Term} {palatals : SoundMap}

theorem dropConsonants_of_vowel (h : OneVowel [] v coda t.text) : t.dropConsonants = t := by
  have hadi : t.adi? = some v := by rw [adi?, h.text]; rfl
  have hshar : t.hasAdi (.oneOf .shar) = false := by
    have hall : ∀ v ∈ SoundClass.ac.sounds, SoundClass.shar.contains v = false := by decide
    rw [hasAdi, hadi]
    exact hall v (List.contains_iff_mem.mp h.vowel)
  rw [dropConsonants, hshar, hadi, Option.any_some, Sound.isHal_of_isAc h.vowel]
  rfl

-- Of the consonants of a copy that begins with one, one remains.
theorem oneVowel_dropConsonants (h : OneVowel (c :: onset) v coda t.text) :
    ∃ x, OneVowel [x] v [] t.dropConsonants.text := by
  have honset := List.forall_mem_cons.mp h.onset
  have hone {x : Char} (hx : Sound.isHal x = true) {s : Text} (hs : s = [x, v]) :
      ∃ x, OneVowel [x] v [] s :=
    ⟨x, hs, by simpa using hx, h.vowel, by simp⟩
  have hrest : OneVowel onset v coda (onset ++ v :: coda) := ⟨rfl, honset.2, h.vowel, h.coda⟩
  have htext : t.text = c :: (onset ++ v :: coda) := h.text
  unfold dropConsonants
  split
  · rename_i hshar
    have hsecond : SoundClass.khay.containsSome (onset ++ v :: coda).head? = true := by
      have hkhay := ((Bool.and_eq_true _ _).mp hshar).2
      rw [sound?, htext] at hkhay
      rw [List.head?_eq_getElem?]
      exact hkhay
    have hkhay : ∀ y ∈ SoundClass.khay.sounds, Sound.isHal y = true := by decide
    cases onset with
    | nil =>
        have hv := hkhay v (List.contains_iff_mem.mp hsecond)
        rw [Sound.isHal_of_isAc h.vowel] at hv
        cases hv
    | cons y more =>
        have hy := hkhay y (List.contains_iff_mem.mp hsecond)
        have hmore : OneVowel more v coda (more ++ v :: coda) :=
          ⟨rfl, (List.forall_mem_cons.mp honset.2).2, h.vowel, h.coda⟩
        refine hone hy ?_
        rw [setText, htext, keepOneConsonant]
        simp only [List.cons_append, List.drop_succ_cons, List.drop_zero, List.take_succ_cons,
          List.take_zero, hmore.filter_isAc, List.nil_append]
  · split
    · refine hone honset.1 ?_
      rw [setText, htext, keepOneConsonant]
      simp only [List.drop_zero, List.take_succ_cons, List.take_zero, List.drop_succ_cons,
        hrest.filter_isAc, List.cons_append, List.nil_append]
    · rename_i hnone
      have hfirst : t.adi?.any Sound.isHal = true := by
        rw [adi?, htext]
        exact honset.1
      have hfew : ∀ y ∈ onset ++ v :: coda, Sound.isHal y = false := by
        rw [hfirst, Bool.true_and, htext, List.drop_succ_cons, List.drop_zero, List.any_eq_true]
          at hnone
        exact fun y hy => Bool.eq_false_iff.mpr fun hhal => hnone ⟨y, hy, hhal⟩
      obtain ⟨honset', hcoda'⟩ := hrest.eq_nil hfew
      refine hone honset.1 ?_
      rw [htext, honset', hcoda']
      rfl

-- A consonant gives way to a consonant.
theorem oneVowel_palatalize (hcu : palatals.Palatalizes) (h : OneVowel onset v coda t.text) :
    ∃ onset', onset'.length = onset.length ∧ OneVowel onset' v coda (t.palatalize palatals).text := by
  have hcuHal : ∀ y ∈ Sound.cu.sounds, Sound.isHal y = true := by decide
  have hkuHal : ∀ y ∈ kuAndHSounds.sounds, Sound.isHal y = true := by decide
  have hself : ∃ onset', onset'.length = onset.length ∧ OneVowel onset' v coda t.text :=
    ⟨onset, rfl, h⟩
  unfold palatalize
  split
  · exact hself
  · rename_i first hfirst
    split
    · exact hself
    · rename_i hku
      rw [Bool.not_eq_true', Bool.not_eq_false] at hku
      split
      · rename_i sub hsub
        cases onset with
        | nil =>
            rw [adi?, h.text] at hfirst
            cases hfirst
            have hno := hkuHal v (List.contains_iff_mem.mp hku)
            rw [Sound.isHal_of_isAc h.vowel] at hno
            cases hno
        | cons c more =>
            refine ⟨sub :: more, rfl, ?_, ?_, h.vowel, h.coda⟩
            · rw [setAdi, setText, h.text]
              rfl
            · exact List.forall_mem_cons.mpr
                ⟨hcuHal sub (hcu first sub hsub), (List.forall_mem_cons.mp h.onset).2⟩
      · exact hself

theorem palatalize_of_vowel (h : OneVowel [] v coda t.text) : t.palatalize palatals = t := by
  have hno : ∀ v ∈ SoundClass.ac.sounds, kuAndHSounds.contains v = false := by decide
  have hadi : t.adi? = some v := by rw [adi?, h.text]; rfl
  unfold palatalize
  rw [hadi]
  dsimp only
  rw [hno v (List.contains_iff_mem.mp h.vowel)]
  rfl

theorem oneVowel_shortenVowel (h : OneVowel onset v coda t.text) :
    OneVowel onset (Sound.shortened v) coda t.shortenVowel.text := by
  have hfind : t.text.find? Sound.isAc = some v := by
    rw [← List.head?_filter, h.filter_isAc]
    rfl
  have hshort := Sound.isAc_shortened h.vowel
  refine h.exchange hshort ?_
  unfold shortenVowel
  rw [hfind]
  dsimp only
  rcases hhrasva : Sound.hrasva? v with _ | short
  · rw [Sound.shortened, hhrasva]
    exact h.text
  · rw [show Sound.shortened v = short by rw [Sound.shortened, hhrasva]; rfl]
    dsimp only
    split
    · rename_i hsame
      rw [hsame]
      exact h.text
    · obtain ⟨honset, hcoda⟩ := h.notMem h.vowel
      rw [replaceText, setText, h.text, Text.replaceAll_of_cut honset hcoda]
      simp

theorem oneVowel_replaceF (h : OneVowel onset v coda t.text) :
    OneVowel onset (if v = 'f' then 'a' else v) coda t.replaceF.text := by
  obtain ⟨honset, hcoda⟩ := h.notMem (x := 'f') (by decide)
  unfold replaceF
  by_cases hf : v = 'f'
  · subst hf
    have hyes : t.text.contains 'f' = true := by rw [h.text]; simp
    rw [if_pos hyes, if_pos rfl]
    refine h.exchange (by decide) ?_
    rw [replaceText, setText, h.text, Text.replaceAll_of_cut honset hcoda]
    simp
  · have hno : t.text.contains 'f' = false := by
      rw [h.text]
      simp [honset, hcoda, Ne.symm hf]
    rw [hno, if_neg hf]
    exact h

-- The vowel is replaced in the same way wherever the copy has it.
theorem oneVowel_vowelRules (h : OneVowel onset v coda t.text) :
    OneVowel onset (Sound.copyVowel v) coda t.shortenVowel.replaceF.text :=
  oneVowel_replaceF (oneVowel_shortenVowel h)

-- The rules leave the copy what it is.
theorem kind_reducedCopy (palatals : SoundMap) (root copy : Term) :
    (root.reducedCopy palatals copy).kind = copy.kind := by
  have hdrop : copy.dropConsonants.kind = copy.kind := by
    unfold dropConsonants
    repeat' split
    all_goals rfl
  have hpalatal (t : Term) : (t.palatalize palatals).kind = t.kind := by
    unfold palatalize
    repeat' split
    all_goals rfl
  have hshort (t : Term) : t.shortenVowel.kind = t.kind := by
    unfold shortenVowel
    repeat' split
    all_goals rfl
  have hf (t : Term) : t.replaceF.kind = t.kind := by
    unfold replaceF
    split <;> rfl
  have hlong (t : Term) : t.lengthenInitial.kind = t.kind := by
    unfold lengthenInitial
    split <;> rfl
  unfold reducedCopy
  dsimp only
  split
  · rw [kind_setAntya, hlong, hf, hshort, hpalatal, hdrop]
  · rw [hlong, hf, hshort, hpalatal, hdrop]

-- What the rules leave of a copy that begins with a vowel.
theorem text_reducedCopy_of_vowel (h : OneVowel [] v coda copy.text) :
    (reducedCopy palatals root copy).text =
      if root.isBhu then (Sound.initialVowel v :: coda).dropLast ++ ['a']
      else Sound.initialVowel v :: coda := by
  have hvowel : (copy.shortenVowel.replaceF).text = Sound.copyVowel v :: coda :=
    (oneVowel_vowelRules h).text
  have hinitial : (copy.shortenVowel.replaceF.lengthenInitial).text =
      Sound.initialVowel v :: coda := by
    unfold lengthenInitial Sound.initialVowel
    rw [adi?, hvowel, List.head?_cons]
    by_cases ha : Sound.copyVowel v = 'a'
    · rw [if_pos (by rw [ha]; rfl), if_pos ha, setAdi, setText, hvowel]
      rfl
    · rw [if_neg (by simpa using ha), if_neg ha, hvowel]
  unfold reducedCopy
  rw [dropConsonants_of_vowel h, palatalize_of_vowel h]
  dsimp only
  split
  · rw [setAntya, hinitial]
    simp [setText]
  · exact hinitial

-- A copy that begins with a consonant has the usual shape.
theorem usualShape_reducedCopy (hcu : palatals.Palatalizes)
    (h : OneVowel (c :: onset) v coda copy.text) :
    UsualShape (reducedCopy palatals root copy).text := by
  obtain ⟨x, hdropped⟩ := oneVowel_dropConsonants h
  obtain ⟨onset', hlength, hpalatal⟩ := oneVowel_palatalize hcu hdropped
  obtain ⟨y, rfl⟩ := List.length_eq_one_iff.mp hlength
  have hvowel := oneVowel_vowelRules hpalatal
  have hy : Sound.isHal y = true := hvowel.onset y List.mem_cons_self
  have hsame : ((copy.dropConsonants.palatalize palatals).shortenVowel.replaceF).lengthenInitial =
      (copy.dropConsonants.palatalize palatals).shortenVowel.replaceF := by
    have hne : y ≠ 'a' := by
      rintro rfl
      cases hy
    unfold lengthenInitial
    rw [if_neg (by rw [adi?, hvowel.text]; simpa using hne)]
  unfold reducedCopy
  rw [hsame]
  dsimp only
  split
  · refine ⟨[y], 'a', ?_, Nat.le_refl _, hvowel.onset, by decide, .inl (by decide)⟩
    rw [setAntya, hvowel.text]
    simp [setText]
  · exact hvowel.usualShape (Nat.le_refl _) (.inl (Sound.isHrasva_copyVowel h.vowel).2)

-- A copy that begins with its vowel has the usual shape only if that is all of it.
theorem usualShape_reducedCopy_iff_of_vowel (h : OneVowel [] v coda copy.text) :
    UsualShape (reducedCopy palatals root copy).text ↔ coda = [] := by
  obtain ⟨hac, hshort⟩ := Sound.isHrasva_initialVowel h.vowel
  rw [text_reducedCopy_of_vowel h]
  cases coda with
  | nil =>
      refine iff_of_true ?_ rfl
      split
      · exact ⟨[], 'a', rfl, Nat.zero_le _, by simp, by decide, .inl (by decide)⟩
      · exact ⟨[], Sound.initialVowel v, rfl, Nat.zero_le _, by simp, hac,
          hshort.imp_right fun hlong => ⟨rfl, hlong⟩⟩
  | cons c more =>
      refine iff_of_false ?_ (List.cons_ne_nil c more)
      split
      · cases more <;> exact not_usualShape hac
      · exact not_usualShape hac

theorem usualShape_reducedCopy_iff (hcu : palatals.Palatalizes)
    (h : OneVowel onset v coda copy.text) :
    UsualShape (reducedCopy palatals root copy).text ↔
      copy.text.head?.any Sound.isHal = true ∨ copy.text.length = 1 := by
  cases onset with
  | cons c more =>
      refine iff_of_true (usualShape_reducedCopy hcu h) (.inl ?_)
      rw [h.text]
      exact h.onset c List.mem_cons_self
  | nil =>
      have hfirst : copy.text.head?.any Sound.isHal = false := by
        rw [h.text]
        exact Sound.isHal_of_isAc h.vowel
      rw [usualShape_reducedCopy_iff_of_vowel h, hfirst, h.text]
      simp

end Term

namespace Derivation

variable {d : Derivation} {before after : List Term} {root copy : Term}

theorem actsAt_dropConsonants (i : Nat) (d : Derivation) :
    ActsAt i Term.dropConsonants d (d.dropConsonants i) := by
  unfold dropConsonants
  split
  · rename_i hnone
    exact actsAt_of_none _ hnone
  · rename_i copy hcopy
    split
    · rename_i hshar
      refine (actsAt_alter "7.4.61" i _ d).at hcopy ?_
      rw [Term.dropConsonants, if_pos hshar]
    · rename_i hshar
      split
      · rename_i hhal
        refine (actsAt_alter "7.4.60" i _ d).at hcopy ?_
        rw [Term.dropConsonants, if_neg hshar, if_pos hhal]
      · rename_i hhal
        refine (actsAt_id i d).at hcopy ?_
        rw [Term.dropConsonants, if_neg hshar, if_neg hhal]
        rfl

-- The palatals are looked up only where one is needed.
theorem palatalize_ends (i : Nat) (d : Derivation) :
    (d.palatalize i).Ends
      (fun e => ∃ palatals : SoundMap, palatals.Palatalizes ∧
        ActsAt i (Term.palatalize palatals) d e)
      (d.table.Lacks (kuAndHSounds.sounds ++ Sound.cu.sounds)) := by
  have hnone : SoundMap.Palatalizes ([] : SoundMap) := by
    intro c y hy
    cases hy
  unfold palatalize
  rcases hterm : d.terms[i]? with _ | copy
  · exact ⟨_, hnone, actsAt_of_none _ hterm⟩
  · rw [Option.bind_some]
    rcases hadi : copy.adi? with _ | first
    · exact ⟨_, hnone, (actsAt_id i d).at hterm (by rw [Term.palatalize, hadi]; rfl)⟩
    · dsimp only
      split
      · rename_i hno
        refine ⟨_, hnone, (actsAt_id i d).at hterm ?_⟩
        rw [Term.palatalize, hadi]
        exact (if_pos hno).symm
      · rename_i hku
        rcases d.table.mapSounds_cases decode_kuAndH SoundClass.decode_cu (by decide) with
          ⟨palatals, hok, hmaps, -⟩ | ⟨fault, herror, hlacks⟩
        · rw [hok]
          have hcu : palatals.Palatalizes := fun c y hy => (hmaps.nearest c y hy).mem
          have hpalatal : copy.palatalize palatals = match palatals.image? first with
              | some sub => copy.setAdi [sub]
              | none => copy := by
            rw [Term.palatalize, hadi]
            exact if_neg hku
          dsimp only
          split
          · rename_i sub hsub
            refine ⟨palatals, hcu, (actsAt_alter "7.4.62" i _ d).at hterm ?_⟩
            rw [hpalatal, hsub]
          · rename_i hsub
            refine ⟨palatals, hcu, (actsAt_id i d).at hterm ?_⟩
            rw [hpalatal, hsub]
            rfl
        · rw [herror]
          exact hlacks

theorem actsAt_shortenVowel (i : Nat) (d : Derivation) :
    ActsAt i Term.shortenVowel d (d.shortenVowel i) := by
  unfold shortenVowel
  rcases hterm : d.terms[i]? with _ | copy
  · exact actsAt_of_none _ hterm
  · rw [Option.bind_some]
    have hself (hsame : copy.shortenVowel = copy) : ActsAt i Term.shortenVowel d d :=
      (actsAt_id i d).at hterm hsame.symm
    rcases hfind : copy.text.find? Sound.isAc with _ | vowel
    · exact hself (by rw [Term.shortenVowel, hfind])
    · dsimp only
      rcases hhrasva : Sound.hrasva? vowel with _ | short
      · exact hself (by rw [Term.shortenVowel, hfind]; dsimp only; rw [hhrasva])
      · have hshort : copy.shortenVowel =
            if short = vowel then copy else copy.replaceText [vowel] [short] := by
          rw [Term.shortenVowel, hfind]
          dsimp only
          rw [hhrasva]
        dsimp only
        split
        · rename_i hsame
          exact hself (hshort.trans (if_pos hsame))
        · rename_i hsame
          exact (actsAt_alter "7.4.59" i _ d).at hterm (hshort.trans (if_neg hsame)).symm

theorem actsAt_replaceF (i : Nat) (d : Derivation) :
    ActsAt i Term.replaceF d (d.replaceF i) :=
  actsAt_ite (·.text.contains 'f') (actsAt_alter "7.4.66" i _ d)

-- The root right after the copy is the one that 7.4.73 asks about.
theorem fitPerfectVowel_shows (hd : d.terms = before ++ copy :: root :: after)
    (hroot : root.hasTag .dhatu = true) :
    (d.fitPerfectVowel before.length).terms =
      before ++ (if root.isBhu then copy.lengthenInitial.setAntya ['a']
        else copy.lengthenInitial) :: root :: after := by
  have hinitial := actsAt_ite (·.adi? == some 'a')
    (actsAt_alter "7.4.70" before.length (·.setAdi ['A']) d)
  have hrow := hinitial.terms_of_cut hd rfl
  unfold fitPerfectVowel
  dsimp only
  generalize (if (d.has (before.length : Int) fun t => t.adi? == some 'a') = true then
    d.alter "7.4.70" (before.length : Int) (·.setAdi ['A']) else d) = e at hrow
  have hcut : e.terms = (before ++ [copy.lengthenInitial]) ++ root :: after := by
    rw [hrow, List.append_assoc]
    rfl
  have hlength : (before ++ [copy.lengthenInitial]).length = before.length + 1 := by simp
  have hnext : e.nextAfter? before.length (·.hasTag .dhatu) = some (before.length + 1) := by
    rw [nextAfter?, hcut, ← hlength, List.drop_left, List.findIdx?_cons, hroot]
    simp
  have hasked := has_of_cut hcut Term.isBhu
  rw [hlength] at hasked
  rw [hnext]
  dsimp only
  rw [show (e.has ((before.length + 1 : Nat) : Int) fun t => t.isTaught "BU".toList &&
    (t.gana == some 1 || t.gana == some 2)) = root.isBhu from hasked]
  split
  · exact (actsAt_alter "7.4.73" before.length _ e).terms_of_cut hrow rfl
  · exact hrow

-- The taught forms that the endings of a row have stood for.
def endingLakshanas (row : List Term) : List (List Text) :=
  (row.filter (·.hasTag .tin)).map (·.lakshanas)

theorem isPerfect_eq (d : Derivation) :
    d.isPerfect = (endingLakshanas d.terms).getLast?.any (·.contains "li~w".toList) := by
  unfold isPerfect
  rcases hlast : d.lastTagged? .tin with _ | i
  · have hnone : d.terms.filter (·.hasTag .tin) = [] :=
      List.filter_eq_nil_iff.mpr fun t ht => by simp [lastIndex?_eq_none.mp hlast t ht]
    rw [endingLakshanas, hnone]
    rfl
  · obtain ⟨init, t, rest, hterms, rfl, ht, hrest⟩ := cut_of_findLast? hlast
    have htail : (t :: rest).filter (·.hasTag .tin) = [t] := by
      have hnone : rest.filter (·.hasTag .tin) = [] :=
        List.filter_eq_nil_iff.mpr fun u hu => by simp [hrest u hu]
      simp only [List.filter_cons, ht, hnone, if_true]
    dsimp only
    rw [has_of_cut hterms, endingLakshanas, hterms, List.filter_append, htail]
    simp [Term.hasLakshana]

theorem reduceCopy_shows (hd : d.terms = before ++ copy :: root :: after)
    (hbefore : ∀ t ∈ before, t.hasTag .abhyasa = false) (hcopy : copy.hasTag .abhyasa = true)
    (hroot : root.hasTag .dhatu = true) (hperfect : d.isPerfect = true) :
    d.reduceCopy.Ends
      (fun e => ∃ palatals : SoundMap, palatals.Palatalizes ∧
        e.terms = before ++ root.reducedCopy palatals copy :: root :: after)
      (d.table.Lacks (kuAndHSounds.sounds ++ Sound.cu.sounds)) := by
  have hdrop := actsAt_dropConsonants before.length d
  have htable : (d.dropConsonants before.length).table = d.table :=
    calc (d.dropConsonants before.length).table
        = (d.dropConsonants before.length).rest.table := rfl
      _ = d.rest.table := by rw [hdrop.rest]
  have hpalatal := palatalize_ends before.length (d.dropConsonants before.length)
  rw [htable] at hpalatal
  unfold reduceCopy
  rw [firstTagged?_of_cut hd hcopy hbefore, hperfect]
  refine hpalatal.map _ fun e he => ?_
  obtain ⟨palatals, hcu, hacts⟩ := he
  have hreduced := ((hdrop.trans hacts).trans (actsAt_shortenVowel before.length e)).trans
    (actsAt_replaceF before.length _)
  exact ⟨palatals, hcu, fitPerfectVowel_shows (hreduced.terms_of_cut hd rfl) hroot⟩

-- The perfect doubles the last root, and reduces the copy that then stands before it.
theorem doubled_shows (hd : d.terms = before ++ root :: after) (hroot : root.hasTag .dhatu = true)
    (hlast : ∀ t ∈ after, t.hasTag .dhatu = false)
    (hfresh : ∀ t ∈ d.terms, t.hasTag .abhyasa = false ∧ t.hasTag .abhyasta = false)
    (hperfect : d.isPerfect = true) :
    d.reduplicate.reduceCopy.Ends
      (fun e => ∃ palatals : SoundMap, palatals.Palatalizes ∧ e.terms =
        before ++ root.reducedCopy palatals (copyOf root) :: root.addTag .abhyasta :: after)
      (d.table.Lacks (kuAndHSounds.sounds ++ Sound.cu.sounds)) := by
  have hroot' : (root.addTag .abhyasta).hasTag .dhatu = true :=
    (Term.hasTag_addTag_of_ne (by decide) root).trans hroot
  have hsingle : root.hasTag .abhyasta = false := (hfresh root (by simp [hd])).2
  have hdouble : d.reduplicate = d.doubleAt before.length root := by
    rw [reduplicate_of_cut hd hroot hlast, hperfect, hsingle]
    rfl
  obtain ⟨hrow, hrest⟩ := doubleAt_shows hd
  -- The copy is no ending, so the last ending is the same.
  have hstill : (d.doubleAt before.length root).isPerfect = true := by
    have hcopy : (copyOf root).hasTag .tin = false := rfl
    have htin : (root.addTag .abhyasta).hasTag .tin = root.hasTag .tin :=
      Term.hasTag_addTag_of_ne (by decide) root
    have hsame : endingLakshanas (before ++ copyOf root :: root.addTag .abhyasta :: after) =
        endingLakshanas (before ++ root :: after) := by
      simp only [endingLakshanas, List.filter_append, List.filter_cons, hcopy, htin, List.map_append]
      cases root.hasTag .tin <;> rfl
    rw [isPerfect_eq, hrow, hsame, ← hd, ← isPerfect_eq]
    exact hperfect
  have hbefore : ∀ t ∈ before, t.hasTag .abhyasa = false :=
    fun t ht => (hfresh t (by rw [hd]; exact List.mem_append_left _ ht)).1
  have hends := reduceCopy_shows hrow hbefore (isCopy_copyOf root).abhyasa hroot' hstill
  have htable : (d.doubleAt before.length root).table = d.table :=
    calc (d.doubleAt before.length root).table = (d.doubleAt before.length root).rest.table := rfl
      _ = d.rest.table := by rw [hrest]
  rw [htable] at hends
  rw [hdouble]
  exact hends

-- The copy of a root with one vowel has the usual shape just if the root begins with a consonant or
-- is that vowel alone. Otherwise the consonants after the vowel stay in the copy, though 7.4.73 may
-- put its vowel in the place of the last one. The rules fail only for the want of a palatal.
theorem copy_has_usual_shape_iff (hd : d.terms = before ++ root :: after)
    (hroot : root.hasTag .dhatu = true) (hlast : ∀ t ∈ after, t.hasTag .dhatu = false)
    (hfresh : ∀ t ∈ d.terms, t.hasTag .abhyasa = false ∧ t.hasTag .abhyasta = false)
    (hperfect : d.isPerfect = true)
    (hsounds : ∀ c ∈ root.text, Sound.isAc c = true ∨ Sound.isHal c = true)
    (hone : root.isEkaAc = true) :
    d.reduplicate.reduceCopy.Ends
      (fun e => ∃ copy, e.terms = before ++ copy :: root.addTag .abhyasta :: after ∧
        copy.hasTag .abhyasa = true ∧
        (UsualShape copy.text ↔ root.text.head?.any Sound.isHal = true ∨ root.text.length = 1) ∧
        ∀ v coda, root.text = v :: coda → Sound.isAc v = true →
          copy.text = if root.isBhu then (Sound.initialVowel v :: coda).dropLast ++ ['a']
            else Sound.initialVowel v :: coda)
      (d.table.Lacks (kuAndHSounds.sounds ++ Sound.cu.sounds)) := by
  obtain ⟨onset, v, coda, hvowel⟩ := exists_oneVowel hsounds (beq_iff_eq.mp hone)
  have hcopy : OneVowel onset v coda (copyOf root).text := hvowel
  refine (doubled_shows hd hroot hlast hfresh hperfect).imp (fun e he => ?_) fun _ h => h
  obtain ⟨palatals, hcu, hrow⟩ := he
  have hcopied : (root.reducedCopy palatals (copyOf root)).hasTag .abhyasa = true :=
    (Term.hasTag_eq_of_kind (Term.kind_reducedCopy palatals root _) rfl).trans
      (isCopy_copyOf root).abhyasa
  exact ⟨_, hrow, hcopied, Term.usualShape_reducedCopy_iff hcu hcopy, fun w rest htext hw =>
    Term.text_reducedCopy_of_vowel (hcopy.of_vowel_first htext hw)⟩

end Derivation

-- The root at before the ending of the perfect.
def perfectOfAt : List Term :=
  [Term.ofRoot "at".toList 1 (some 38),
    { Term.ofUpadesha "Ral".toList with
      text := "a".toList, tags := [.pratyaya, .tin], lakshanas := ["li~w".toList] }]

-- Its t stays in the copy.
theorem copy_of_at_keeps_consonant :
    (Derivation.mk perfectOfAt [] [] [] [] true .standard).reduplicate.reduceCopy.Ends
      (fun e => ∃ copy ∈ e.terms, copy.hasTag .abhyasa = true ∧ copy.text = "At".toList ∧
        ¬UsualShape copy.text)
      (FeatureTable.standard.Lacks (kuAndHSounds.sounds ++ Sound.cu.sounds)) := by
  have hcut : perfectOfAt = [] ++ Term.ofRoot "at".toList 1 (some 38) :: perfectOfAt.tail := rfl
  refine (Derivation.copy_has_usual_shape_iff (d := ⟨perfectOfAt, [], [], [], [], true, .standard⟩)
    hcut rfl (by decide) (by decide) (by decide) (by decide) (by decide)).imp (fun e he => ?_)
      fun _ h => h
  obtain ⟨copy, hrow, hcopy, hshape, htext⟩ := he
  refine ⟨copy, by rw [hrow]; simp, hcopy, htext 'a' "t".toList rfl (by decide), fun h => ?_⟩
  exact absurd (hshape.mp h) (by decide)

-- So not every copy comes down to one consonant and one vowel.
theorem not_every_copy_has_usual_shape :
    ¬∀ (d : Derivation) (before after : List Term) (root : Term),
      d.terms = before ++ root :: after → root.hasTag .dhatu = true →
      (∀ t ∈ after, t.hasTag .dhatu = false) →
      (∀ t ∈ d.terms, t.hasTag .abhyasa = false ∧ t.hasTag .abhyasta = false) →
      d.isPerfect = true → (∀ c ∈ root.text, Sound.isAc c = true ∨ Sound.isHal c = true) →
      root.isEkaAc = true →
      d.reduplicate.reduceCopy.Ends
        (fun e => ∀ copy ∈ e.terms, copy.hasTag .abhyasa = true → UsualShape copy.text)
        (d.table.Lacks (kuAndHSounds.sounds ++ Sound.cu.sounds)) := by
  intro h
  have hshape := h ⟨perfectOfAt, [], [], [], [], true, .standard⟩ [] _ _ rfl rfl (by decide)
    (by decide) (by decide) (by decide) (by decide)
  have hdone : ∃ e, (Derivation.mk perfectOfAt [] [] [] [] true .standard).reduplicate.reduceCopy =
      .done e ∧ (e.terms.map fun t => (t.hasTag .abhyasa, t.text)).head? =
        some (true, "At".toList) := ⟨_, rfl, rfl⟩
  obtain ⟨e, heq, hhead⟩ := hdone
  rw [heq] at hshape
  obtain ⟨rest, hrest⟩ := List.head?_eq_some_iff.mp hhead
  obtain ⟨copy, later, hterms, hcopy, -⟩ := List.map_eq_cons_iff.mp hrest
  obtain ⟨htag, htext⟩ := Prod.mk.injEq .. ▸ hcopy
  have hone := hshape copy (by rw [hterms]; exact List.mem_cons_self) htag
  rw [htext] at hone
  exact not_usualShape (by decide) hone

end Vyakarana
