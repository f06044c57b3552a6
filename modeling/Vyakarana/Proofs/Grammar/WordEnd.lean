import Vyakarana.Proofs.Grammar.VowelPattern

/-!
The end of a word.

A verb form ends in a vowel that stays a vowel and, after it, in few sounds. Where sounds meet, the
vowel may be merged with what is before it and the sounds after it may be reduced to one, but none
of them becomes one that the hard stops could replace. So nothing is left for the last of the optional
rules.
-/

namespace Vyakarana

-- The vowels in which endings end, and those that they can be merged into.
def closingVowels : List Char := "aAiIuUeEoO".toList

-- What follows the last vowel of an ending before the last chapters.
def endingTails : List Text := [[], ['m'], ['s'], ['t'], ['n', 't']]

namespace Text

-- The text ends in such a vowel.
def EndsOpen (t : Text) : Bool := t.getLast?.any closingVowels.contains

-- The text ends in such a vowel, followed by one of `tails`.
def Closes (tails : List Text) (t : Text) : Prop :=
  ∃ v ∈ closingVowels, ∃ tail ∈ tails, (v :: tail) <:+ t

instance (tails : List Text) (t : Text) : Decidable (Closes tails t) :=
  inferInstanceAs (Decidable (∃ v ∈ closingVowels, ∃ tail ∈ tails, (v :: tail) <:+ t))

variable {tails tails' : List Text} {s t before after sub : Text} {x y : Char}

theorem Closes.of_suffix (h : Closes tails s) (hst : s <:+ t) : Closes tails t := by
  obtain ⟨v, hv, tail, htail, hsuffix⟩ := h
  exact ⟨v, hv, tail, htail, hsuffix.trans hst⟩

theorem closes_of_last {tail : Text} (hx : x ∈ closingVowels) (htail : tail ∈ tails)
    (before : Text) : Closes tails (before ++ x :: tail) :=
  ⟨x, hx, tail, htail, List.suffix_append _ _⟩

-- What ends the text is found behind a sound that is in no tail, or begins with it.
theorem Closes.cut (h : Closes tails (before ++ x :: after)) (hx : ∀ tail ∈ tails, x ∉ tail) :
    Closes tails after ∨ x ∈ closingVowels ∧ after ∈ tails := by
  obtain ⟨v, hv, tail, htail, more, hmore⟩ := h
  rcases List.append_eq_append_iff.mp hmore with ⟨front, rfl, heq⟩ | ⟨front, rfl, heq⟩
  · rcases List.cons_eq_append_iff.mp heq with ⟨rfl, hcons⟩ | ⟨front, rfl, rfl⟩
    · obtain ⟨rfl, rfl⟩ := List.cons.inj hcons
      exact .inr ⟨hv, htail⟩
    · exact absurd (by simp) (hx _ htail)
  · rcases List.cons_eq_append_iff.mp heq with ⟨rfl, hcons⟩ | ⟨front, rfl, rfl⟩
    · obtain ⟨rfl, rfl⟩ := List.cons.inj hcons
      exact .inr ⟨hv, htail⟩
    · exact .inl ⟨v, hv, tail, htail, List.suffix_append _ _⟩

-- Such a sound may be exchanged, together with what is before it.
theorem Closes.exchange (h : Closes tails (before ++ x :: after)) (hx : ∀ tail ∈ tails, x ∉ tail)
    (hsub : x ∈ closingVowels → sub.EndsOpen = true) (front : Text) :
    Closes tails (front ++ sub ++ after) := by
  rcases h.cut hx with hafter | ⟨hvowel, htail⟩
  · exact hafter.of_suffix (List.suffix_append _ _)
  · obtain ⟨w, hw, hopen⟩ := (Option.any_eq_true _ _).mp (hsub hvowel)
    obtain ⟨init, rfl⟩ := List.getLast?_eq_some_iff.mp hw
    have := closes_of_last (List.contains_iff_mem.mp hopen) htail (front ++ init)
    simpa using this

-- With tails of one sound nothing but the last two sounds counts.
theorem Closes.behind (h : Closes tails (before ++ x :: y :: after))
    (hshort : ∀ tail ∈ tails, tail.length ≤ 1) (hx : x ∉ closingVowels) :
    Closes tails (y :: after) := by
  obtain ⟨v, hv, tail, htail, hsuffix⟩ := h
  have hlength := hshort tail htail
  have hback : (y :: after) <:+ before ++ x :: y :: after := ⟨before ++ [x], by simp⟩
  by_cases hle : (v :: tail).length ≤ (y :: after).length
  · exact ⟨v, hv, tail, htail, List.suffix_of_suffix_length_le hsuffix hback hle⟩
  · have hpair : (v :: tail) <:+ x :: y :: after := by
      refine List.suffix_of_suffix_length_le hsuffix (List.suffix_append _ _) ?_
      simp only [List.length_cons]
      omega
    have heq := hpair.eq_of_length (by simp only [List.length_cons] at hle ⊢; omega)
    rw [← (List.cons.inj heq).1] at hx
    exact absurd hv hx

end Text

namespace SoundRule

theorem not_mem_of_isAc {x : Char} (hx : Sound.isAc x = true) : ∀ tail ∈ endingTails, x ∉ tail := by
  have hall : ∀ tail ∈ endingTails, ∀ c ∈ tail, Sound.isAc c = false := by decide
  intro tail htail hmem
  rw [hall tail htail x hmem] at hx
  cases hx

-- A vowel is exchanged, with what is before it, for sounds that end in a vowel like it.
theorem closes_exchange_vowel {before after sub : Text} {y : Char}
    (h : Text.Closes endingTails (before ++ y :: after)) (hy : Sound.isAc y = true)
    (hsub : y ∈ closingVowels → Text.EndsOpen sub = true) (front : Text) :
    Text.Closes endingTails (front ++ sub ++ after) :=
  h.exchange (not_mem_of_isAc hy) hsub front

-- Before a vowel anything may be exchanged.
theorem closes_exchange_before {before after sub : Text} {y : Char}
    (h : Text.Closes endingTails (before ++ y :: after)) (hy : Sound.isAc y = true) (front : Text) :
    Text.Closes endingTails (front ++ sub ++ y :: after) := by
  have hopen : ∀ y ∈ closingVowels, Text.EndsOpen [y] = true := by decide
  have hkept := closes_exchange_vowel h hy (hopen y) (front ++ sub)
  rwa [List.append_assoc (front ++ sub), List.singleton_append] at hkept

-- Two sounds, the second of them a vowel, are merged.
theorem closes_merge {s : Site} (hs : s.Current) {y : Char} (hy : s.next? = some y)
    (hac : Sound.isAc y = true) {sub : Text} (hsub : y ∈ closingVowels → Text.EndsOpen sub = true)
    (h : s.text.Closes endingTails) : (s.merge sub).text.Closes endingTails := by
  obtain ⟨x, hx⟩ := Site.here?_of_next? hy
  obtain ⟨before, after, htext, -, -, hmerge⟩ := Site.cut_pair hs hx hy
  rw [htext, List.append_cons] at h
  rw [hmerge]
  exact closes_exchange_vowel h hac hsub before

-- A sound before a vowel is exchanged.
theorem closes_replace {s : Site} (hs : s.Current) {x y : Char} (hx : s.here? = some x)
    (hy : s.next? = some y) (hac : Sound.isAc y = true) (sub : Text)
    (h : s.text.Closes endingTails) : (s.replace sub).text.Closes endingTails := by
  obtain ⟨before, after, htext, hreplace, -, -⟩ := Site.cut_pair hs hx hy
  rw [htext, List.append_cons] at h
  rw [hreplace]
  exact closes_exchange_before h hac before

theorem keepsCloses_augmentVrddhi : augmentVrddhi.Keeps (Text.Closes endingTails) := by
  intro s hs happlies h
  obtain ⟨_, y, _, -, hy, hac, -, -, -, hact⟩ := acts_augmentVrddhi happlies
  have hgrade : ∀ y ∈ closingVowels, Text.EndsOpen ((Sound.vrddhi? y).getD []) = true := by decide
  rw [hact, Derivation.text_record]
  exact closes_merge hs hy hac (hgrade y) h

theorem keepsCloses_dropYv : dropYv.Keeps (Text.Closes endingTails) := by
  intro s hs happlies h
  obtain ⟨x, hyv, hx, hact⟩ := acts_dropYv happlies
  obtain ⟨before, after, htext, -, -, hreplace⟩ := Site.cut_here hs hx
  have hno : ∀ x ∈ ['y', 'v'], x ∉ closingVowels ∧ ∀ tail ∈ endingTails, x ∉ tail := by decide
  obtain ⟨hopen, htails⟩ := hno x hyv
  rw [htext] at h
  rw [hact, Derivation.text_record, hreplace]
  exact h.exchange htails (fun hx => absurd hx hopen) before

theorem keepsCloses_absorbA : absorbA.Keeps (Text.Closes endingTails) := by
  intro s hs happlies h
  obtain ⟨y, hx, hy, hac, hact⟩ := acts_absorbA happlies
  rw [hact, Derivation.text_record]
  exact closes_replace hs hx hy hac [] h

theorem keepsCloses_mergeSavarna : mergeSavarna.Keeps (Text.Closes endingTails) := by
  refine keeps_forPair fun s x y hs _ hy happlies h => ?_
  simp only [Bool.and_eq_true] at happlies
  have hak : ∀ y ∈ SoundClass.ak.sounds, Sound.isAc y = true :=
    SoundClass.forall_ofText (by decide)
  have hlong : ∀ x ∈ SoundClass.ak.sounds, ∀ y ∈ (Sound.savarna x).sounds, y ∈ closingVowels →
      Text.EndsOpen (Sound.dirgha? x).toList = true := SoundClass.forall_ofText (by decide)
  exact closes_merge hs hy (hak y (List.contains_iff_mem.mp happlies.1.2))
    (hlong x (List.contains_iff_mem.mp happlies.1.1) y (List.contains_iff_mem.mp happlies.2)) h

theorem keepsCloses_mergeAfterA : mergeAfterA.Keeps (Text.Closes endingTails) := by
  intro s hs happlies h
  obtain ⟨_, y, sub, rule, -, hy, -, -, ⟨hac, hopen⟩, hact⟩ :=
    acts_mergeAfterA (P := fun y sub => Sound.isAc y = true ∧
        (y ∈ closingVowels → Text.EndsOpen sub = true))
      (SoundClass.forall_ofText (by decide)) (SoundClass.forall_ofText (by decide)) happlies
  rw [hact, Derivation.text_record]
  exact closes_merge hs hy hac hopen h

theorem keepsCloses_of_mem_vowelRules {r : SoundRule} (h : r ∈ vowelRules) :
    r.Keeps (Text.Closes endingTails) := by
  simp only [vowelRules, List.mem_cons, List.not_mem_nil, or_false] at h
  rcases h with rfl | rfl | rfl | rfl | rfl | rfl | rfl
  · exact keepsCloses_augmentVrddhi
  · exact keepsCloses_dropYv
  · exact keepsCloses_absorbA
  · refine keeps_forPair fun s x y hs hx hy happlies h => ?_
    exact closes_replace hs hx hy ((Bool.and_eq_true _ _).mp happlies).2 _ h
  · exact keepsCloses_mergeSavarna
  · refine keeps_forPair fun s x y hs hx hy happlies h => ?_
    exact closes_replace hs hx hy ((Bool.and_eq_true _ _).mp happlies).2 _ h
  · exact keepsCloses_mergeAfterA

end SoundRule

namespace Derivation

theorem joinVowels_closes {d : Derivation} (h : d.text.Closes endingTails) :
    d.joinVowels.Ends (fun e => e.text.Closes endingTails ∧ e.background = d.background)
      fun _ => True := by
  obtain ⟨e, hdone, hturn⟩ := d.joinVowels_rests
  have hkept := d.keepsBackground_joinVowels
  rw [hdone] at hkept ⊢
  exact ⟨hturn.keeps (fun r hr => ⟨(SoundRule.restsInBound_of_mem hr).idle,
    SoundRule.keepsCloses_of_mem_vowelRules hr⟩) h, hkept⟩

end Derivation

-- The tails when the last cluster is reduced to one sound, and when the word is finished.
def reducedTails : List Text := [[], ['m'], ['s'], ['t'], ['n']]

def finishedTails : List Text := [[], ['m'], ['H'], ['t'], ['n']]

namespace SoundRule

variable {tails : List Text}

-- Before another sound a consonant may be exchanged.
theorem Replaces.keepsCloses {r : SoundRule} {P : Char → Option Char → Char → Prop}
    (h : r.Replaces P) (hshort : ∀ tail ∈ tails, tail.length ≤ 1)
    (hP : ∀ x y sub, P x y sub → x ∉ closingVowels ∧ y.isSome = true) :
    r.Keeps (Text.Closes tails) := by
  refine h.keeps fun before x after sub hsub hcloses => ?_
  obtain ⟨hno, hnext⟩ := hP x _ sub hsub
  cases after with
  | nil => cases hnext
  | cons y rest =>
      exact (hcloses.behind hshort hno).of_suffix ⟨before ++ [sub], by simp⟩

theorem keepsCloses_cuToKu {T : FeatureTable} {nearest : SoundMap}
    (h : T.MapsNearest Sound.cu.sounds Sound.ku.sounds nearest) :
    (cuToKu nearest).Keeps (Text.Closes reducedTails) := by
  have hno : ∀ x ∈ Sound.cu.sounds, x ∉ closingVowels ∧ ∀ tail ∈ reducedTails, x ∉ tail := by
    decide
  refine (replaces_cuToKu h).keeps fun before x after sub ⟨hx, _⟩ hcloses => ?_
  obtain ⟨hopen, htails⟩ := hno x hx
  have hkept : Text.Closes reducedTails (before ++ [sub] ++ after) :=
    hcloses.exchange htails (fun hx => absurd hx hopen) before
  rwa [List.append_assoc, List.singleton_append] at hkept

theorem keepsCloses_toAnusvara : toAnusvara.Keeps (Text.Closes finishedTails) := by
  have hno : ∀ x ∈ ['m', 'n'], x ∉ closingVowels := by decide
  exact replaces_toAnusvara.keepsCloses (by decide) fun x _ _ ⟨hx, hnext, _⟩ => ⟨hno x hx, hnext⟩

theorem keepsCloses_retroflexS : retroflexS.Keeps (Text.Closes finishedTails) := by
  refine replaces_retroflexS.keeps ?_
  rintro before x after sub ⟨rfl, rfl⟩ hcloses
  have hkept : Text.Closes finishedTails (before ++ ['z'] ++ after) :=
    hcloses.exchange (by decide) (by decide) before
  rwa [List.append_assoc, List.singleton_append] at hkept

theorem keepsCloses_toNearest {T : FeatureTable} {rule : Rule} {following targets : SoundClass}
    {nearest : SoundMap} (h : T.MapsNearest SoundClass.jhal.sounds targets.sounds nearest)
    (hne : targets.sounds ≠ []) :
    (toNearest rule following nearest).Keeps (Text.Closes finishedTails) := by
  have hno : ∀ x ∈ SoundClass.jhal.sounds, x ∉ closingVowels := SoundClass.forall_ofText (by decide)
  exact (replaces_toNearest h hne).keepsCloses (by decide)
    fun x _ _ ⟨hx, hnext, _⟩ => ⟨hno x hx, hnext⟩

theorem keepsCloses_assimilate {T : FeatureTable} {rule : Rule} {group : SoundClass}
    {blocked : Char → Char → Bool} {nearest : SoundMap}
    (h : T.MapsNearest SoundClass.stu.sounds group.sounds nearest) (hne : group.sounds ≠ [])
    (hgroup : ∀ c ∈ group.sounds, c ∉ closingVowels) :
    (assimilate rule group blocked nearest).Keeps (Text.Closes finishedTails) := by
  intro s hs happlies hcloses
  obtain ⟨x, y, sub, hx, hy, hpair, -, hact⟩ := assimilate_cases h hne happlies
  have hstu : ∀ c ∈ SoundClass.stu.sounds, c ∉ closingVowels :=
    SoundClass.forall_ofText (by decide)
  obtain ⟨hxno, hyno⟩ : x ∉ closingVowels ∧ y ∉ closingVowels := by
    rcases hpair with ⟨hx', hy'⟩ | ⟨hx', hy'⟩
    · exact ⟨hstu x hx', hgroup y hy'⟩
    · exact ⟨hgroup x hx', hstu y hy'⟩
  obtain ⟨before, after, htext, hreplace, hreplaceNext, -⟩ := Site.cut_pair hs hx hy
  rw [htext] at hcloses
  have hbehind := hcloses.behind (by decide) hxno
  rcases hact with ⟨-, -, hact⟩ | ⟨-, -, hact⟩
  · rw [hact, Derivation.text_record, hreplace]
    exact hbehind.of_suffix (List.suffix_append _ _)
  · rw [hact, Derivation.text_record, hreplaceNext]
    -- What ends the text is not found at the second sound either, which is no vowel.
    obtain ⟨v, hv, tail, htail, hsuffix⟩ := hbehind
    rcases List.suffix_cons_iff.mp hsuffix with heq | hafter
    · rw [(List.cons.inj heq).1] at hv
      exact absurd hv hyno
    · exact ⟨v, hv, tail, htail, hafter.trans (List.suffix_append _ _)⟩

end SoundRule

theorem ConsonantPass.keepsCloses {p : ConsonantPass} {T : FeatureTable} {r : SoundRule}
    (hp : p ≠ .throat ∧ p ≠ .nasal) (h : p.rule T = .ok r) :
    r.Keeps (Text.Closes finishedTails) := by
  have hne {w : Text} (hw : w ≠ []) := SoundClass.ofText_ne_nil hw
  cases makes_of_rule h with
  | throat => exact absurd rfl hp.1
  | nasal => exact absurd rfl hp.2
  | anusvara => exact SoundRule.keepsCloses_toAnusvara
  | suffixS => exact SoundRule.keepsCloses_retroflexS
  | palatal _ hmaps | retroflex _ hmaps =>
      exact SoundRule.keepsCloses_assimilate hmaps (hne (by decide))
        (SoundClass.forall_ofText (by decide))
  | soft _ hmaps | hard _ hmaps => exact SoundRule.keepsCloses_toNearest hmaps (hne (by decide))

namespace Derivation

variable {d e : Derivation} {tails : List Text} {front : Text} {x : Char}

-- Where there is a text, a term has its last sound.
theorem cut_lastSound (h : d.text = front ++ [x]) :
    ∃ i t init, d.lastHeard? = some i ∧ d.terms[i]? = some t ∧ t.antya? = some x ∧
      t.text = init ++ [x] ∧ ∀ s, (d.update i (·.setAntya s)).text = front ++ s := by
  rcases hi : d.lastHeard? with _ | i
  · have hsilent : d.text = [] := by
      rw [text, List.flatMap_eq_nil_iff]
      intro t ht
      simpa [Term.isEmpty] using lastIndex?_eq_none.mp hi t ht
    rw [hsilent] at h
    cases List.nil_eq_append_iff.mp h |>.2
  · obtain ⟨t, ht, hheard, before, htext, hupdate⟩ := cut_lastHeard hi
    have hy : t.antya? = some (t.text.getLast hheard) := List.getLast?_eq_some_getLast hheard
    obtain ⟨init, hinit, hset⟩ := Term.cut_antya hy
    have heq := h.symm.trans (htext.trans (congrArg (before ++ ·) hinit))
    rw [← List.append_assoc] at heq
    obtain ⟨hfront, hlast⟩ := List.append_inj' heq rfl
    cases hlast
    refine ⟨i, t, init, rfl, ht, hy, hinit, fun s => ?_⟩
    rw [hupdate, hset, hfront, List.append_assoc]

theorem text_alter_of_some {i : Nat} {t : Term} (ht : d.terms[i]? = some t) (rule : Rule)
    (f : Term → Term) : (d.alter rule i f).text = (d.update i f).text := by
  have hsome : (d.term? i).isSome = true := Option.isSome_iff_exists.mpr ⟨t, ht⟩
  rw [alter, if_pos hsome, text_record]

-- The last sound of a cluster is dropped, so that one sound at most is left after the vowel.
theorem dropFinalOfCluster_closes (h : d.text.Closes endingTails) :
    d.dropFinalOfCluster.text.Closes reducedTails := by
  obtain ⟨v, hv, tail, htail, front, htext⟩ := h
  have hvowels : ∀ v ∈ closingVowels, Sound.isHal v = false := by decide
  have hhal := hvowels v hv
  have hsingle : ∀ c, Sound.isSamyoganta (front ++ [v, c]) = false := by
    intro c
    simp [Sound.isSamyoganta, Text.penultimate?, hhal]
  have hopen : Sound.isSamyoganta (front ++ [v]) = false := by
    simp [Sound.isSamyoganta, hhal]
  have hkept (hno : Sound.isSamyoganta d.text = false) : d.dropFinalOfCluster.text = d.text := by
    rcases d.dropFinalOfCluster_cases with ⟨-, heq⟩ | ⟨_, -, hcluster, -⟩
    · rw [heq]
    · cases hno.symm.trans hcluster
  rcases List.mem_cons.mp htail with rfl | htail
  · rw [hkept (htext ▸ hopen), ← htext]
    exact Text.closes_of_last hv (by decide) front
  · have hends : ∀ tail ∈ ([['m'], ['s'], ['t'], ['n', 't']] : List Text),
        tail ∈ reducedTails ∧ tail.length = 1 ∨ tail = ['n', 't'] := by decide
    rcases hends tail htail with ⟨hmem, hlength⟩ | rfl
    · obtain ⟨c, rfl⟩ := List.length_eq_one_iff.mp hlength
      rw [hkept (htext ▸ hsingle c), ← htext]
      exact Text.closes_of_last hv hmem front
    · have hcut : d.text = (front ++ [v, 'n']) ++ ['t'] := by rw [← htext]; simp
      obtain ⟨i, t, init, hi, ht, -, -, hset⟩ := cut_lastSound hcut
      have hcluster : Sound.isSamyoganta d.text = true := by
        rw [← htext]
        simp [Sound.isSamyoganta, Text.penultimate?]
        decide
      unfold dropFinalOfCluster
      rw [hi]
      dsimp only
      rw [if_pos hcluster, text_alter_of_some ht, hset, List.append_nil]
      have hn : ['n'] ∈ reducedTails := by decide
      exact Text.closes_of_last hv hn front

-- A final sound is exchanged for another one, and any other stays.
theorem text_replaceFinal (h : d.text = front ++ [x]) (rule : Rule) (final sub : Char) :
    (d.replaceFinal rule final sub).text = front ++ [if x = final then sub else x] := by
  obtain ⟨i, t, init, hi, ht, hantya, -, hset⟩ := cut_lastSound h
  have hhas : d.has i (·.antya? == some final) = (some x == some final) := by
    rw [has, show d.term? (i : Int) = some t from ht, Option.any_some, hantya]
  unfold replaceFinal
  rw [hi]
  dsimp only
  rw [hhas]
  by_cases hx : x = final
  · rw [if_pos (by rw [hx, beq_self_eq_true]), if_pos hx, text_alter_of_some ht, hset]
  · rw [if_neg (by simpa using hx), if_neg hx, h]

theorem replaceFinal_closes {tails' : List Text} {final sub : Char}
    (hfinal : final ∉ closingVowels)
    (htails : ∀ tail ∈ tails, tail = [final] ∧ [sub] ∈ tails' ∨
      tail.getLast? ≠ some final ∧ tail ∈ tails')
    (h : d.text.Closes tails) (rule : Rule) :
    (d.replaceFinal rule final sub).text.Closes tails' := by
  obtain ⟨v, hv, tail, htail, front, htext⟩ := h
  rcases htails tail htail with ⟨rfl, hsub⟩ | ⟨hother, hkept⟩
  · have hcut : d.text = (front ++ [v]) ++ [final] := by rw [← htext]; simp
    rw [text_replaceFinal hcut, if_pos rfl, List.append_assoc, List.singleton_append]
    exact Text.closes_of_last hv hsub front
  · obtain ⟨init, x, hend⟩ : ∃ init x, v :: tail = init ++ [x] :=
      ⟨_, _, (List.dropLast_concat_getLast (List.cons_ne_nil v tail)).symm⟩
    have hx : x ≠ final := by
      rintro rfl
      have hlast := congrArg List.getLast? hend
      rw [List.getLast?_cons, List.getLast?_concat] at hlast
      rcases htail : tail.getLast? with _ | y
      · rw [htail] at hlast
        exact hfinal (Option.some.inj hlast ▸ hv)
      · rw [htail] at hlast hother
        exact hother hlast
    have hcut : d.text = (front ++ init) ++ [x] := by
      rw [← htext, hend, List.append_assoc]
    rw [text_replaceFinal hcut, if_neg hx, ← hcut, ← htext]
    exact Text.closes_of_last hv hkept front

-- A lengthened vowel is still the vowel that the text ends in, if it was.
theorem lengthenBeforeRv_closes
    (htails : ∀ c ∈ SoundClass.ik.sounds, ∀ tail ∈ tails, c ∉ tail)
    (h : d.text.Closes tails) (i : Nat) : (d.lengthenBeforeRv i).text.Closes tails := by
  have hlong : ∀ c ∈ SoundClass.ik.sounds, c ∈ closingVowels →
      Text.EndsOpen (Sound.dirgha? c).toList = true := SoundClass.forall_ofText (by decide)
  rcases d.lengthenBeforeRv_cases i with heq | ⟨root, vowel, _, hroot, -, hvowel, hik, -, -, heq⟩
  · rwa [heq]
  · have hmem := List.contains_iff_mem.mp hik
    obtain ⟨before, after, htext, hupdate⟩ := cut_text hroot
    obtain ⟨init, last, hcut, hset⟩ := Term.cut_upadha hvowel
    rw [htext, hcut] at h
    have hvowelled : Text.Closes tails ((before ++ init) ++ vowel :: last :: after) := by
      simpa using h
    have hkept := hvowelled.exchange (htails vowel hmem) (hlong vowel hmem) (before ++ init)
    rw [heq, text_alter_of_some hroot, hupdate, hset]
    simpa using hkept

theorem finishWord_closes (h : d.text.Closes reducedTails) :
    d.finishWord.text.Closes finishedTails := by
  have hr : (d.replaceFinal "8.2.66" 's' 'r').text.Closes [[], ['m'], ['r'], ['t'], ['n']] :=
    replaceFinal_closes (by decide) (by decide) h _
  have hlong := forEach_keeps
    (P := fun e => e.text.Closes [[], ['m'], ['r'], ['t'], ['n']])
    (fun e i he => lengthenBeforeRv_closes (by decide) he i) hr
  exact replaceFinal_closes (by decide) (by decide) hlong _

-- What the rule of a pass keeps of the text, the pass keeps.
theorem pass_keeps {p : ConsonantPass} {P : Text → Prop}
    (hkeeps : ∀ r, p.rule d.table = .ok r → r.Keeps P) (h : P d.text) :
    (d.pass p).Ends (fun e => P e.text ∧ e.background = d.background) fun _ => True := by
  rcases d.pass_rests p with ⟨r, e, hok, hrests, hdone, hkept, -⟩ | ⟨fault, -, hfail, -⟩
  · rw [hdone]
    exact ⟨hrests.keeps (ConsonantPass.halting_of_rule hok).idle (hkeeps r hok) h, hkept⟩
  · rw [hfail]
    trivial

-- The nearest of the stops to t is t itself, so that a final t stays.
theorem image_t {ys : Text} (hys : ys ∈ ["car".toList, "jaS car".toList]) {nearest : SoundMap}
    (h : FeatureTable.standard.mapSounds "Jal".toList ys = .ok nearest) :
    nearest.image? 't' = some 't' := by
  have hall : ∀ ys ∈ ["car".toList, "jaS car".toList],
      (FeatureTable.standard.mapSounds "Jal".toList ys).toOption.all
        (·.image? 't' == some 't') = true := by decide +kernel
  have hsome := hall ys hys
  rw [h] at hsome
  exact beq_iff_eq.mp hsome

theorem deaspirateCopy_closes (htable : d.table = .standard) (h : d.text.Closes finishedTails) :
    d.deaspirateCopy.Ends (fun e => e.text.Closes finishedTails ∧ e.background = d.background)
      fun _ => True := by
  have hjhal : ∀ c ∈ SoundClass.jhal.sounds, c ∉ closingVowels ∧
      (c = 't' ∨ ∀ tail ∈ finishedTails, c ∉ tail) := SoundClass.forall_ofText (by decide)
  rcases d.deaspirateCopy_cases with heq | ⟨fault, -, heq⟩ |
    ⟨i, t, first, sub, nearest, -, ht, hadi, hclass, hok, hsub, -, hchanges, heq⟩
  · rw [heq]
    exact ⟨h, rfl⟩
  · rw [heq]
    trivial
  · obtain ⟨hopen, htails⟩ := hjhal first (List.contains_iff_mem.mp hclass)
    obtain ⟨rest, hcut, hset⟩ := Term.cut_adi hadi
    obtain ⟨before, after, htext, hupdate⟩ := cut_text ht
    rw [heq]
    refine ⟨?_, background_alter _ _ _ _⟩
    rw [text_alter_of_some ht, hupdate, hset]
    have hother : ∀ tail ∈ finishedTails, first ∉ tail := by
      refine htails.resolve_left ?_
      rintro rfl
      rw [htable] at hok
      rw [image_t (by decide) hok] at hsub
      exact hchanges (Option.some.inj hsub).symm
    rw [htext, hcut] at h
    have hfirst : Text.Closes finishedTails (before ++ first :: (rest ++ after)) := by
      simpa using h
    have hkept : Text.Closes finishedTails (before ++ [sub] ++ (rest ++ after)) :=
      hfirst.exchange hother (fun hx => absurd hx hopen) before
    simpa using hkept

-- No hard stop could take the place of the last sound.
theorem devoiceFinal_of_closes (htable : d.table = .standard) (h : d.text.Closes finishedTails) :
    d.devoiceFinal.Ends (· = d) fun _ => True := by
  have hends : ∀ v ∈ closingVowels, ∀ tail ∈ finishedTails,
      (v :: tail).getLast?.all (fun x => !SoundClass.jhal.contains x || x == 't') = true := by
    decide
  rcases d.devoiceFinal_cases with heq | ⟨fault, -, heq⟩ |
    ⟨i, t, x, sub, nearest, hi, ht, hantya, hclass, hok, hsub, -, hchanges, heq⟩
  · rw [heq]
    exact rfl
  · rw [heq]
    trivial
  · -- A last sound of jhal is t, which is its own nearest stop.
    obtain ⟨v, hv, tail, htail, front, htext⟩ := h
    obtain ⟨init, y, hend⟩ : ∃ init y, v :: tail = init ++ [y] :=
      ⟨_, _, (List.dropLast_concat_getLast (List.cons_ne_nil v tail)).symm⟩
    have hcut : d.text = (front ++ init) ++ [y] := by rw [← htext, hend, List.append_assoc]
    obtain ⟨j, u, -, hj, hu, hlast, -, -⟩ := cut_lastSound hcut
    cases hi.symm.trans hj
    cases ht.symm.trans hu
    cases hantya.symm.trans hlast
    have hx : x = 't' := by
      have hlast := hends v hv tail htail
      rw [hend, List.getLast?_concat, Option.all_some, hclass] at hlast
      simpa using hlast
    rw [htable] at hok
    rw [hx, image_t (by decide) hok] at hsub
    exact absurd ((Option.some.inj hsub).symm.trans hx.symm) hchanges

-- A word that ends so is joined without the last of the optional rules.
theorem joinConsonants_of_closes (htable : d.table = .standard)
    (h : d.text.Closes endingTails) :
    d.joinConsonants.Ends (fun e => e.background = d.background) fun _ => True := by
  have hpass {p : ConsonantPass} (hp : p ≠ .throat ∧ p ≠ .nasal) {e : Derivation}
      (he : e.text.Closes finishedTails ∧ e.background = d.background) :
      (e.pass p).Ends (fun f => f.text.Closes finishedTails ∧ f.background = d.background)
        fun _ => True :=
    (pass_keeps (fun r hr => ConsonantPass.keepsCloses hp hr) he.1).imp
      (fun f hf => ⟨hf.1, hf.2.trans he.2⟩) fun _ h => h
  have hthroat : (d.dropFinalOfCluster.pass .throat).Ends
      (fun e => e.text.Closes reducedTails ∧ e.background = d.background) fun _ => True := by
    refine (pass_keeps (fun r hr => ?_) (dropFinalOfCluster_closes h)).imp
      (fun e he => ⟨he.1, he.2.trans (alters_dropFinalOfCluster d).background⟩) fun _ h => h
    cases ConsonantPass.makes_of_rule hr with
    | throat _ hmaps => exact SoundRule.keepsCloses_cuToKu hmaps
  have hfinish : ((d.dropFinalOfCluster.pass .throat).map finishWord).Ends
      (fun e => e.text.Closes finishedTails ∧ e.background = d.background) fun _ => True :=
    hthroat.map finishWord fun e he =>
      ⟨finishWord_closes he.1, (alters_finishWord e).background.trans he.2⟩
  refine joinConsonants_ends_of (Q := fun e => e.background = d.background)
    (hfinish.andThen _ fun e he => hpass (p := .anusvara) (by decide) he)
    (fun p e hthroat hnasal he => hpass ⟨hthroat, hnasal⟩ he) (fun e he => ?_) (fun e he => ?_)
    fun e he => ?_
  · exact (deaspirateCopy_closes ((table_eq_of_background he.2).trans htable) he.1).imp
      (fun f hf => ⟨hf.1, hf.2.trans he.2⟩) fun _ h => h
  · exact (devoiceFinal_of_closes ((table_eq_of_background he.2).trans htable) he.1).imp
      (fun f hf => hf.symm ▸ he.2) fun _ h => h
  · rcases e.pass_rests .nasal with ⟨-, f, -, -, hdone, hkept, -⟩ | ⟨fault, -, hfail, -⟩
    · rw [hdone]
      exact hkept.trans he
    · rw [hfail]
      trivial

end Derivation

end Vyakarana
