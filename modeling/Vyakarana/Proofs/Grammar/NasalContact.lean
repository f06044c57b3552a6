import Vyakarana.Proofs.Derivation.Consultation
import Vyakarana.Proofs.Grammar.WordEnd

/-!
Nasals before consonants, and the sounds that end no word.

Where n or m stands before a sound of jhal it turns into the anusvara, and s and r at the end of the
word into the visarga. The rules after that exchange one sound at a time. None of them makes a nasal
of a sound, or a sound of jhal out of another one, or s or r of the last sound, so that what was
settled stays settled, until the anusvara before a stop turns into the nasal of its place.
-/

namespace Vyakarana

namespace Sound

-- A nasal that the anusvara stands for before such a sound.
def nasalPair (x y : Char) : Bool := "mn".toList.contains x && SoundClass.jhal.contains y

-- The same, unless the two sounds are savarna.
def foreignPair (x y : Char) : Bool := nasalPair x y && !(savarna x).contains y

def anusvaraPair (x y : Char) : Bool := x == 'M' && SoundClass.jhay.contains y

end Sound

namespace Text

variable {before after t : Text} {x sub : Char}

-- The text ends in no sound that the visarga takes the place of.
def EndsInPausa (t : Text) : Prop := ∀ x ∈ t.getLast?, x ≠ 's' ∧ x ≠ 'r'

-- What is settled when the anusvara has come to rest.
structure Settled (t : Text) : Prop where
  apart : t.Avoids Sound.nasalPair
  pausa : t.EndsInPausa

-- Sounds before the last one do not count.
theorem EndsInPausa.exchange {y : Char} (h : EndsInPausa (before ++ y :: after)) (front : Text) :
    EndsInPausa (front ++ y :: after) := by
  unfold EndsInPausa at *
  rwa [List.getLast?_append_of_ne_nil _ (List.cons_ne_nil y after)] at *

-- A sound before another one may be exchanged.
theorem EndsInPausa.exchange_before (h : EndsInPausa (before ++ x :: after))
    (hafter : after.head?.isSome = true) (sub : Char) : EndsInPausa (before ++ sub :: after) := by
  cases after with
  | nil => cases hafter
  | cons y rest =>
      rw [List.append_cons] at h ⊢
      exact h.exchange _

theorem EndsInPausa.substitute (h : EndsInPausa (before ++ x :: after))
    (hsub : sub ≠ 's' ∧ sub ≠ 'r') : EndsInPausa (before ++ sub :: after) := by
  cases after with
  | nil =>
      intro c hc
      rw [List.getLast?_concat] at hc
      cases hc
      exact hsub
  | cons y rest => exact h.exchange_before rfl sub

theorem nasalPair_eq_false {z : Char} (hx : x ≠ 'm' ∧ x ≠ 'n') : Sound.nasalPair x z = false := by
  simp [Sound.nasalPair, hx.1, hx.2]

-- The substitute of a sound is no nasal, and of jhal only if the sound is.
theorem Settled.substitute (h : Settled (before ++ x :: after)) (hnasal : sub ≠ 'm' ∧ sub ≠ 'n')
    (hjhal : SoundClass.jhal.contains sub = true → SoundClass.jhal.contains x = true)
    (hpausa : EndsInPausa (before ++ sub :: after)) : Settled (before ++ sub :: after) := by
  refine ⟨?_, hpausa⟩
  have hpairs : Avoids Sound.nasalPair (before ++ [x] ++ after) := by simpa using h.apart
  suffices Avoids Sound.nasalPair (before ++ [sub] ++ after) by simpa using this
  refine hpairs.exchange (List.cons_ne_nil sub []) (List.isChain_singleton sub)
    (fun w hw c hc => ?_) fun c hc z _ => ?_
  · cases hc
    by_contra hpair
    obtain ⟨hw', hsub⟩ := (Bool.and_eq_true _ _).mp (Bool.not_eq_false _ ▸ hpair)
    have hbefore := h.apart.before_cut hw
    rw [Sound.nasalPair, hw', hjhal hsub] at hbefore
    cases hbefore
  · cases hc
    exact nasalPair_eq_false hnasal

theorem Settled.avoids_foreign (h : t.Settled) : t.Avoids Sound.foreignPair :=
  List.IsChain.imp (fun x y hxy => by rw [Sound.foreignPair, hxy, Bool.false_and]) h.apart

end Text

-- What the nearest sounds of the standard table are, as far as it matters here.
section StandardImages

variable {nearest : SoundMap} {ys : Text}

-- A nasal of another place is nearer to n than any sound of jhal.
theorem image_n (hys : ys ∈ ["S cu~".toList, "z wu~".toList])
    (h : FeatureTable.standard.mapSounds "s tu~".toList ys = .ok nearest) {sub : Char}
    (hsub : nearest.image? 'n' = some sub) : SoundClass.jhal.contains sub = false := by
  have hall : ∀ ys ∈ ["S cu~".toList, "z wu~".toList],
      (FeatureTable.standard.mapSounds "s tu~".toList ys).toOption.all fun nearest =>
        (nearest.image? 'n').all (!SoundClass.jhal.contains ·) := by decide +kernel
  have hnearest := hall ys hys
  rw [h] at hnearest
  have himage : (nearest.image? 'n').all (!SoundClass.jhal.contains ·) = true := hnearest
  rw [hsub] at himage
  exact (Bool.not_eq_true' _).mp himage

-- Nothing but s itself goes over to s.
theorem eq_s_of_image (hys : ys ∈ ["car".toList, "jaS car".toList])
    (h : FeatureTable.standard.mapSounds "Jal".toList ys = .ok nearest) {x : Char}
    (hx : SoundClass.jhal.contains x = true) (hsub : nearest.image? x = some 's') : x = 's' := by
  have hall : ∀ ys ∈ ["car".toList, "jaS car".toList],
      (FeatureTable.standard.mapSounds "Jal".toList ys).toOption.all fun nearest =>
        SoundClass.jhal.sounds.all fun x => nearest.image? x != some 's' || x == 's' := by
    decide +kernel
  have hnearest := hall ys hys
  rw [h] at hnearest
  have himages := List.all_eq_true.mp hnearest x (List.contains_iff_mem.mp hx)
  rw [hsub] at himages
  simpa using himages

end StandardImages

namespace SoundRule

open Text

-- A sound of jhal before another sound goes over to one that is no nasal.
theorem keepsSettled_toNearest {T : FeatureTable} {rule : Rule} {following targets : SoundClass}
    {nearest : SoundMap} (h : T.MapsNearest SoundClass.jhal.sounds targets.sounds nearest)
    (hne : targets.sounds ≠ []) (htargets : ∀ c ∈ targets.sounds, c ≠ 'm' ∧ c ≠ 'n') :
    (toNearest rule following nearest).Keeps Settled :=
  (replaces_toNearest h hne).keeps fun _ _ _ sub ⟨hx, hnext, hmem, _⟩ hsettled =>
    hsettled.substitute (htargets sub hmem) (fun _ => List.contains_iff_mem.mpr hx)
      (hsettled.pausa.exchange_before hnext sub)

theorem keepsSettled_retroflexS : retroflexS.Keeps Settled := by
  refine replaces_retroflexS.keeps ?_
  rintro before x after sub ⟨rfl, rfl⟩ hsettled
  exact hsettled.substitute (by decide) (fun _ => by decide) (hsettled.pausa.substitute (by decide))

theorem keepsSettled_assimilate {T : FeatureTable} {rule : Rule} {group : SoundClass}
    {blocked : Char → Char → Bool} {nearest : SoundMap}
    (h : T.MapsNearest SoundClass.stu.sounds group.sounds nearest) (hne : group.sounds ≠ [])
    (hgroup : ∀ c ∈ group.sounds, (c ≠ 'm' ∧ c ≠ 'n') ∧ c ≠ 's' ∧ c ≠ 'r')
    (hn : ∀ sub, nearest.image? 'n' = some sub → SoundClass.jhal.contains sub = false) :
    (assimilate rule group blocked nearest).Keeps Settled := by
  -- s and the dental stops are of jhal, and n goes over to a nasal.
  have hstu : ∀ c ∈ SoundClass.stu.sounds, c = 'n' ∨ SoundClass.jhal.contains c = true :=
    SoundClass.forall_ofText (by decide)
  refine (replaces_assimilate h hne).keeps fun before x after sub ⟨hx, hmem, hsub⟩ hsettled => ?_
  obtain ⟨hnasal, hpausa⟩ := hgroup sub hmem
  refine hsettled.substitute hnasal (fun hjhal => ?_) (hsettled.pausa.substitute hpausa)
  rcases hstu x hx with rfl | hx
  · cases (hn sub hsub).symm.trans hjhal
  · exact hx

-- Before the nasal of a stop nothing new comes to stand, and the two are savarna.
theorem keepsForeign_anusvaraToNasal :
    anusvaraToNasal.Keeps fun t => t.Avoids Sound.foreignPair ∧ t.EndsInPausa := by
  have hnasals : ∀ y ∈ SoundClass.jhay.sounds, (Sound.nasalOf? y).all (fun c =>
      !SoundClass.jhal.contains c && !Sound.foreignPair c y) = true :=
    SoundClass.forall_ofText (by decide)
  refine replaces_anusvaraToNasal.keeps ?_
  rintro before x after sub ⟨rfl, y, hjhay, hnext, hnasal⟩ ⟨hforeign, hpausa⟩
  have hapart := hnasals y hjhay
  rw [hnasal, Option.all_some, Bool.and_eq_true, Bool.not_eq_true', Bool.not_eq_true'] at hapart
  refine ⟨?_, hpausa.exchange_before (by rw [hnext]; rfl) sub⟩
  have hcut : (before ++ ['M'] ++ after).Avoids Sound.foreignPair := by simpa using hforeign
  suffices Avoids Sound.foreignPair (before ++ [sub] ++ after) by simpa using this
  refine hcut.exchange (List.cons_ne_nil sub []) (List.isChain_singleton sub)
    (fun w _ d hd => ?_) fun d hd z hz => ?_
  · cases hd
    simp [Sound.foreignPair, Sound.nasalPair, hapart.1]
  · cases hd
    cases hnext.symm.trans hz
    exact hapart.2

end SoundRule

namespace Derivation

variable {d : Derivation}

theorem getLast?_replaceFinal (rule : Rule) (final sub : Char) (d : Derivation) :
    (d.replaceFinal rule final sub).text.getLast? =
      d.text.getLast?.map fun x => if x = final then sub else x := by
  rcases List.eq_nil_or_concat d.text with hnil | ⟨front, x, hcut⟩
  · rcases d.replaceFinal_cases rule final sub with heq | ⟨i, hi, -, -⟩
    · rw [heq, hnil]
      rfl
    · obtain ⟨t, -, hheard, before, htext, -⟩ := cut_lastHeard hi
      rw [hnil] at htext
      exact absurd (List.append_eq_nil_iff.mp htext.symm).2 hheard
  · rw [List.concat_eq_append] at hcut
    rw [text_replaceFinal hcut, hcut, List.getLast?_concat, List.getLast?_concat]
    rfl

theorem getLast?_lengthenBeforeRv (d : Derivation) (i : Nat) :
    (d.lengthenBeforeRv i).text.getLast? = d.text.getLast? := by
  rcases d.lengthenBeforeRv_cases i with heq | ⟨root, vowel, _, hroot, -, hvowel, -, -, -, heq⟩
  · rw [heq]
  · obtain ⟨before, after, htext, hupdate⟩ := cut_text hroot
    obtain ⟨init, last, hcut, hset⟩ := Term.cut_upadha hvowel
    have hback (front : Text) : (front ++ last :: after).getLast? = (last :: after).getLast? :=
      List.getLast?_append_of_ne_nil front (List.cons_ne_nil last after)
    have hlong : (d.lengthenBeforeRv i).text =
        (before ++ init ++ (Sound.dirgha? vowel).toList) ++ last :: after := by
      rw [heq, text_alter_of_some hroot, hupdate, hset]
      simp
    have hshort : d.text = (before ++ init ++ [vowel]) ++ last :: after := by
      rw [htext, hcut]
      simp
    rw [hlong, hshort, hback, hback]

theorem finishWord_endsInPausa (d : Derivation) : d.finishWord.text.EndsInPausa := by
  have hlong : ∀ e : Derivation, (e.forEach lengthenBeforeRv).text.getLast? = e.text.getLast? :=
    fun e => forEach_keeps (P := fun c => c.text.getLast? = e.text.getLast?)
      (fun c i hc => (getLast?_lengthenBeforeRv c i).trans hc) rfl
  intro x hx
  rw [finishWord, getLast?_replaceFinal, hlong, getLast?_replaceFinal, Option.map_map] at hx
  obtain ⟨c, -, rfl⟩ := Option.map_eq_some_iff.mp hx
  simp only [Function.comp_apply]
  split_ifs <;> simp_all

-- The sounds before the last one do not count for the first sweeps either.
theorem keepsPausa_toAnusvara : SoundRule.toAnusvara.Keeps Text.EndsInPausa :=
  SoundRule.replaces_toAnusvara.keeps fun _ _ _ sub ⟨_, hnext, _⟩ hpausa =>
    hpausa.exchange_before hnext sub

-- At rest the anusvara stands wherever it can.
theorem anusvara_settles (h : d.text.EndsInPausa) :
    (d.pass .anusvara).Ends (fun e => e.text.Settled ∧ e.background = d.background)
      fun _ => True := by
  rcases d.pass_rests .anusvara with ⟨r, e, hok, hrests, hdone, hkept, -⟩ | ⟨fault, -, hfail, -⟩
  · cases hok
    have hidle := (ConsonantPass.halting_of_rule (p := .anusvara) (T := d.table) rfl).idle
    rw [hdone]
    refine ⟨⟨hrests.avoids hidle fun s x y hx hy hpair => ⟨?_, rfl⟩,
      hrests.keeps hidle keepsPausa_toAnusvara h⟩, hkept⟩
    simpa [SoundRule.toAnusvara, SoundRule.recorded, SoundClass.containsSome, hx, hy,
      Sound.nasalPair] using hpair
  · rw [hfail]
    trivial

theorem ConsonantPass.keepsSettled {p : ConsonantPass} {T : FeatureTable} {r : SoundRule}
    (htable : T = .standard) (hp : p ≠ .throat) (hp' : p ≠ .anusvara) (hp'' : p ≠ .nasal)
    (h : p.rule T = .ok r) : r.Keeps Text.Settled := by
  have hne {w : Text} (hw : w ≠ []) := SoundClass.ofText_ne_nil hw
  cases ConsonantPass.makes_of_rule h with
  | throat => exact absurd rfl hp
  | anusvara => exact absurd rfl hp'
  | nasal => exact absurd rfl hp''
  | suffixS => exact SoundRule.keepsSettled_retroflexS
  | palatal hmap hmaps | retroflex hmap hmaps =>
      exact SoundRule.keepsSettled_assimilate hmaps (hne (by decide))
        (SoundClass.forall_ofText (by decide)) fun _ => image_n (by decide) (htable ▸ hmap)
  | soft _ hmaps | hard _ hmaps =>
      exact SoundRule.keepsSettled_toNearest hmaps (hne (by decide))
        (SoundClass.forall_ofText (by decide))

theorem pass_settled (htable : d.table = .standard) (h : d.text.Settled) {p : ConsonantPass}
    (hp : p ≠ .throat) (hp' : p ≠ .nasal) :
    (d.pass p).Ends (fun e => e.text.Settled ∧ e.background = d.background) fun _ => True := by
  by_cases hanusvara : p = .anusvara
  · rw [hanusvara]
    exact anusvara_settles h.pausa
  · exact pass_keeps (fun r hr => ConsonantPass.keepsSettled htable hp hanusvara hp' hr) h

-- The one substitute that could matter at the end of the word is s, and it is not chosen.
theorem deaspirateCopy_settled (htable : d.table = .standard) (h : d.text.Settled) :
    d.deaspirateCopy.Ends (fun e => e.text.Settled ∧ e.background = d.background)
      fun _ => True := by
  have htargets : ∀ c ∈ (SoundClass.ofText "jbgqdkcwtpSzs".toList).sounds,
      (c ≠ 'm' ∧ c ≠ 'n') ∧ c ≠ 'r' := SoundClass.forall_ofText (by decide)
  rcases d.deaspirateCopy_cases with heq | ⟨fault, -, heq⟩ |
    ⟨i, t, first, sub, nearest, -, ht, hadi, hclass, hok, hsub, hmem, hchanges, heq⟩
  · rw [heq]
    exact ⟨h, rfl⟩
  · rw [heq]
    trivial
  · rw [htable] at hok
    obtain ⟨hnasal, hr⟩ := htargets sub hmem
    have hs : sub ≠ 's' := by
      rintro rfl
      exact hchanges (eq_s_of_image (by decide) hok hclass hsub).symm
    obtain ⟨rest, hcut, hset⟩ := Term.cut_adi hadi
    obtain ⟨before, after, htext, hupdate⟩ := cut_text ht
    have hsettled : Text.Settled (before ++ first :: (rest ++ after)) := by
      rw [htext, hcut] at h
      simpa using h
    have hkept := hsettled.substitute hnasal (fun _ => hclass)
      (hsettled.pausa.substitute ⟨hs, hr⟩)
    rw [heq]
    refine ⟨?_, background_alter _ _ _ _⟩
    rw [text_alter_of_some ht, hupdate, hset]
    simpa using hkept

theorem devoiceFinal_settled (htable : d.table = .standard) (h : d.text.Settled) :
    d.devoiceFinal.Ends (fun e => e.text.Settled) fun _ => True := by
  have htargets : ∀ c ∈ SoundClass.car.sounds, (c ≠ 'm' ∧ c ≠ 'n') ∧ c ≠ 'r' :=
    SoundClass.forall_ofText (by decide)
  rcases d.devoiceFinal_cases with heq | ⟨fault, -, heq⟩ |
    ⟨i, t, final, sub, nearest, hi, ht, hantya, hclass, hok, hsub, hmem, hchanges, heq⟩
  · rw [heq]
    exact h
  · rw [heq]
    trivial
  · rw [htable] at hok
    obtain ⟨hnasal, hr⟩ := htargets sub hmem
    have hs : sub ≠ 's' := by
      rintro rfl
      exact hchanges (eq_s_of_image (by decide) hok hclass hsub).symm
    obtain ⟨u, hu, -, before, htext, hupdate⟩ := cut_lastHeard hi
    cases ht.symm.trans hu
    obtain ⟨init, hcut, hset⟩ := Term.cut_antya hantya
    have hsettled : Text.Settled ((before ++ init) ++ final :: []) := by
      rw [htext, hcut] at h
      simpa using h
    have hkept := hsettled.substitute hnasal (fun _ => hclass)
      (hsettled.pausa.substitute ⟨hs, hr⟩)
    have hchanged : (d.update i (·.setAntya [sub])).text.Settled := by
      rw [hupdate, hset]
      simpa using hkept
    rw [heq]
    rcases optionally_cases "8.4.56" (·.update i (·.setAntya [sub])) d with ⟨-, heq⟩ | ⟨-, heq⟩
    · rw [heq, Outcome.ends_done, text_record]
      exact hchanged
    · rw [heq]
      exact h

-- When the anusvara before a stop has turned into the nasal of the stop, a nasal n or m stands
-- before none but its own stops.
theorem nasal_meets (h : d.text.Settled) :
    (d.pass .nasal).Ends (fun e => e.text.Avoids Sound.anusvaraPair ∧
      e.text.Avoids Sound.foreignPair ∧ e.text.EndsInPausa) fun _ => True := by
  rcases d.pass_rests .nasal with ⟨r, e, hok, hrests, hdone, -⟩ | ⟨fault, -, hfail, -⟩
  · cases hok
    have hidle := (ConsonantPass.halting_of_rule (p := .nasal) (T := d.table) rfl).idle
    rw [hdone]
    refine ⟨hrests.avoids hidle fun s x y hx hy hpair => ⟨?_, rfl⟩,
      hrests.keeps hidle SoundRule.keepsForeign_anusvaraToNasal ⟨h.avoids_foreign, h.pausa⟩⟩
    simpa [SoundRule.anusvaraToNasal, SoundRule.recorded, SoundClass.containsSome, hx, hy,
      Sound.anusvaraPair] using hpair
  · rw [hfail]
    trivial

theorem joinConsonants_settles (htable : d.table = .standard) :
    d.joinConsonants.Ends (fun e => e.text.Avoids Sound.anusvaraPair ∧
      e.text.Avoids Sound.foreignPair ∧ e.text.EndsInPausa) fun _ => True := by
  have hthroat : (d.dropFinalOfCluster.pass .throat).Ends (fun e => e.table = .standard)
      fun _ => True := by
    refine (pass_keeps (P := fun _ => True) (fun _ _ _ _ _ _ => trivial) trivial).imp
      (fun e he => ?_) fun _ h => h
    rw [table_eq_of_background he.2, table_eq_of_background (alters_dropFinalOfCluster d).background]
    exact htable
  have hfinish := hthroat.map (Q := fun e => e.text.EndsInPausa ∧ e.table = .standard) finishWord
    fun e he => ⟨finishWord_endsInPausa e,
      (table_eq_of_background (alters_finishWord e).background).trans he⟩
  have hopening := hfinish.andThen (Q := fun e => e.text.Settled ∧ e.table = .standard)
    (pass .anusvara) fun e he => (anusvara_settles he.1).imp
      (fun f hf => ⟨hf.1, (table_eq_of_background hf.2).trans he.2⟩) fun _ h => h
  refine joinConsonants_ends_of hopening (fun p e hp hp' he => ?_) (fun e he => ?_)
    (fun e he => devoiceFinal_settled he.2 he.1) fun e he => nasal_meets he
  · exact (pass_settled he.2 he.1 hp hp').imp
      (fun f hf => ⟨hf.1, (table_eq_of_background hf.2).trans he.2⟩) fun _ h => h
  · exact (deaspirateCopy_settled he.2 he.1).imp
      (fun f hf => ⟨hf.1, (table_eq_of_background hf.2).trans he.2⟩) fun _ h => h

theorem joinConsonants_done (htable : d.table = .standard) : ∃ e, d.joinConsonants = .done e := by
  have hends := joinConsonants_ends (List.mem_singleton_self "8.4.56") d
  rw [htable] at hends
  have hdone := hends.imp (Q := fun _ => True) (G := fun _ => False) (fun _ _ => trivial)
    fun fault hlacks => FeatureTable.not_lacks_standard (by decide) hlacks
  obtain ⟨e, he, -⟩ := hdone.exists_done
  exact ⟨e, he⟩

-- With the standard table the consonants are always joined. Then no anusvara stands before a stop,
-- n and m stand before no sound of jhal but those of their own place, and the word ends neither in s
-- nor in r.
theorem joinConsonants_leaves_no_foreign_nasal (htable : d.table = .standard) :
    ∃ e, d.joinConsonants = .done e ∧
      (∀ before y after, e.text = before ++ 'M' :: y :: after →
        SoundClass.jhay.contains y = false) ∧
      (∀ before x y after, e.text = before ++ x :: y :: after → x = 'n' ∨ x = 'm' →
        SoundClass.jhal.contains y = true → (Sound.savarna x).contains y = true) ∧
      e.text.getLast? ≠ some 's' ∧ e.text.getLast? ≠ some 'r' := by
  obtain ⟨e, hdone⟩ := joinConsonants_done htable
  have hsettles := joinConsonants_settles htable
  rw [hdone] at hsettles
  obtain ⟨hanusvara, hforeign, hpausa⟩ := hsettles
  refine ⟨e, hdone, fun before y after htext => ?_, fun before x y after htext hx hy => ?_, ?_, ?_⟩
  · have hpair := Text.avoids_iff.mp hanusvara before 'M' y after htext
    rwa [Sound.anusvaraPair, beq_self_eq_true, Bool.true_and] at hpair
  · have hpair := Text.avoids_iff.mp hforeign before x y after htext
    have hnasal : "mn".toList.contains x = true := by
      rcases hx with rfl | rfl <;> decide
    rw [Sound.foreignPair, Sound.nasalPair, hnasal, hy, Bool.and_self, Bool.true_and] at hpair
    exact (Bool.not_eq_false' _).mp hpair
  · exact fun hlast => (hpausa 's' hlast).1 rfl
  · exact fun hlast => (hpausa 'r' hlast).2 rfl

-- The root gam and the ending tas, side by side.
def gamtas : Derivation :=
  { start [] false .standard with terms := [.ofText "gam".toList, .ofText "tas".toList] }

-- The m goes over to the nasal of t, and the s to the visarga.
theorem gamtas_joins_to_gantaH :
    gamtas.table = .standard ∧ ∃ e, gamtas.joinConsonants = .done e ∧ e.text = "gantaH".toList ∧
      (∀ before x y after, e.text = before ++ x :: y :: after → x = 'n' ∨ x = 'm' →
        SoundClass.jhal.contains y = true → (Sound.savarna x).contains y = true) ∧
      e.text.getLast? ≠ some 's' := by
  have htable : gamtas.table = .standard := rfl
  obtain ⟨e, hdone, -, hforeign, hs, -⟩ := joinConsonants_leaves_no_foreign_nasal htable
  have htext : gamtas.joinConsonants.left.text = "gantaH".toList := by decide +kernel
  rw [hdone] at htext
  exact ⟨htable, e, hdone, htext, hforeign, hs⟩

end Derivation

end Vyakarana
