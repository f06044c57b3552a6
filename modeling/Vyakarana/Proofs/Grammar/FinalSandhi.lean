import Vyakarana.Proofs.Derivation.Rest
import Vyakarana.Proofs.Grammar.ConsonantRules

/-!
The last three chapters come to an end, from every derivation and over every table.

The sweeps among them are listed as `ConsonantPass`. A pass looks up the sounds that it needs,
and if the table has them all it comes to rest within its limit.
-/

namespace Vyakarana

namespace SoundClass

-- S and the palatals, z and the retroflexes, and the soft stops without breath.
def palatals : SoundClass := ofText "cCjJYS".toList
def retroflexes : SoundClass := ofText "wWqQRz".toList
def jash : SoundClass := ofText "jbgqd".toList

-- The sounds that the last chapters substitute, or put in the place of others.
def substituted : SoundClass := ofText "kKgGNcCjJYwWqQRtTdDnpPbBSzsh".toList

theorem decode_cu : decode "cu~".toList = .ok Sound.cu := by rfl
theorem decode_ku : decode "ku~".toList = .ok Sound.ku := by rfl
theorem decode_stu : decode "s tu~".toList = .ok stu := by rfl
theorem decode_palatals : decode "S cu~".toList = .ok palatals := by rfl
theorem decode_retroflexes : decode "z wu~".toList = .ok retroflexes := by rfl
theorem decode_jhal : decode "Jal".toList = .ok jhal := by rfl
theorem decode_jash : decode "jaS".toList = .ok jash := by rfl
theorem decode_car : decode "car".toList = .ok car := by rfl
theorem decode_jashCar : decode "jaS car".toList = .ok (ofText "jbgqdkcwtpSzs".toList) := by rfl

-- What two texts have together is read off the texts, not off the sorted classes.
theorem mem_ofText_of_append {u v w : Text} (h : ∀ c ∈ v ++ w, c ∈ u) :
    ∀ c ∈ (ofText v).sounds ++ (ofText w).sounds, c ∈ (ofText u).sounds := by
  intro c hc
  rw [List.mem_append, mem_ofText, mem_ofText, ← List.mem_append] at hc
  exact mem_ofText.mpr (h c hc)

end SoundClass

-- A sound of the list is missing from the table.
def FeatureTable.Lacks (T : FeatureTable) (sounds : List Char) (fault : Fault) : Prop :=
  ∃ c ∈ sounds, T.features? c = none ∧ fault = .noFeatures [c]

theorem FeatureTable.Lacks.mono {T : FeatureTable} {xs ys : List Char} {fault : Fault}
    (h : T.Lacks xs fault) (hsub : ∀ c ∈ xs, c ∈ ys) : T.Lacks ys fault := by
  obtain ⟨c, hc, hnone, hfault⟩ := h
  exact ⟨c, hsub c hc, hnone, hfault⟩

theorem FeatureTable.Lacks.not_covers {T : FeatureTable} {sounds : List Char} {fault : Fault}
    (h : T.Lacks sounds fault) : ¬T.Covers sounds := by
  obtain ⟨c, hc, hnone, -⟩ := h
  exact fun hcovers => hcovers c hc hnone

theorem FeatureTable.mapSounds_cases (T : FeatureTable) {xs ys : Text}
    {sources targets : SoundClass} (hx : SoundClass.decode xs = .ok sources)
    (hy : SoundClass.decode ys = .ok targets) (hne : sources.sounds ≠ []) :
    (∃ nearest, T.mapSounds xs ys = .ok nearest ∧
      T.MapsNearest sources.sounds targets.sounds nearest ∧
      T.Covers (sources.sounds ++ targets.sounds)) ∨
    ∃ fault, T.mapSounds xs ys = .error fault ∧
      T.Lacks (sources.sounds ++ targets.sounds) fault := by
  rw [T.mapSounds_eq hx hy]
  rcases T.nearestMap_cases sources targets with ⟨nearest, hok, hmaps, -⟩ | ⟨c, hc, herror⟩
  · exact .inl ⟨nearest, hok, hmaps, hmaps.covers_all hne⟩
  · obtain ⟨hmem, hnone⟩ := FeatureTable.mem_of_search hc
    exact .inr ⟨_, herror, c, hmem, hnone, rfl⟩

theorem FeatureTable.mapsNearest_of_mapSounds {T : FeatureTable} {xs ys : Text}
    {sources targets : SoundClass} (hx : SoundClass.decode xs = .ok sources)
    (hy : SoundClass.decode ys = .ok targets) (hne : sources.sounds ≠ []) {images : SoundMap}
    (h : T.mapSounds xs ys = .ok images) :
    T.MapsNearest sources.sounds targets.sounds images := by
  rcases T.mapSounds_cases hx hy hne with ⟨nearest, hok, hmaps, -⟩ | ⟨fault, herror, -⟩
  · rw [hok] at h
    cases h
    exact hmaps
  · rw [herror] at h
    cases h

theorem FeatureTable.lacks_of_mapSounds {T : FeatureTable} {xs ys : Text}
    {sources targets : SoundClass} (hx : SoundClass.decode xs = .ok sources)
    (hy : SoundClass.decode ys = .ok targets) (hne : sources.sounds ≠ []) {fault : Fault}
    (h : T.mapSounds xs ys = .error fault) :
    T.Lacks (sources.sounds ++ targets.sounds) fault := by
  rcases T.mapSounds_cases hx hy hne with ⟨nearest, hok, -, -⟩ | ⟨fault', herror, hlacks⟩
  · cases hok.symm.trans h
  · cases herror.symm.trans h
    exact hlacks

-- The sweeps of the last three chapters, in their order.
inductive ConsonantPass
  | throat | anusvara | suffixS | palatal | retroflex | soft | hard | nasal
deriving DecidableEq

namespace ConsonantPass

def rule (T : FeatureTable) : ConsonantPass → Except Fault SoundRule
  | .throat => (T.mapSounds "cu~".toList "ku~".toList).map .cuToKu
  | .anusvara => .ok .toAnusvara
  | .suffixS => .ok .retroflexS
  | .palatal => (T.mapSounds "s tu~".toList "S cu~".toList).map
      (.assimilate "8.4.40" .palatals fun x _ => x == 'S')
  | .retroflex => (T.mapSounds "s tu~".toList "z wu~".toList).map
      (.assimilate "8.4.41" .retroflexes fun x y => y == 'z' && Sound.tu.contains x)
  | .soft => (T.mapSounds "Jal".toList "jaS".toList).map (.toNearest "8.4.53" .jhash)
  | .hard => (T.mapSounds "Jal".toList "car".toList).map (.toNearest "8.4.55" .khar)
  | .nasal => .ok .anusvaraToNasal

-- The rule of a pass over a table, with the nearest sounds that it was made from.
inductive Makes (T : FeatureTable) : ConsonantPass → SoundRule → Prop
  | throat {nearest : SoundMap} (hmap : T.mapSounds "cu~".toList "ku~".toList = .ok nearest)
      (h : T.MapsNearest Sound.cu.sounds Sound.ku.sounds nearest) :
      Makes T .throat (.cuToKu nearest)
  | anusvara : Makes T .anusvara .toAnusvara
  | suffixS : Makes T .suffixS .retroflexS
  | palatal {nearest : SoundMap} (hmap : T.mapSounds "s tu~".toList "S cu~".toList = .ok nearest)
      (h : T.MapsNearest SoundClass.stu.sounds SoundClass.palatals.sounds nearest) :
      Makes T .palatal (.assimilate "8.4.40" .palatals (fun x _ => x == 'S') nearest)
  | retroflex {nearest : SoundMap} (hmap : T.mapSounds "s tu~".toList "z wu~".toList = .ok nearest)
      (h : T.MapsNearest SoundClass.stu.sounds SoundClass.retroflexes.sounds nearest) :
      Makes T .retroflex (.assimilate "8.4.41" .retroflexes
        (fun x y => y == 'z' && Sound.tu.contains x) nearest)
  | soft {nearest : SoundMap} (hmap : T.mapSounds "Jal".toList "jaS".toList = .ok nearest)
      (h : T.MapsNearest SoundClass.jhal.sounds SoundClass.jash.sounds nearest) :
      Makes T .soft (.toNearest "8.4.53" .jhash nearest)
  | hard {nearest : SoundMap} (hmap : T.mapSounds "Jal".toList "car".toList = .ok nearest)
      (h : T.MapsNearest SoundClass.jhal.sounds SoundClass.car.sounds nearest) :
      Makes T .hard (.toNearest "8.4.55" .khar nearest)
  | nasal : Makes T .nasal .anusvaraToNasal

-- How many substitutes the rule of a pass chooses from.
def targets : ConsonantPass → Nat
  | .throat | .soft => 5
  | .palatal | .retroflex => 6
  | .hard => 8
  | .anusvara | .suffixS | .nasal => 1

-- The sounds whose articulations are looked up for the rule of a pass.
def needs : ConsonantPass → List Char
  | .throat => Sound.cu.sounds ++ Sound.ku.sounds
  | .palatal => SoundClass.stu.sounds ++ SoundClass.palatals.sounds
  | .retroflex => SoundClass.stu.sounds ++ SoundClass.retroflexes.sounds
  | .soft => SoundClass.jhal.sounds ++ SoundClass.jash.sounds
  | .hard => SoundClass.jhal.sounds ++ SoundClass.car.sounds
  | .anusvara | .suffixS | .nasal => []

theorem mem_substituted_of_mem_needs (p : ConsonantPass) :
    ∀ c ∈ p.needs, c ∈ SoundClass.substituted.sounds := by
  cases p with
  | anusvara | suffixS | nasal => exact List.forall_mem_nil _
  | throat | palatal | retroflex | soft | hard =>
      exact SoundClass.mem_ofText_of_append (by decide)

-- A rule that comes to rest, with what it uses up.
structure Halting (p : ConsonantPass) (r : SoundRule) : Prop where
  spends : ∃ w, r.Spends w ∧ ∀ c, w c ≤ p.targets + 1
  keeps : r.KeepsBackground

theorem halting_of_marks {p : ConsonantPass} {r : SoundRule} {C : SoundClass}
    (h : r.Spends C.marks) (hr : r.KeepsBackground) : p.Halting r where
  spends := ⟨C.marks, h, fun c => (C.marks_le c).trans (by omega)⟩
  keeps := hr

theorem halting_toNearest {p : ConsonantPass} {T : FeatureTable} {rule : Rule}
    {following targets : SoundClass} {nearest : SoundMap}
    (h : T.MapsNearest SoundClass.jhal.sounds targets.sounds nearest)
    (htargets : targets.sounds.length = p.targets) (hne : targets.sounds ≠ [])
    (hr : (SoundRule.toNearest rule following nearest).KeepsBackground) :
    p.Halting (.toNearest rule following nearest) where
  spends := by
    refine ⟨T.ahead targets.sounds, SoundRule.spends_toNearest h hne, fun c => ?_⟩
    have hle := T.ahead_le targets.sounds c
    omega
  keeps := hr

-- The rule of a pass can be set up, unless the table lacks a sound for it.
def Settles (p : ConsonantPass) (T : FeatureTable) : Prop :=
  (∃ r, p.rule T = .ok r ∧ p.Makes T r ∧ T.Covers p.needs) ∨
    ∃ fault, p.rule T = .error fault ∧ T.Lacks p.needs fault

theorem settles_of_nearest {p : ConsonantPass} {T : FeatureTable} {xs ys : Text}
    {sources targets : SoundClass} {make : SoundMap → SoundRule}
    (hx : SoundClass.decode xs = .ok sources) (hy : SoundClass.decode ys = .ok targets)
    (hne : sources.sounds ≠ []) (hrule : p.rule T = (T.mapSounds xs ys).map make)
    (hneeds : p.needs = sources.sounds ++ targets.sounds)
    (hmake : ∀ nearest, T.mapSounds xs ys = .ok nearest →
      T.MapsNearest sources.sounds targets.sounds nearest → p.Makes T (make nearest)) :
    p.Settles T := by
  unfold Settles
  rw [hrule, hneeds]
  rcases T.mapSounds_cases hx hy hne with ⟨nearest, hok, hmaps, hcovers⟩ | ⟨fault, herror, hlacks⟩
  · have hmade := hmake nearest hok hmaps
    rw [hok]
    exact .inl ⟨make nearest, rfl, hmade, hcovers⟩
  · rw [herror]
    exact .inr ⟨fault, rfl, hlacks⟩

theorem settles_of_ok {p : ConsonantPass} {T : FeatureTable} {r : SoundRule}
    (hrule : p.rule T = .ok r) (hneeds : p.needs = []) (hr : p.Makes T r) : p.Settles T := by
  refine .inl ⟨r, hrule, hr, ?_⟩
  rw [hneeds]
  exact fun c hc => absurd hc List.not_mem_nil

theorem settles (p : ConsonantPass) (T : FeatureTable) : p.Settles T := by
  have hne {w : Text} (hw : w ≠ []) := SoundClass.ofText_ne_nil hw
  cases p with
  | throat =>
      exact settles_of_nearest SoundClass.decode_cu SoundClass.decode_ku (by decide) rfl rfl
        fun _ => .throat
  | anusvara => exact settles_of_ok rfl rfl .anusvara
  | suffixS => exact settles_of_ok rfl rfl .suffixS
  | palatal =>
      exact settles_of_nearest SoundClass.decode_stu SoundClass.decode_palatals (hne (by decide))
        rfl rfl fun _ => .palatal
  | retroflex =>
      exact settles_of_nearest SoundClass.decode_stu SoundClass.decode_retroflexes
        (hne (by decide)) rfl rfl fun _ => .retroflex
  | soft =>
      exact settles_of_nearest SoundClass.decode_jhal SoundClass.decode_jash (hne (by decide))
        rfl rfl fun _ => .soft
  | hard =>
      exact settles_of_nearest SoundClass.decode_jhal SoundClass.decode_car (hne (by decide))
        rfl rfl fun _ => .hard
  | nasal => exact settles_of_ok rfl rfl .nasal

theorem makes_of_rule {p : ConsonantPass} {T : FeatureTable} {r : SoundRule}
    (h : p.rule T = .ok r) : p.Makes T r := by
  rcases p.settles T with ⟨r', hok, hr, -⟩ | ⟨fault, herror, -⟩
  · cases hok.symm.trans h
    exact hr
  · cases herror.symm.trans h

-- The numbers of the rules of the passes.
def numbers : List Rule :=
  ["8.2.30", "8.3.24", "8.3.59", "8.4.40", "8.4.41", "8.4.53", "8.4.55", "8.4.58"]

theorem Makes.exchanges {p : ConsonantPass} {T : FeatureTable} {r : SoundRule} (h : p.Makes T r) :
    r.Exchanges (Substitutes numbers) := by
  have hnearest {sources : List Char} {targets : SoundClass} {nearest : SoundMap}
      (hmaps : T.MapsNearest sources targets.sounds nearest)
      (htargets : ∀ c ∈ targets.sounds, c ∈ Sound.alphabet) {rule : Rule} (hrule : rule ∈ numbers)
      (o : Option Char) : Substitutes numbers rule (o.bind nearest.image?).toList :=
    ⟨hrule, (hmaps.spoken htargets).image o⟩
  cases h with
  | throat _ h =>
      exact SoundRule.exchanges_replace fun s => hnearest h (by decide) (by decide) s.here?
  | anusvara | suffixS => exact SoundRule.exchanges_replace fun s => ⟨by decide, by decide⟩
  | palatal _ h | retroflex _ h =>
      exact SoundRule.exchanges_assimilate
        (hnearest h (SoundClass.forall_ofText (by decide)) (by decide)) _ _
  | soft _ h | hard _ h =>
      exact SoundRule.exchanges_replace fun s =>
        hnearest h (SoundClass.forall_ofText (by decide)) (by decide) s.here?
  | nasal => exact SoundRule.exchanges_replace fun s => ⟨by decide, Sound.spoken_nasalOf s.next?⟩

theorem exchanges_of_rule {p : ConsonantPass} {T : FeatureTable} {r : SoundRule}
    (h : p.rule T = .ok r) : r.Exchanges (Substitutes numbers) :=
  (makes_of_rule h).exchanges

theorem Makes.halting {p : ConsonantPass} {T : FeatureTable} {r : SoundRule} (h : p.Makes T r) :
    p.Halting r := by
  have hne {w : Text} (hw : w ≠ []) := SoundClass.ofText_ne_nil hw
  have hkeeps := h.exchanges.keepsBackground
  cases h with
  | throat _ h => exact halting_of_marks (SoundRule.spends_cuToKu h) hkeeps
  | anusvara => exact halting_of_marks SoundRule.spends_toAnusvara hkeeps
  | suffixS => exact halting_of_marks SoundRule.spends_retroflexS hkeeps
  | palatal _ h | retroflex _ h =>
      exact halting_of_marks
        (SoundRule.spends_assimilate h (hne (by decide)) (SoundClass.forall_ofText (by decide)))
        hkeeps
  | soft _ h | hard _ h => exact halting_toNearest h (by decide) (hne (by decide)) hkeeps
  | nasal => exact halting_of_marks SoundRule.spends_anusvaraToNasal hkeeps

theorem halting_of_rule {p : ConsonantPass} {T : FeatureTable} {r : SoundRule}
    (h : p.rule T = .ok r) : p.Halting r :=
  (makes_of_rule h).halting

theorem Halting.idle {p : ConsonantPass} {r : SoundRule} (h : p.Halting r) : r.Idle := by
  obtain ⟨w, hspends, -⟩ := h.spends
  exact hspends.idle

end ConsonantPass

namespace Derivation

def pass (p : ConsonantPass) (d : Derivation) : Outcome :=
  match p.rule d.table with
  | .ok r => d.sweepSounds r p.targets
  | .error fault => .failed fault d

-- A pass comes to rest, unless the table lacks a sound that it needs.
theorem pass_rests (p : ConsonantPass) (d : Derivation) :
    (∃ r e, p.rule d.table = .ok r ∧ r.Rests d e ∧ d.pass p = .done e ∧
      e.background = d.background ∧ d.table.Covers p.needs) ∨
    ∃ fault, p.rule d.table = .error fault ∧ d.pass p = .failed fault d ∧
      d.table.Lacks p.needs fault := by
  unfold pass
  rcases p.settles d.table with ⟨r, hok, hr, hcovers⟩ | ⟨fault, herror, hlacks⟩
  · obtain ⟨w, hspends, hbound⟩ := hr.halting.spends
    obtain ⟨e, hdone, hrests⟩ := hspends.sweep_rests (Text.weight_le w hbound d.text)
    rw [hok]
    exact .inl ⟨r, e, rfl, hrests, hdone, hrests.background hr.halting.keeps, hcovers⟩
  · rw [herror]
    exact .inr ⟨fault, rfl, rfl, hlacks⟩

theorem withNearest_eq_pass (p : ConsonantPass) {xs ys : Text} {make : SoundMap → SoundRule}
    (h : ∀ T, p.rule T = (T.mapSounds xs ys).map make) (d : Derivation) :
    (d.withNearest xs ys fun nearest => sweepSounds (make nearest) p.targets) = d.pass p := by
  unfold withNearest pass
  rw [h]
  cases d.table.mapSounds xs ys <;> rfl

-- The rules for the end of the word, between the first sweep and the others.
def finishWord (d : Derivation) : Derivation :=
  ((d.replaceFinal "8.2.66" 's' 'r').forEach lengthenBeforeRv).replaceFinal "8.3.15" 'r' 'H'

theorem joinConsonants_eq (d : Derivation) :
    d.joinConsonants =
      ((d.dropFinalOfCluster.pass .throat).map finishWord
      |>.andThen (pass .anusvara)
      |>.andThen (pass .suffixS)
      |>.andThen (pass .palatal)
      |>.andThen (pass .retroflex)
      |>.andThen (pass .soft)
      |>.andThen deaspirateCopy
      |>.andThen (pass .hard)
      |>.andThen devoiceFinal
      |>.andThen (pass .nasal)) := by
  have hpalatal : assimilateToPalatals = pass .palatal :=
    funext (withNearest_eq_pass .palatal fun T => rfl)
  have hretroflex : assimilateToRetroflexes = pass .retroflex :=
    funext (withNearest_eq_pass .retroflex fun T => rfl)
  have hsoft : (withNearest "Jal".toList "jaS".toList fun nearest =>
      sweepSounds (.toNearest "8.4.53" .jhash nearest) 5) = pass .soft :=
    funext (withNearest_eq_pass .soft fun T => rfl)
  have hhard : (withNearest "Jal".toList "car".toList fun nearest =>
      sweepSounds (.toNearest "8.4.55" .khar nearest) 8) = pass .hard :=
    funext (withNearest_eq_pass .hard fun T => rfl)
  unfold joinConsonants
  rw [hpalatal, hretroflex, hsoft, hhard]
  rw [show (d.dropFinalOfCluster.withNearest "cu~".toList "ku~".toList fun nearest =>
    sweepSounds (.cuToKu nearest) 5) = d.dropFinalOfCluster.pass .throat from
      withNearest_eq_pass .throat (fun T => rfl) _]
  rfl

-- What the rules do one after the other: `P` from the anusvara on to the last of the hard stops, `Q`
-- of the finished word, `R` when the anusvara has met its stop.
theorem joinConsonants_ends_of {d : Derivation} {P Q R : Derivation → Prop} {F : Fault → Prop}
    (hopening : (((d.dropFinalOfCluster.pass .throat).map finishWord).andThen
      (pass .anusvara)).Ends P F)
    (hpass : ∀ p e, p ≠ .throat → p ≠ .nasal → P e → (e.pass p).Ends P F)
    (hcopy : ∀ e, P e → e.deaspirateCopy.Ends P F)
    (hfinal : ∀ e, P e → e.devoiceFinal.Ends Q F)
    (hnasal : ∀ e, Q e → (e.pass .nasal).Ends R F) : d.joinConsonants.Ends R F := by
  have hsuffix := hopening.andThen (pass .suffixS) fun e => hpass .suffixS e (by decide) (by decide)
  have hpalatal := hsuffix.andThen (pass .palatal) fun e => hpass .palatal e (by decide) (by decide)
  have hretroflex := hpalatal.andThen (pass .retroflex) fun e =>
    hpass .retroflex e (by decide) (by decide)
  have hsoft := hretroflex.andThen (pass .soft) fun e => hpass .soft e (by decide) (by decide)
  have hhard := (hsoft.andThen deaspirateCopy hcopy).andThen (pass .hard) fun e =>
    hpass .hard e (by decide) (by decide)
  rw [joinConsonants_eq]
  exact (hhard.andThen devoiceFinal hfinal).andThen (pass .nasal) hnasal

-- What the rules for single terms can do: nothing, or one change at the term that they are about.
section SingleTerms

variable (d : Derivation)

theorem dropFinalOfCluster_cases :
    (d.lastHeard? = none ∨ Sound.isSamyoganta d.text = false) ∧ d.dropFinalOfCluster = d ∨
    ∃ i, d.lastHeard? = some i ∧ Sound.isSamyoganta d.text = true ∧
      d.dropFinalOfCluster = d.alter "8.2.23" i (·.setAntya []) := by
  unfold dropFinalOfCluster
  rcases hi : d.lastHeard? with _ | i
  · exact .inl ⟨.inl rfl, rfl⟩
  · by_cases hcluster : Sound.isSamyoganta d.text = true
    · exact .inr ⟨i, rfl, hcluster, if_pos hcluster⟩
    · exact .inl ⟨.inr (Bool.eq_false_iff.mpr hcluster), if_neg hcluster⟩

theorem replaceFinal_cases (rule : Rule) (final sub : Char) :
    d.replaceFinal rule final sub = d ∨
    ∃ i, d.lastHeard? = some i ∧ d.has i (·.antya? == some final) = true ∧
      d.replaceFinal rule final sub = d.alter rule i (·.setAntya [sub]) := by
  unfold replaceFinal
  rcases hi : d.lastHeard? with _ | i
  · exact .inl rfl
  · by_cases hfinal : d.has i (·.antya? == some final) = true
    · exact .inr ⟨i, rfl, hfinal, if_pos hfinal⟩
    · exact .inl (if_neg hfinal)

theorem lengthenBeforeRv_cases (i : Nat) :
    d.lengthenBeforeRv i = d ∨
    ∃ root vowel next, d.terms[i]? = some root ∧ root.hasTag .dhatu = true ∧
      root.upadha? = some vowel ∧ SoundClass.ik.contains vowel = true ∧
      Sound.isHrasva vowel = true ∧ d.nextAfter? i (!·.isEmpty) = some next ∧
      d.lengthenBeforeRv i = d.alter "8.2.77" i (·.setUpadha (Sound.dirgha? vowel).toList) := by
  unfold lengthenBeforeRv
  split
  · exact .inl rfl
  · rename_i root hroot
    split
    · exact .inl rfl
    · rename_i hkind
      split
      · exact .inl rfl
      · rename_i vowel hvowel
        split
        · exact .inl rfl
        · rename_i hshort
          split
          · exact .inl rfl
          · rename_i next hnext
            split
            · simp only [Bool.or_eq_true, Bool.not_eq_true', not_or, Bool.not_eq_false]
                at hkind hshort
              exact .inr ⟨root, vowel, next, hroot, hkind.1, hvowel, hshort.1, hshort.2, hnext, rfl⟩
            · exact .inl rfl

-- What is done with the sound of `ys` nearest to `x`, where that is another sound.
theorem withNearest_cases {ys : Text} {targets : SoundClass}
    (hy : SoundClass.decode ys = .ok targets) (x : Char) (change : Char → Derivation)
    {next : SoundMap → Derivation → Outcome}
    (hnext : ∀ nearest, next nearest d =
      (nearest.image? x).elim (.done d) fun sub => .done (if sub = x then d else change sub)) :
    d.withNearest "Jal".toList ys next = .done d ∨
    (∃ fault, d.table.mapSounds "Jal".toList ys = .error fault ∧
      d.withNearest "Jal".toList ys next = .failed fault d) ∨
    ∃ sub nearest, d.table.mapSounds "Jal".toList ys = .ok nearest ∧ nearest.image? x = some sub ∧
      sub ∈ targets.sounds ∧ sub ≠ x ∧
      d.withNearest "Jal".toList ys next = .done (change sub) := by
  unfold withNearest
  rcases hmap : d.table.mapSounds "Jal".toList ys with fault | nearest
  · exact .inr (.inl ⟨fault, rfl, rfl⟩)
  · dsimp only
    rw [hnext]
    rcases hsub : nearest.image? x with _ | sub
    · exact .inl rfl
    · by_cases hsame : sub = x
      · exact .inl (congrArg Outcome.done (if_pos hsame))
      · have hmaps := FeatureTable.mapsNearest_of_mapSounds SoundClass.decode_jhal hy
          (SoundClass.ofText_ne_nil (by decide)) hmap
        exact .inr (.inr ⟨sub, nearest, rfl, hsub, (hmaps.nearest x sub hsub).mem, hsame,
          congrArg Outcome.done (if_neg hsame)⟩)

theorem deaspirateCopy_cases :
    d.deaspirateCopy = .done d ∨
    (∃ fault, d.table.mapSounds "Jal".toList "jaS car".toList = .error fault ∧
      d.deaspirateCopy = .failed fault d) ∨
    ∃ i t first sub nearest, d.firstTagged? .abhyasa = some i ∧ d.terms[i]? = some t ∧
      t.adi? = some first ∧ SoundClass.jhal.contains first = true ∧
      d.table.mapSounds "Jal".toList "jaS car".toList = .ok nearest ∧
      nearest.image? first = some sub ∧ sub ∈ (SoundClass.ofText "jbgqdkcwtpSzs".toList).sounds ∧
      sub ≠ first ∧
      d.deaspirateCopy = .done (d.alter "8.4.54" i (·.substituteAdi [sub])) := by
  unfold deaspirateCopy
  split
  · exact .inl rfl
  · rename_i i hi
    split
    · exact .inl rfl
    · rename_i first hfirst
      split
      · exact .inl rfl
      · rename_i hclass
        have hjhal : SoundClass.jhal.contains first = true := by simpa using hclass
        obtain ⟨t, ht, hadi⟩ := Option.bind_eq_some_iff.mp hfirst
        refine (d.withNearest_cases SoundClass.decode_jashCar first
          (fun sub => d.alter "8.4.54" i (·.substituteAdi [sub])) fun nearest => ?_).imp_right
            (Or.imp_right ?_)
        · cases nearest.image? first <;> rfl
        · rintro ⟨sub, nearest, hok, hsub, hmem, hmove, heq⟩
          exact ⟨i, t, first, sub, nearest, hi, ht, hadi, hjhal, hok, hsub, hmem, hmove, heq⟩

theorem devoiceFinal_cases :
    d.devoiceFinal = .done d ∨
    (∃ fault, d.table.mapSounds "Jal".toList "car".toList = .error fault ∧
      d.devoiceFinal = .failed fault d) ∨
    ∃ i t final sub nearest, d.lastHeard? = some i ∧ d.terms[i]? = some t ∧
      t.antya? = some final ∧ SoundClass.jhal.contains final = true ∧
      d.table.mapSounds "Jal".toList "car".toList = .ok nearest ∧
      nearest.image? final = some sub ∧ sub ∈ SoundClass.car.sounds ∧ sub ≠ final ∧
      d.devoiceFinal = .done (d.optionally "8.4.56" (·.update i (·.setAntya [sub]))).2 := by
  unfold devoiceFinal
  split
  · exact .inl rfl
  · rename_i i hi
    split
    · exact .inl rfl
    · rename_i final hfinal
      split
      · exact .inl rfl
      · rename_i hclass
        have hjhal : SoundClass.jhal.contains final = true := by simpa using hclass
        obtain ⟨t, ht, hantya⟩ := Option.bind_eq_some_iff.mp hfinal
        refine (d.withNearest_cases SoundClass.decode_car final
          (fun sub => (d.optionally "8.4.56" (·.update i (·.setAntya [sub]))).2)
            fun nearest => ?_).imp_right (Or.imp_right ?_)
        · cases nearest.image? final <;> rfl
        · rintro ⟨sub, nearest, hok, hsub, hmem, hmove, heq⟩
          exact ⟨i, t, final, sub, nearest, hi, ht, hantya, hjhal, hok, hsub, hmem, hmove, heq⟩

end SingleTerms

-- 8.2.23 to 8.4.54, where they alter a term: the end of the word, a vowel before r or v, the copy.
inductive FinishingChange : Rule → (Term → Term) → Prop
  | clusterReduced : FinishingChange "8.2.23" (·.setAntya [])
  | rForS : FinishingChange "8.2.66" (·.setAntya ['r'])
  | visarga : FinishingChange "8.3.15" (·.setAntya ['H'])
  | longVowel (vowel : Char) : FinishingChange "8.2.77" (·.setUpadha (Sound.dirgha? vowel).toList)
  | plainCopy {sub : Char} (hsub : sub ∈ (SoundClass.ofText "jbgqdkcwtpSzs".toList).sounds) :
      FinishingChange "8.4.54" (·.substituteAdi [sub])

theorem alters_dropFinalOfCluster (d : Derivation) :
    Alters (fun _ _ => FinishingChange) d d.dropFinalOfCluster := by
  rcases d.dropFinalOfCluster_cases with ⟨-, heq⟩ | ⟨i, -, -, heq⟩
  · rw [heq]
    exact .self
  · rw [heq]
    exact alters_alter fun _ _ => .clusterReduced

theorem alters_replaceFinal {rule : Rule} {sub : Char}
    (h : FinishingChange rule (·.setAntya [sub])) (final : Char) (d : Derivation) :
    Alters (fun _ _ => FinishingChange) d (d.replaceFinal rule final sub) := by
  rcases d.replaceFinal_cases rule final sub with heq | ⟨i, -, -, heq⟩
  · rw [heq]
    exact .self
  · rw [heq]
    exact alters_alter fun _ _ => h

theorem alters_lengthenBeforeRv (d : Derivation) (i : Nat) :
    Alters (fun _ _ => FinishingChange) d (d.lengthenBeforeRv i) := by
  rcases d.lengthenBeforeRv_cases i with heq | ⟨_, vowel, _, -, -, -, -, -, -, heq⟩
  · rw [heq]
    exact .self
  · rw [heq]
    exact alters_alter fun _ _ => .longVowel vowel

theorem alters_finishWord (d : Derivation) :
    Alters (fun _ _ => FinishingChange) d d.finishWord :=
  ((alters_replaceFinal .rForS 's' d).trans (alters_forEach alters_lengthenBeforeRv _)).trans
    (alters_replaceFinal .visarga 'r' _)

-- The copy loses its aspirate, unless the table lacks a sound for it.
theorem deaspirateCopy_alters (d : Derivation) :
    (∃ e, d.deaspirateCopy = .done e ∧ Alters (fun _ _ => FinishingChange) d e) ∨
      ∃ fault, d.deaspirateCopy = .failed fault d ∧
        d.table.Lacks SoundClass.substituted.sounds fault := by
  rcases d.deaspirateCopy_cases with heq | ⟨fault, hfault, heq⟩ |
    ⟨i, _, _, sub, _, -, -, -, -, -, -, hmem, -, heq⟩
  · exact .inl ⟨d, heq, .self⟩
  · have hlacks := FeatureTable.lacks_of_mapSounds SoundClass.decode_jhal SoundClass.decode_jashCar
      (SoundClass.ofText_ne_nil (by decide)) hfault
    exact .inr ⟨fault, heq, hlacks.mono (SoundClass.mem_ofText_of_append (by decide))⟩
  · exact .inl ⟨_, heq, alters_alter fun _ _ => .plainCopy hmem⟩

theorem deaspirateCopy_ends (d : Derivation) :
    d.deaspirateCopy.Ends (fun e => e.background = d.background)
      (d.table.Lacks SoundClass.substituted.sounds) := by
  rcases d.deaspirateCopy_alters with ⟨e, hdone, halters⟩ | ⟨fault, hfail, hlacks⟩
  · rw [hdone]
    exact halters.background
  · rw [hfail]
    exact hlacks

theorem devoiceFinal_ends {rules : List Rule} (hrules : "8.4.56" ∈ rules) (d : Derivation) :
    d.devoiceFinal.Ends (fun e => e.Continues rules d)
      (d.table.Lacks SoundClass.substituted.sounds) := by
  rcases d.devoiceFinal_cases with heq | ⟨fault, hfault, heq⟩ |
    ⟨_, _, _, _, _, -, -, -, -, -, -, -, -, heq⟩
  · rw [heq]
    exact continues_of_background rules rfl
  · have hlacks := FeatureTable.lacks_of_mapSounds SoundClass.decode_jhal SoundClass.decode_car
      (SoundClass.ofText_ne_nil (by decide)) hfault
    rw [heq]
    exact hlacks.mono (SoundClass.mem_ofText_of_append (by decide))
  · rw [heq]
    exact continues_optionally hrules (fun d => background_update _ _ d) d

-- How far the last chapters have come: the sweeps done so far had all the sounds they need.
structure Joined (rules : List Rule) (d : Derivation) (passed : List ConsonantPass)
    (e : Derivation) : Prop where
  continues : e.Continues rules d
  covers : ∀ p ∈ passed, d.table.Covers p.needs

theorem Joined.continue {rules : List Rule} {d e f : Derivation} {passed : List ConsonantPass}
    (h : Joined rules d passed e) (hf : f.Continues rules e) : Joined rules d passed f :=
  ⟨hf.trans h.continues, h.covers⟩

theorem Joined.pass {rules : List Rule} {d e : Derivation} {passed : List ConsonantPass}
    (h : Joined rules d passed e) (p : ConsonantPass) :
    (e.pass p).Ends (Joined rules d (p :: passed))
      (d.table.Lacks SoundClass.substituted.sounds) := by
  have htable := h.continues.table
  rcases e.pass_rests p with ⟨r, f, -, -, hdone, hkeep, hcovers⟩ | ⟨fault, -, hfail, hlacks⟩
  · rw [hdone]
    refine ⟨(continues_of_background rules hkeep).trans h.continues, ?_⟩
    rw [← htable]
    exact List.forall_mem_cons.mpr ⟨hcovers, htable ▸ h.covers⟩
  · rw [hfail, ← htable]
    exact hlacks.mono p.mem_substituted_of_mem_needs

theorem joinConsonants_ends {rules : List Rule} (hrules : "8.4.56" ∈ rules) (d : Derivation) :
    d.joinConsonants.Ends
      (fun e => e.Continues rules d ∧ d.table.Covers SoundClass.substituted.sounds)
      (d.table.Lacks SoundClass.substituted.sounds) := by
  have hstart : Joined rules d [] d.dropFinalOfCluster :=
    ⟨continues_of_background rules (alters_dropFinalOfCluster d).background, by simp⟩
  have hfinish := (hstart.pass .throat).map finishWord fun e he =>
    he.continue (continues_of_background rules (alters_finishWord e).background)
  have hanusvara := hfinish.andThen (pass .anusvara) fun e he => he.pass .anusvara
  have hsuffix := hanusvara.andThen (pass .suffixS) fun e he => he.pass .suffixS
  have hpalatal := hsuffix.andThen (pass .palatal) fun e he => he.pass .palatal
  have hretroflex := hpalatal.andThen (pass .retroflex) fun e he => he.pass .retroflex
  have hsoft := hretroflex.andThen (pass .soft) fun e he => he.pass .soft
  have hcopy := hsoft.andThen deaspirateCopy fun e he => by
    have hends := deaspirateCopy_ends e
    rw [he.continues.table] at hends
    exact hends.imp (fun f hf => he.continue (continues_of_background rules hf)) fun _ h => h
  have hhard := hcopy.andThen (pass .hard) fun e he => he.pass .hard
  have hfinal := hhard.andThen devoiceFinal fun e he => by
    have hends := devoiceFinal_ends hrules e
    rw [he.continues.table] at hends
    exact hends.imp (fun f hf => he.continue hf) fun _ h => h
  have hall := hfinal.andThen (pass .nasal) fun e he => he.pass .nasal
  rw [joinConsonants_eq]
  refine hall.imp (fun e he => ⟨he.continues, fun c hc => ?_⟩) fun _ h => h
  -- Each of the sounds is needed by one of the passes.
  have hneeded : ∀ c ∈ SoundClass.substituted.sounds,
      c ∈ ConsonantPass.throat.needs ∨ c ∈ ConsonantPass.retroflex.needs ∨
        c ∈ ConsonantPass.hard.needs := SoundClass.forall_ofText (by decide +kernel)
  rcases hneeded c hc with hc | hc | hc
  · exact he.covers .throat (by decide) c hc
  · exact he.covers .retroflex (by decide) c hc
  · exact he.covers .hard (by decide) c hc

end Derivation

-- Again and again replaced by its nearest sound, a sound of jhal comes to one that stays, and
-- none comes round to itself.
theorem SoundMap.settles_on_jhal {T : FeatureTable} {ys : Text} {targets : SoundClass}
    (hy : SoundClass.decode ys = .ok targets) (hne : targets.sounds ≠ [])
    (hsub : ∀ y ∈ targets.sounds, y ∈ SoundClass.jhal.sounds) {images : SoundMap}
    (h : T.mapSounds "Jal".toList ys = .ok images) {c : Char}
    (hc : c ∈ SoundClass.jhal.sounds) :
    (∃ y ∈ SoundClass.jhal.sounds, images.image? c = some y) ∧
      (∃ n, Function.IsFixedPt images.step (images.step^[n] c)) ∧
      ∀ n, 0 < n → Function.IsPeriodicPt images.step n c → Function.IsFixedPt images.step c := by
  have hmaps := FeatureTable.mapsNearest_of_mapSounds SoundClass.decode_jhal hy
    (SoundClass.ofText_ne_nil (by decide)) h
  obtain ⟨y, hy⟩ := Option.isSome_iff_exists.mp (hmaps.defined hne c hc)
  obtain ⟨n, -, hn⟩ := exists_isFixedPt_iterate hmaps.ahead_step_lt c
  refine ⟨⟨y, hsub y (hmaps.nearest c y hy).mem, hy⟩, ⟨n, hn⟩, fun n hn hperiod => ?_⟩
  exact isFixedPt_of_isPeriodicPt hmaps.ahead_step_lt hn hperiod

-- The last chapters end well just if the table has every sound that they substitute, and
-- otherwise fail for the want of one. Whatever the derivation, each sweep, taken without a limit,
-- comes to a look through the text that changes nothing.
theorem Derivation.joinConsonants_comes_to_rest (d : Derivation) :
    ((∃ e, d.joinConsonants = .done e) ↔ d.table.Covers SoundClass.substituted.sounds) ∧
    (∀ fault e, d.joinConsonants = .failed fault e →
      d.table.Lacks SoundClass.substituted.sounds fault) ∧
    (∀ p : ConsonantPass,
      (∃ r e, p.rule d.table = .ok r ∧ r.Rests d e ∧ d.pass p = .done e) ∨
        ∃ fault, d.pass p = .failed fault d ∧ d.table.Lacks p.needs fault) ∧
    ∀ ys ∈ ["jaS".toList, "car".toList], ∀ images,
      d.table.mapSounds "Jal".toList ys = .ok images → ∀ c ∈ SoundClass.jhal.sounds,
        (∃ y ∈ SoundClass.jhal.sounds, images.image? c = some y) ∧
        (∃ n, Function.IsFixedPt images.step (images.step^[n] c)) ∧
        ∀ n, 0 < n → Function.IsPeriodicPt images.step n c →
          Function.IsFixedPt images.step c := by
  have hends := joinConsonants_ends (List.mem_singleton_self "8.4.56") d
  refine ⟨⟨?_, fun hcovers => ?_⟩, ?_, fun p => ?_, fun ys hys images h c hc => ?_⟩
  · rintro ⟨e, he⟩
    rw [he] at hends
    exact hends.2
  · rcases hjoin : d.joinConsonants with e | ⟨fault, e⟩
    · exact ⟨e, rfl⟩
    · rw [hjoin] at hends
      exact absurd hcovers (FeatureTable.Lacks.not_covers hends)
  · intro fault e he
    rw [he] at hends
    exact hends
  · rcases d.pass_rests p with ⟨r, e, hok, hrests, hdone, -⟩ | ⟨fault, -, hfail, hlacks⟩
    · exact .inl ⟨r, e, hok, hrests, hdone⟩
    · exact .inr ⟨fault, hfail, hlacks⟩
  · rcases List.mem_pair.mp hys with rfl | rfl
    · exact SoundMap.settles_on_jhal SoundClass.decode_jash (by decide) (by decide) h hc
    · exact SoundMap.settles_on_jhal SoundClass.decode_car (by decide) (by decide) h hc

end Vyakarana
