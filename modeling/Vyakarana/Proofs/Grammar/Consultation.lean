import Vyakarana.Proofs.Derivation.Consultation
import Vyakarana.Proofs.Grammar.Disguise

/-!
The optional rules of the grammar note what they have asked.

The rules of the set of endings, of the augment before Tal, of the ending Ral and of the final sound
are the ones that ask; all others are impartial. So the derivation of a verb form accounts for its
choices.
-/

namespace Vyakarana

namespace Derivation

section Endings

theorem markPada_retold (φ : Retelling) (d : Derivation) (pada : Pada) :
    (d.retold φ).markPada pada = (d.markPada pada).retold φ :=
  markPada_disguised φ.disguise d pada

theorem accountable_optionalPada (rule : Rule) :
    AccountableRule fun d => .done (d.optionalPada rule) := by
  have hbranch := AccountableRule.branch
    (accountable_optionally rule (markPada_retold · · .atmanepada)) .self
    (.done fun φ d => markParasmaipada_disguised φ.disguise d)
  convert hbranch using 2 with d
  unfold optionalPada
  rcases d.optionally rule _ with ⟨_ | _, e⟩ <;> rfl

theorem accountable_choosePada : AccountableRule fun d => .done d.choosePada := by
  refine .of_retold fun d => ?_
  rcases hfirst : d.firstTagged? .dhatu with _ | first
  · exact ⟨_, .self, fun φ => by simp [choosePada, hfirst]⟩
  rcases hlast : d.lastTagged? .dhatu with _ | last
  · exact ⟨_, .self, fun φ => by simp [choosePada, hlast]⟩
  refine ⟨fun e => .done (
      if d.hasTag (.pada .atmanepada) then e.markPada .atmanepada
      else if d.hasTagIn [.prayoga .karmani, .prayoga .bhave] then
        (e.markPada .atmanepada).record "1.3.13"
      else if d.has first (·.hasTagIn [.anudattet, .it .N]) then
        (e.markPada .atmanepada).record "1.3.12"
      else if d.has first (·.hasTagIn [.svaritet, .it .Y]) then e.optionalPada "1.3.72"
      else if d.has last (·.isTaught "Ric".toList) then e.optionalPada "1.3.74"
      else e.markParasmaipada), ?_, fun φ => ?_⟩
  · split_ifs
    · exact .done (markPada_retold · · _)
    · exact .done fun φ d => by rw [markPada_retold, record_retold]
    · exact .done fun φ d => by rw [markPada_retold, record_retold]
    · exact accountable_optionalPada "1.3.72"
    · exact accountable_optionalPada "1.3.74"
    · exact .done fun φ d => markParasmaipada_disguised φ.disguise d
  · simp only [choosePada, firstTagged?_retold, lastTagged?_retold, hasTag_retold, hasTagIn_retold,
      has_retold, hfirst, hlast]

end Endings

section Augment

theorem accountable_answer (answer : Bool) : Accountable fun d => (answer, d) :=
  .of_impartial fun _ _ => rfl

theorem accountable_record (answer : Bool) (rule : Rule) :
    Accountable fun d => (answer, d.record rule) :=
  .of_impartial fun φ d => by rw [record_retold]

theorem accountable_talTakesItAfterVowel (root : Term) :
    Accountable (talTakesItAfterVowel root) := by
  unfold talTakesItAfterVowel
  split_ifs
  · exact accountable_record true "7.2.66"
  · exact accountable_record false "7.2.61"
  · exact accountable_consult "7.2.63" (accountable_answer true) (accountable_record false "7.2.61")

theorem accountable_talRefusesIt (rule : Rule) : Accountable (talRefusesIt rule) :=
  accountable_consult rule (accountable_record false rule) (accountable_answer true)

theorem accountable_perfectTakesIt (root : Term) (tal : Bool) :
    Accountable (perfectTakesIt root tal) := by
  unfold perfectTakesIt
  split_ifs
  · exact accountable_record false "7.2.13"
  · exact accountable_answer true
  · exact accountable_talTakesItAfterVowel root
  · exact accountable_talRefusesIt "7.2.62"
  · exact accountable_talRefusesIt "7.2.65"
  · exact accountable_answer true

theorem accountable_takesIt (root : Term) (suffix : View) : Accountable (takesIt root suffix) := by
  unfold takesIt
  split_ifs
  · exact accountable_perfectTakesIt root _
  · exact accountable_record false "7.2.10"
  · exact accountable_answer true

theorem accountable_addIt : AccountableRule addIt := by
  refine .of_retold fun d => ?_
  rcases hi : d.lastTagged? .dhatu with _ | i
  · exact ⟨_, .self, fun φ => by simp only [addIt, lastTagged?_retold, hi]⟩
  rcases hroot : d.terms[i]? with _ | root
  · exact ⟨_, .self, fun φ => by simp only [addIt, lastTagged?_retold, hi, terms_retold, hroot]⟩
  rcases hsuffix : d.view? ((i + 1 : Nat) : Int) with _ | suffix
  · exact ⟨_, .self, fun φ => by
      simp only [addIt, lastTagged?_retold, hi, terms_retold, hroot, view?_retold, hsuffix]⟩
  refine ⟨fun e => if suffix.first.hasTag .agama || !suffix.hasTag .ardhadhatuka ||
      !suffix.hasAdi (.oneOf .val) then .done e
    else if (e.takesIt root suffix).1 then
      (e.takesIt root suffix).2.augmentAfter "7.2.35" i "iw".toList
    else .done (e.takesIt root suffix).2, ?_, fun φ => ?_⟩
  · split
    · exact .self
    · exact .branch (accountable_takesIt root suffix)
        (.of_impartial fun φ d => augmentAfter_disguised φ.disguise d _ _ _) .self
  · simp only [addIt, lastTagged?_retold, hi, terms_retold, hroot, view?_retold, hsuffix]
    rcases (d.retold φ).takesIt root suffix with ⟨_ | _, e⟩ <;> rfl

end Augment

section Stem

theorem accountable_relaxRal : AccountableRule fun d => .done d.relaxRal := by
  refine .of_retold fun d => ?_
  rcases hi : d.lastTagged? .tin with _ | i
  · exact ⟨_, .self, fun φ => by simp only [relaxRal, lastTagged?_retold, hi]⟩
  refine ⟨fun e => .done (
      if d.has i fun t => t.isTaught "Ral".toList && t.hasTag (.purusha .uttama) then
        (e.optionally "7.1.91" (·.update i (·.removeTag (.it .R)))).2
      else e), ?_, fun φ => by simp only [relaxRal, lastTagged?_retold, hi, has_retold]⟩
  split_ifs
  · exact AccountableRule.bind (accountable_optionally "7.1.91" (update_retold · · _ _))
      fun _ => .self
  · exact .self

theorem accountable_strengthenStem : AccountableRule fun d => .done d.strengthenStem :=
  accountable_relaxRal.map
    (.done fun φ d => forEach_disguised d (strengthenAt_disguised φ.disguise))

theorem accountable_shapeStem : AccountableRule shapeStem :=
  (AccountableRule.of_impartial fun φ d => prepareStem_disguised φ.disguise d).map
    (accountable_strengthenStem.map (.done fun φ d => joinStem_disguised φ.disguise d))

end Stem

section Sandhi

theorem lastHeard?_retold (φ : Retelling) (d : Derivation) :
    (d.retold φ).lastHeard? = d.lastHeard? :=
  lastHeard?_disguised φ.disguise d

theorem accountable_withNearest (xs ys : Text) {next : SoundMap → Derivation → Outcome}
    (hnext : ∀ nearest, AccountableRule (next nearest)) :
    AccountableRule (withNearest xs ys next) := by
  refine .of_retold fun d => ?_
  rcases hmap : d.table.mapSounds xs ys with fault | nearest
  · exact ⟨.failed fault, .of_impartial fun _ _ => rfl, fun φ => by
      simp only [withNearest, table_retold, hmap]⟩
  · exact ⟨next nearest, hnext nearest, fun φ => by simp only [withNearest, table_retold, hmap]⟩

theorem accountable_devoiceFinal : AccountableRule devoiceFinal := by
  refine .of_retold fun d => ?_
  rcases hi : d.lastHeard? with _ | i
  · exact ⟨_, .self, fun φ => by simp only [devoiceFinal, lastHeard?_retold, hi]⟩
  rcases hfinal : (d.terms[i]?).bind (·.antya?) with _ | final
  · exact ⟨_, .self, fun φ => by
      simp only [devoiceFinal, lastHeard?_retold, hi, terms_retold, hfinal]⟩
  refine ⟨fun e => if !SoundClass.jhal.contains final then .done e
    else e.withNearest "Jal".toList "car".toList fun nearest e =>
      (nearest.image? final).elim (.done e) fun sub =>
        .done (if sub = final then e
          else (e.optionally "8.4.56" (·.update i (·.setAntya [sub]))).2), ?_, fun φ => ?_⟩
  · split_ifs
    · exact .self
    · refine accountable_withNearest _ _ fun nearest => ?_
      rcases nearest.image? final with _ | sub
      · exact .self
      · simp only [Option.elim_some]
        split_ifs
        · exact .self
        · exact .bind (accountable_optionally "8.4.56" (update_retold · · _ _)) fun _ => .self
  · simp only [devoiceFinal, lastHeard?_retold, hi, terms_retold, hfinal]
    congr 2
    funext nearest e
    cases nearest.image? final <;> rfl

theorem accountable_joinConsonants : AccountableRule joinConsonants := by
  have hpass (p : ConsonantPass) : AccountableRule (pass p) := .of_impartial fun φ d =>
    pass_disguised φ.disguise d p
  have hcluster : AccountableRule fun d => .done d.dropFinalOfCluster :=
    .done fun φ d => dropFinalOfCluster_disguised φ.disguise d
  have hfinish := (hcluster.andThen (hpass .throat)).map
    (.done fun φ d => finishWord_disguised φ.disguise d)
  have hcopy : AccountableRule deaspirateCopy :=
    .of_impartial fun φ d => deaspirateCopy_disguised φ.disguise d
  have hsoft := ((((hfinish.andThen (hpass .anusvara)).andThen (hpass .suffixS)).andThen
    (hpass .palatal)).andThen (hpass .retroflex)).andThen (hpass .soft)
  have hhard := (hsoft.andThen hcopy).andThen (hpass .hard)
  rw [show joinConsonants = _ from funext joinConsonants_eq]
  exact (hhard.andThen accountable_devoiceFinal).andThen (hpass .nasal)

end Sandhi

theorem accountable_conjugate (root : Root) (form : VerbForm) :
    AccountableRule fun d => d.conjugate root form := by
  have htagged : AccountableRule fun d => .done
      (d.addTags [.prayoga form.prayoga, .purusha form.purusha, .vacana form.vacana]) :=
    .done fun φ d => addTags_retold φ d _
  have henter : AccountableRule fun d => d.enterRoot root :=
    .of_impartial fun φ d => enterRoot_disguised φ.disguise d root
  have hadd : AccountableRule fun d => d.addSuffixes form :=
    .of_impartial fun φ d => addSuffixes_disguised φ.disguise d form rfl
  have hlakara := ((htagged.andThen henter).andThen
    (.of_impartial fun φ d => addRic_disguised φ.disguise d)).andThen
      (.of_impartial fun φ d => addLakara_disguised φ.disguise d form.lakara)
  have hsuffixes := ((hlakara.map accountable_choosePada).andThen hadd).map
    (.done fun φ d => extendMarkers_disguised φ.disguise d)
  have hcopy := ((hsuffixes.andThen accountable_addIt).map
    (.done fun φ d => reduplicate_disguised φ.disguise d)).andThen
      (.of_impartial fun φ d => reduceCopy_disguised φ.disguise d)
  exact ((hcopy.andThen accountable_shapeStem).andThen
    (.of_impartial fun φ d => joinVowels_disguised φ.disguise d)).andThen accountable_joinConsonants

end Derivation

end Vyakarana
