import Vyakarana.Proofs.Derivation.Spoken
import Vyakarana.Proofs.Grammar.PadaChoice

/-!
The beginning of a root.

When a root has lost its markers, an initial z or R gives way to s or n, and the text keeps its
length. A retroflex that the z had brought about is reverted with it, by a replacement of each of the
three pairs zw, zW, zR at its first occurrence in the whole text: where the root begins with one of
them, another one further on is reverted too. After that only the nasal of 7.1.58 is added.
-/

namespace Vyakarana

namespace Text

-- An occurrence is cut out, and what takes its place stands between the same two stretches.
theorem replaceFirst_cases (needle t : Text) :
    occursIn needle t = false ∧ (∀ sub, replaceFirst needle sub t = t) ∨
      ∃ before after, t = before ++ needle ++ after ∧ occursIn needle t = true ∧
        ∀ sub, replaceFirst needle sub t = before ++ sub ++ after := by
  induction t with
  | nil =>
      cases needle with
      | nil => exact .inr ⟨[], [], rfl, rfl, fun sub => by simp [replaceFirst]⟩
      | cons c needle => exact .inl ⟨rfl, fun sub => rfl⟩
  | cons c rest ih =>
      by_cases hprefix : needle.isPrefixOf (c :: rest) = true
      · obtain ⟨after, hafter⟩ := List.isPrefixOf_iff_prefix.mp hprefix
        refine .inr ⟨[], after, hafter.symm, by rw [occursIn, hprefix, Bool.true_or], fun sub => ?_⟩
        rw [replaceFirst, if_pos hprefix, ← hafter, List.drop_left]
        rfl
      · rcases ih with ⟨hno, hsame⟩ | ⟨before, after, rfl, hyes, hsub⟩
        · refine .inl ⟨by rw [occursIn, hno, Bool.or_false, Bool.eq_false_iff.mpr hprefix], ?_⟩
          intro sub
          rw [replaceFirst, if_neg hprefix, hsame]
        · refine .inr ⟨c :: before, after, rfl, by rw [occursIn, hyes, Bool.or_true], fun sub => ?_⟩
          rw [replaceFirst, if_neg hprefix, hsub]
          rfl

end Text

-- The retroflexes that follow an initial z, and the dentals that they turn to.
def retroflexPairs : List (Char × Char) := [('w', 't'), ('W', 'T'), ('R', 'n')]

-- The first occurrence of z with this retroflex is reverted.
def revertPair (p : Char × Char) (t : Text) : Text :=
  Text.replaceFirst ['z', p.1] ['s', p.2] t

def revertAll (pairs : List (Char × Char)) (t : Text) : Text :=
  pairs.foldl (fun t p => revertPair p t) t

def pairsBut (p : Char × Char) : List (Char × Char) := retroflexPairs.filter (·.1 != p.1)

theorem dentalize_eq (t : Text) : dentalize t = revertAll retroflexPairs t := rfl

section Reverting

variable {p : Char × Char} {pairs : List (Char × Char)} {c x : Char} {t rest : Text}

theorem revertPair_cons (hc : c ≠ 'z') : revertPair p (c :: rest) = c :: revertPair p rest := by
  simp [revertPair, Text.replaceFirst, Ne.symm hc]

theorem revertPair_hit : revertPair p ('z' :: p.1 :: rest) = 's' :: p.2 :: rest := by
  simp [revertPair, Text.replaceFirst]

theorem revertPair_miss (hp : p.1 ≠ x) (hx : x ≠ 'z') :
    revertPair p ('z' :: x :: rest) = 'z' :: x :: revertPair p rest := by
  simp [revertPair, Text.replaceFirst, hp, Ne.symm hx]

theorem revertAll_cons (hc : c ≠ 'z') : revertAll pairs (c :: rest) = c :: revertAll pairs rest := by
  induction pairs generalizing rest with
  | nil => rfl
  | cons p pairs ih => exact (congrArg (revertAll pairs) (revertPair_cons hc)).trans ih

-- The pair at the beginning is reverted there, the others further on.
theorem revertAll_initial (hpairs : (pairs.map (·.1)).Nodup)
    (hz : ∀ q ∈ pairs, q.1 ≠ 'z' ∧ q.2 ≠ 'z') (hp : p ∈ pairs) :
    revertAll pairs ('z' :: p.1 :: rest) =
      's' :: p.2 :: revertAll (pairs.filter (·.1 != p.1)) rest := by
  induction pairs generalizing rest with
  | nil => cases hp
  | cons q pairs ih =>
      obtain ⟨hfresh, hpairs⟩ := List.nodup_cons.mp hpairs
      obtain ⟨hq, hz⟩ := List.forall_mem_cons.mp hz
      rcases List.mem_cons.mp hp with rfl | hp
      · have hothers : pairs.filter (·.1 != p.1) = pairs := by
          refine List.filter_eq_self.mpr fun r hr => bne_iff_ne.mpr fun hsame => hfresh ?_
          exact List.mem_map.mpr ⟨r, hr, hsame⟩
        rw [List.filter_cons_of_neg (by simp), hothers]
        calc revertAll (p :: pairs) ('z' :: p.1 :: rest)
            = revertAll pairs ('s' :: p.2 :: rest) := congrArg (revertAll pairs) revertPair_hit
          _ = 's' :: p.2 :: revertAll pairs rest := by
              rw [revertAll_cons (by decide), revertAll_cons hq.2]
      · have hne : q.1 ≠ p.1 := fun hsame => hfresh (List.mem_map.mpr ⟨p, hp, hsame.symm⟩)
        rw [List.filter_cons_of_pos (by simpa using hne)]
        exact (congrArg (revertAll pairs) (revertPair_miss hne (hz p hp).1)).trans (ih hpairs hz hp)

theorem length_revertPair (p : Char × Char) (t : Text) : (revertPair p t).length = t.length := by
  rcases Text.replaceFirst_cases ['z', p.1] t with ⟨-, hsame⟩ | ⟨before, after, ht, -, hsub⟩
  · rw [revertPair, hsame]
  · rw [revertPair, hsub, ht]
    simp

theorem length_revertAll (pairs : List (Char × Char)) (t : Text) :
    (revertAll pairs t).length = t.length := by
  induction pairs generalizing t with
  | nil => rfl
  | cons p pairs ih => exact (ih (revertPair p t)).trans (length_revertPair p t)

-- Each pair that is reverted leaves one z less.
theorem count_revertPair_of_occurs (hz : p.1 ≠ 'z' ∧ p.2 ≠ 'z')
    (h : Text.occursIn ['z', p.1] t = true) :
    (revertPair p t).count 'z' + 1 = t.count 'z' := by
  rcases Text.replaceFirst_cases ['z', p.1] t with ⟨hno, -⟩ | ⟨before, after, ht, -, hsub⟩
  · rw [hno] at h
    cases h
  · rw [revertPair, hsub, ht]
    simp [hz.1, hz.2]
    omega

theorem revertPair_of_not_occurs (h : Text.occursIn ['z', p.1] t = false) : revertPair p t = t := by
  rcases Text.replaceFirst_cases ['z', p.1] t with ⟨-, hsame⟩ | ⟨_, _, -, hyes, -⟩
  · exact hsame _
  · rw [hyes] at h
    cases h

theorem count_revertAll_le (hz : ∀ q ∈ pairs, q.1 ≠ 'z' ∧ q.2 ≠ 'z') (t : Text) :
    (revertAll pairs t).count 'z' ≤ t.count 'z' := by
  induction pairs generalizing t with
  | nil => exact Nat.le_refl _
  | cons q pairs ih =>
      obtain ⟨hq, hz⟩ := List.forall_mem_cons.mp hz
      refine (ih hz (revertPair q t)).trans ?_
      by_cases hyes : Text.occursIn ['z', q.1] t = true
      · have := count_revertPair_of_occurs hq hyes
        omega
      · rw [revertPair_of_not_occurs (Bool.eq_false_iff.mpr hyes)]

theorem revertAll_eq_self_iff (hz : ∀ q ∈ pairs, q.1 ≠ 'z' ∧ q.2 ≠ 'z') :
    revertAll pairs t = t ↔ ∀ q ∈ pairs, Text.occursIn ['z', q.1] t = false := by
  induction pairs with
  | nil => simp [revertAll]
  | cons q pairs ih =>
      obtain ⟨hq, hz⟩ := List.forall_mem_cons.mp hz
      rw [List.forall_mem_cons, ← ih hz]
      by_cases hyes : Text.occursIn ['z', q.1] t = true
      · -- The z that is lost does not come back.
        have hlost := count_revertPair_of_occurs hq hyes
        have hle := count_revertAll_le hz (revertPair q t)
        constructor
        · intro hsame
          have hcount := congrArg (List.count 'z') hsame
          rw [show revertAll (q :: pairs) t = revertAll pairs (revertPair q t) from rfl] at hcount
          omega
        · rintro ⟨hno, -⟩
          rw [hyes] at hno
          cases hno
      · have hno := Bool.eq_false_iff.mpr hyes
        rw [show revertAll (q :: pairs) t = revertAll pairs (revertPair q t) from rfl,
          revertPair_of_not_occurs hno]
        exact ⟨fun h => ⟨hno, h⟩, fun h => h.2⟩

end Reverting

-- What 6.1.64 and 6.1.65 make of the text of a root.
inductive InitialRewritten : Text → Text → Prop
  | kept {w : Text} : w ∈ keepsZ → InitialRewritten w w
  | reverted {p : Char × Char} {rest : Text} : p ∈ retroflexPairs → 'z' :: p.1 :: rest ∉ keepsZ →
      InitialRewritten ('z' :: p.1 :: rest) ('s' :: p.2 :: revertAll (pairsBut p) rest)
  | z {rest : Text} : (∀ p ∈ retroflexPairs, rest.head? ≠ some p.1) → 'z' :: rest ∉ keepsZ →
      InitialRewritten ('z' :: rest) ('s' :: rest)
  | R {rest : Text} : InitialRewritten ('R' :: rest) ('n' :: rest)
  | other {w : Text} : w.head? ≠ some 'z' → w.head? ≠ some 'R' → InitialRewritten w w

-- What 7.1.58 makes of it.
inductive NasalAdded : Text → Text → Prop
  | added {before after : Text} {vowel : Char} : Sound.isAc vowel = true →
      (∀ c ∈ after, Sound.isAc c = false) →
      NasalAdded (before ++ vowel :: after) (before ++ vowel :: 'n' :: after)
  | voiceless {w : Text} : (∀ c ∈ w, Sound.isAc c = false) → NasalAdded w w

namespace Term

variable (t : Term)

theorem replaceInitial_eq_setText : t.replaceInitial = t.setText t.replaceInitial.text := by
  unfold replaceInitial substituteAdi
  repeat' split
  all_goals rfl

theorem nasalize_eq_setText : t.nasalize = t.setText t.nasalize.text := by
  unfold nasalize insertAfterVowel
  repeat' split
  all_goals rfl

theorem startsWithAny_retroflex {rest : Text} (ht : t.text = 'z' :: rest) :
    t.startsWithAny ["zw".toList, "zW".toList, "zR".toList] = true ↔
      ∃ p ∈ retroflexPairs, ∃ after, rest = p.1 :: after := by
  rw [startsWithAny, ht]
  cases rest with
  | nil => simp [retroflexPairs]
  | cons x rest => simp [retroflexPairs, @eq_comm _ x]

theorem replaceInitial_rewrites : InitialRewritten t.text t.replaceInitial.text := by
  unfold replaceInitial
  split
  · rename_i hz
    obtain ⟨rest, ht⟩ := List.head?_eq_some_iff.mp (beq_iff_eq.mp hz)
    split
    · rename_i hkeeps
      exact .kept (List.contains_iff_mem.mp hkeeps)
    · rename_i hkeeps
      have hnot : 'z' :: rest ∉ keepsZ := fun hmem =>
        hkeeps (List.contains_iff_mem.mpr (ht ▸ hmem))
      split
      · rename_i hstarts
        obtain ⟨p, hp, after, rfl⟩ := (t.startsWithAny_retroflex ht).mp hstarts
        have htext : (t.setText (dentalize t.text)).text =
            's' :: p.2 :: revertAll (pairsBut p) after :=
          calc dentalize t.text = revertAll retroflexPairs ('z' :: p.1 :: after) := by
                rw [ht, dentalize_eq]
            _ = 's' :: p.2 :: revertAll (pairsBut p) after :=
                revertAll_initial (by decide) (by decide) hp
        rw [htext, ht]
        exact .reverted hp hnot
      · rename_i hstarts
        have htext : (t.substituteAdi ['s']).text = 's' :: rest := by
          simp [substituteAdi, setAdi, setText, ht]
        rw [htext, ht]
        refine .z (fun p hp hhead => hstarts ?_) hnot
        obtain ⟨after, hafter⟩ := List.head?_eq_some_iff.mp hhead
        exact (t.startsWithAny_retroflex ht).mpr ⟨p, hp, after, hafter⟩
  · rename_i hz
    split
    · rename_i hR
      obtain ⟨rest, ht⟩ := List.head?_eq_some_iff.mp (beq_iff_eq.mp hR)
      have htext : (t.substituteAdi ['n']).text = 'n' :: rest := by
        simp [substituteAdi, setAdi, setText, ht]
      rw [htext, ht]
      exact .R
    · rename_i hR
      exact .other (fun h => hz (beq_iff_eq.mpr h)) fun h => hR (beq_iff_eq.mpr h)

theorem splitAtLastVowel?_cases (w : Text) :
    splitAtLastVowel? w = none ∧ (∀ c ∈ w, Sound.isAc c = false) ∨
      ∃ before vowel after, splitAtLastVowel? w = some (before, vowel, after) ∧
        w = before ++ vowel :: after ∧ Sound.isAc vowel = true ∧
        ∀ c ∈ after, Sound.isAc c = false := by
  induction w with
  | nil => exact .inl ⟨rfl, by simp⟩
  | cons c rest ih =>
      rw [splitAtLastVowel?]
      rcases ih with ⟨hnone, hrest⟩ | ⟨before, vowel, after, hsome, rfl, hvowel, hafter⟩
      · rw [hnone]
        by_cases hc : Sound.isAc c = true
        · exact .inr ⟨[], c, rest, by simp [hc], rfl, hc, hrest⟩
        · have hno := Bool.eq_false_iff.mpr hc
          exact .inl ⟨by simp [hno], List.forall_mem_cons.mpr ⟨hno, hrest⟩⟩
      · exact .inr ⟨c :: before, vowel, after, by rw [hsome], rfl, hvowel, hafter⟩

theorem nasal_added : NasalAdded t.text (t.insertAfterVowel ['n']).text := by
  unfold insertAfterVowel
  rcases splitAtLastVowel?_cases t.text with
    ⟨hnone, hno⟩ | ⟨before, vowel, after, hsome, ht, hvowel, hafter⟩
  · rw [hnone]
    exact .voiceless hno
  · have htext : (t.setText (before ++ [vowel] ++ ['n'] ++ after)).text =
        before ++ vowel :: 'n' :: after := by simp [setText]
    rw [hsome, htext, ht]
    exact .added hvowel hafter

end Term

theorem InitialRewritten.length {w v : Text} (h : InitialRewritten w v) : v.length = w.length := by
  cases h with
  | kept _ => rfl
  | reverted _ _ => simp [length_revertAll]
  | z _ _ => rfl
  | R => rfl
  | other _ _ => rfl

-- Only the roots that keep their z begin with it, or with R.
theorem InitialRewritten.initial {w v : Text} (h : InitialRewritten w v)
    (hv : v.head? = some 'z' ∨ v.head? = some 'R') : w ∈ keepsZ := by
  cases h with
  | kept hkeeps => exact hkeeps
  | reverted _ _ => simp at hv
  | z _ _ => simp at hv
  | R => simp at hv
  | other hz hR =>
      rcases hv with hv | hv
      · exact absurd hv hz
      · exact absurd hv hR

-- What follows the first sound is left alone unless the two make one of the pairs.
theorem InitialRewritten.drop_one {w v : Text} (h : InitialRewritten w v)
    (hw : w ∈ keepsZ ∨ ∀ p ∈ retroflexPairs, ¬['z', p.1] <+: w) : v.drop 1 = w.drop 1 := by
  cases h with
  | kept _ => rfl
  | @reverted p rest hp hnot =>
      rcases hw with hw | hw
      · exact absurd hw hnot
      · exact absurd ⟨rest, rfl⟩ (hw p hp)
  | z _ _ => rfl
  | R => rfl
  | other _ _ => rfl

theorem retroflexPairs_not_z : ∀ p ∈ retroflexPairs, p.1 ≠ 'z' ∧ p.2 ≠ 'z' := by decide

theorem retroflexPairs_inj :
    ∀ p ∈ retroflexPairs, ∀ q ∈ retroflexPairs, q.1 = p.1 → q = p := by decide

-- What follows the pair is left alone just if neither of the other pairs occurs there.
theorem InitialRewritten.drop_two {w v rest : Text} {p : Char × Char} (h : InitialRewritten w v)
    (hp : p ∈ retroflexPairs) (hw : w = 'z' :: p.1 :: rest) (hnot : w ∉ keepsZ) :
    v = 's' :: p.2 :: revertAll (pairsBut p) rest ∧
      (v.drop 2 = rest ↔ ∀ q ∈ pairsBut p, Text.occursIn ['z', q.1] rest = false) := by
  have hv : v = 's' :: p.2 :: revertAll (pairsBut p) rest := by
    cases h with
    | kept hkeeps => exact absurd hkeeps hnot
    | @reverted q after hq _ =>
        injection hw with _ hw
        injection hw with hsame hrest
        rw [retroflexPairs_inj p hp q hq hsame, hrest]
    | z hother _ =>
        injection hw with _ hrest
        exact absurd (by rw [hrest]; rfl) (hother p hp)
    | R => cases hw
    | other hz _ => exact absurd (by rw [hw]; rfl) hz
  refine ⟨hv, ?_⟩
  rw [hv]
  exact revertAll_eq_self_iff fun q hq => retroflexPairs_not_z q (List.mem_filter.mp hq).1

namespace Derivation

variable {d e : Derivation} {root : Root}

theorem terms_pushRoot (root : Root) (d : Derivation) :
    (d.pushRoot root).terms =
      d.terms ++ [(Term.ofRoot root.upadesha root.gana root.number).addTag .dhatu] := by
  have hpush : ((d.push (.ofRoot root.upadesha root.gana root.number)).record "start").terms =
      d.terms ++ .ofRoot root.upadesha root.gana root.number :: [] := by
    rw [terms_record, push]
  exact (actsAt_alter "1.3.1" d.terms.length (·.addTag .dhatu) _).terms_of_cut hpush rfl

-- A root that enters stands at the end of the row, first without its markers, then with a new
-- initial, and then with its nasal.
theorem enterRoot_rows (h : d.enterRoot root = .done e) :
    ∃ bare, (d.pushRoot root).dropMarkers d.terms.length = .done bare ∧
      bare.terms = d.terms ++ [root.marked] ∧
      (bare.replaceInitial d.terms.length).terms = d.terms ++ [root.marked.replaceInitial] ∧
      e.terms = d.terms ++ [root.marked.replaceInitial.nasalize] := by
  have henter : d.enterRoot root = ((d.pushRoot root).dropMarkers (d.terms.length : Int)).map
      fun e => ((e.replaceInitial d.terms.length).nasalizeRoot d.terms.length).markAkusmiya root :=
    rfl
  have hrow := terms_pushRoot root d
  have hends := dropMarkers_ends (term_of_cut hrow) (u := root.upadesha) rfl
  rw [henter] at h
  rcases hdrop : (d.pushRoot root).dropMarkers (d.terms.length : Int) with bare | ⟨fault, failed⟩
  · rw [hdrop] at h hends
    cases h
    have hact : ActsAt d.terms.length (Term.stripped root.upadesha) (d.pushRoot root) bare := hends
    have hbare : bare.terms = d.terms ++ [root.marked] := hact.terms_of_cut hrow rfl
    have hinitial := (actsAt_replaceInitial d.terms.length bare).terms_of_cut hbare rfl
    have hnasal := (actsAt_nasalizeRoot d.terms.length _).terms_of_cut hinitial rfl
    exact ⟨bare, rfl, hbare, hinitial, (markAkusmiya_shows root _).1.trans hnasal⟩
  · rw [hdrop] at h
    cases h

-- The text of a root from the loss of its markers to the end of its entry: `w` without them, `v`
-- with the new initial, `u` at the end. Nothing but the beginning is rewritten, except that a root
-- that begins with a pair and has another one further on loses that one too.
theorem enterRoot_rewrites_initial (h : d.enterRoot root = .done e) :
    ∃ (bare : Derivation) (v u : Text),
      (d.pushRoot root).dropMarkers d.terms.length = .done bare ∧
      bare.terms = d.terms ++ [root.marked] ∧
      (bare.replaceInitial d.terms.length).terms = d.terms ++ [root.marked.setText v] ∧
      e.terms = d.terms ++ [root.marked.setText u] ∧
      v.length = root.marked.text.length ∧
      (v.head? = some 'z' ∨ v.head? = some 'R' → root.marked.text ∈ keepsZ) ∧
      (root.marked.text ∈ keepsZ ∨ (∀ p ∈ retroflexPairs, ¬['z', p.1] <+: root.marked.text) →
        v.drop 1 = root.marked.text.drop 1) ∧
      (∀ p ∈ retroflexPairs, ∀ rest, root.marked.text = 'z' :: p.1 :: rest →
        root.marked.text ∉ keepsZ → v = 's' :: p.2 :: revertAll (pairsBut p) rest ∧
          (v.drop 2 = rest ↔ ∀ q ∈ pairsBut p, Text.occursIn ['z', q.1] rest = false)) ∧
      if root.marked.hasTag (.it .i) then NasalAdded v u else u = v := by
  obtain ⟨bare, hdrop, hbare, hinitial, he⟩ := enterRoot_rows h
  have hv : InitialRewritten root.marked.text root.marked.replaceInitial.text :=
    root.marked.replaceInitial_rewrites
  have hset := root.marked.replaceInitial_eq_setText
  refine ⟨bare, root.marked.replaceInitial.text, root.marked.replaceInitial.nasalize.text, hdrop,
    hbare, hinitial.trans (by rw [← hset]), he.trans ?_, hv.length, hv.initial, hv.drop_one,
    fun p hp rest hw hnot => hv.drop_two hp hw hnot, ?_⟩
  · rw [Term.nasalize_eq_setText root.marked.replaceInitial, hset]
    rfl
  · have htag : root.marked.replaceInitial.hasTag (.it .i) = root.marked.hasTag (.it .i) := by
      rw [hset]
      rfl
    rw [Term.nasalize, htag]
    split
    · exact root.marked.replaceInitial.nasal_added
    · rfl

-- The root Ridi~ is nid, and nind with the nasal.
theorem enterRoot_rewrites_initial_of_nind :
    ∃ e, (start [] true .standard).enterRoot ⟨"Ridi~".toList, 1, none, none⟩ = .done e ∧
      e.text = "nind".toList ∧
      ∃ u v, e.terms = [(Root.marked ⟨"Ridi~".toList, 1, none, none⟩).setText u] ∧
        v.length = 3 ∧ v.drop 1 = "id".toList ∧ NasalAdded v u := by
  have hmarked : (Root.marked ⟨"Ridi~".toList, 1, none, none⟩).text = "Rid".toList := by
    decide +kernel
  refine ⟨_, rfl, by decide +kernel, ?_⟩
  obtain ⟨bare, v, u, -, -, -, he, hlength, -, hrest, -, hnasal⟩ := enterRoot_rewrites_initial
    (rfl : (start [] true .standard).enterRoot ⟨"Ridi~".toList, 1, none, none⟩ = .done _)
  rw [hmarked] at hlength hrest
  refine ⟨u, v, he, hlength, hrest (.inr (by decide)), ?_⟩
  rwa [if_pos (by decide +kernel)] at hnasal

-- In zwazWa both z are lost, though only the first begins the root.
theorem enterRoot_reverts_further_on :
    ∃ e, (start [] true .standard).enterRoot ⟨"zwazWa".toList, 1, none, none⟩ = .done e ∧
      (Root.marked ⟨"zwazWa".toList, 1, none, none⟩).text = "zwazWa".toList ∧
      (Root.marked ⟨"zwazWa".toList, 1, none, none⟩).hasTag (.it .i) = false ∧
      e.text = "stasTa".toList ∧ e.text.drop 2 ≠ "zwazWa".toList.drop 2 :=
  ⟨_, rfl, by decide +kernel, by decide +kernel, by decide +kernel, by decide +kernel⟩

end Derivation

end Vyakarana
