import Vyakarana.Proofs.Grammar.Shaping

/-!
Rules that are applied again.

The rules that class the suffixes, extend their markers and double the root are called whenever the
row has changed. Called twice in a row they do nothing the second time: they take no step, and the
derivation is the same in all its parts. A visit to a term is over when no tag is due to the term,
and it stays over whatever the visits to other terms do; a root that has been doubled bears the tag
that keeps it from being doubled.
-/

namespace Vyakarana

theorem lastIndex?_eq_of_map {f : Term → Bool} {ts us : List Term} (h : ts.map f = us.map f) :
    lastIndex? f ts = lastIndex? f us := by
  induction ts generalizing us with
  | nil => rw [List.map_eq_nil_iff.mp h.symm]
  | cons t rest ih =>
      obtain ⟨u, others, rfl, hhead, htail⟩ := List.map_eq_cons_iff.mp h.symm
      rw [lastIndex?, lastIndex?, ih htail.symm, hhead]

namespace Term

-- 3.4.113 to 3.4.115: the class that a suffix is to have.
def dueClass? (t : Term) : Option (Rule × Tag) :=
  if !t.hasTag .pratyaya || t.hasTagIn [.sarvadhatuka, .ardhadhatuka] then none
  else if t.isPerfectEnding then some ("3.4.115", .ardhadhatuka)
  else if t.hasTagIn [.tin, .it .S] then some ("3.4.113", .sarvadhatuka)
  else some ("3.4.114", .ardhadhatuka)

-- 1.2.4 and 1.2.5: the marker that a suffix is to count as having; `light` tells whether the root
-- before it does not end in two consonants.
def dueMarker? (light : Bool) (t : Term) : Option (Rule × Tag) :=
  if !t.hasTag .pratyaya || t.hasTag (.it .p) then none
  else if t.hasTag .sarvadhatuka then
    if t.hasTag (.it .N) then none else some ("1.2.4", .it .N)
  else if t.isPerfectEnding && !t.hasTag (.it .k) && light then some ("1.2.5", .it .k)
  else none

variable {t : Term} {mark : Rule × Tag} {light : Bool}

theorem mem_dueClasses (h : t.dueClass? = some mark) :
    mark.2 = .sarvadhatuka ∨ mark.2 = .ardhadhatuka := by
  unfold dueClass? at h
  repeat' split at h
  all_goals cases h
  · exact .inr rfl
  · exact .inl rfl
  · exact .inr rfl

theorem dueClass?_addTag (h : t.dueClass? = some mark) : (t.addTag mark.2).dueClass? = none := by
  have hclassed : (t.addTag mark.2).hasTagIn [.sarvadhatuka, .ardhadhatuka] = true := by
    rw [hasTagIn, List.any_eq_true]
    refine ⟨mark.2, ?_, hasTag_addTag_self _ _⟩
    rcases mem_dueClasses h with htag | htag
    · rw [htag]
      exact List.mem_cons_self
    · rw [htag]
      exact List.mem_cons_of_mem _ List.mem_cons_self
  rw [dueClass?, hclassed, Bool.or_true, if_pos rfl]

theorem classify_eq (t : Term) : t.classify = (t.dueClass?).elim t fun mark => t.addTag mark.2 := by
  unfold classify dueClass?
  repeat' split
  all_goals rfl

-- A suffix without a class is given one class at the most.
theorem not_both_classify (t : Term) (hsarva : t.hasTag .sarvadhatuka = false)
    (hardha : t.hasTag .ardhadhatuka = false) :
    (t.classify.hasTag .sarvadhatuka && t.classify.hasTag .ardhadhatuka) = false := by
  rw [classify_eq]
  cases hdue : t.dueClass? with
  | none => rw [Option.elim_none, hsarva, Bool.false_and]
  | some mark =>
      rw [Option.elim_some]
      rcases mem_dueClasses hdue with htag | htag
      · rw [htag, hasTag_addTag_of_ne (x := .ardhadhatuka) (by decide) t, hardha, Bool.and_false]
      · rw [htag, hasTag_addTag_of_ne (x := .sarvadhatuka) (by decide) t, hsarva, Bool.false_and]

theorem mem_dueMarkers (h : t.dueMarker? light = some mark) :
    (mark.2 = .it .N ∧ t.hasTag .sarvadhatuka = true) ∨
      (mark.2 = .it .k ∧ t.hasTag .sarvadhatuka = false) := by
  unfold dueMarker? at h
  repeat' split at h
  all_goals cases h
  · exact .inl ⟨rfl, by assumption⟩
  · exact .inr ⟨rfl, by simpa using ‹¬t.hasTag .sarvadhatuka = true›⟩

theorem dueMarker?_addTag (h : t.dueMarker? light = some mark) :
    (t.addTag mark.2).dueMarker? light = none := by
  have hgained := hasTag_addTag_self mark.2 t
  rcases mem_dueMarkers h with ⟨htag, hclass⟩ | ⟨htag, hclass⟩
  · have hkept : (t.addTag mark.2).hasTag .sarvadhatuka = true := by
      rw [hasTag_addTag_of_ne (by rw [htag]; decide), hclass]
    rw [htag] at hgained hkept ⊢
    rw [dueMarker?, hkept, hgained]
    simp
  · have hkept : (t.addTag mark.2).hasTag .sarvadhatuka = false := by
      rw [hasTag_addTag_of_ne (by rw [htag]; decide), hclass]
    rw [htag] at hgained hkept ⊢
    rw [dueMarker?, hkept, hgained]
    simp

end Term

namespace Derivation

-- A visit that gives the term at `i` the tag that is due to it, by the rule that goes with it.
def tagVisit (due : Derivation → Nat → Term → Option (Rule × Tag)) (d : Derivation) (i : Nat) :
    Derivation :=
  match (d.terms[i]?).bind (due d i) with
  | some mark => d.alter mark.1 i (·.addTag mark.2)
  | none => d

-- A tag is due to a term only until it has it, and whether it is due does not depend on the tags
-- that are due to other terms.
structure DueOnce (due : Derivation → Nat → Term → Option (Rule × Tag)) : Prop where
  own : ∀ d i t mark, due d i t = some mark → due d i (t.addTag mark.2) = none
  others : ∀ d i j u mark, due d j u = some mark →
    due (d.alter mark.1 j (·.addTag mark.2)) i = due d i

section Visits

variable {due : Derivation → Nat → Term → Option (Rule × Tag)}

theorem length_tagVisit (d : Derivation) (i : Nat) :
    (tagVisit due d i).terms.length = d.terms.length := by
  unfold tagVisit
  split
  · rw [(actsAt_alter _ i _ d).terms, List.length_modify]
  · rfl

theorem tagVisit_of_none {d : Derivation} {i : Nat} (h : (d.terms[i]?).bind (due d i) = none) :
    tagVisit due d i = d := by
  rw [tagVisit, h]

-- After its own visit nothing is due to a term, and no other visit makes anything due to it.
theorem DueOnce.after_visit (h : DueOnce due) (d : Derivation) {i j : Nat}
    (hi : i = j ∨ (d.terms[i]?).bind (due d i) = none) :
    ((tagVisit due d j).terms[i]?).bind (due (tagVisit due d j) i) = none := by
  cases hj : (d.terms[j]?).bind (due d j) with
  | none =>
      rw [tagVisit_of_none hj]
      rcases hi with rfl | hi
      · exact hj
      · exact hi
  | some mark =>
      obtain ⟨u, hu, hdue⟩ := Option.bind_eq_some_iff.mp hj
      have hvisit : tagVisit due d j = d.alter mark.1 j (·.addTag mark.2) := by rw [tagVisit, hj]
      rw [hvisit, h.others d i j u mark hdue, (actsAt_alter _ j _ d).terms]
      by_cases hij : j = i
      · subst hij
        rw [List.getElem?_modify_eq, hu]
        exact h.own d j u mark hdue
      · rw [List.getElem?_modify_ne _ _ hij]
        exact hi.resolve_left (Ne.symm hij)

-- When the row has been gone through, nothing is due to any of its terms.
theorem DueOnce.after_forEach (h : DueOnce due) (d : Derivation) {i : Nat}
    (hi : i < d.terms.length) :
    ((d.forEach (tagVisit due)).terms[i]?).bind (due (d.forEach (tagVisit due)) i) = none := by
  have hfold : ∀ n, ∀ i < n,
      (((List.range n).foldl (tagVisit due) d).terms[i]?).bind
        (due ((List.range n).foldl (tagVisit due) d) i) = none := by
    intro n
    induction n with
    | zero => exact fun i hi => absurd hi (Nat.not_lt_zero i)
    | succ n ih =>
        intro i hi
        rw [List.range_succ, List.foldl_append, List.foldl_cons, List.foldl_nil]
        apply h.after_visit
        by_cases hin : i = n
        · exact .inl hin
        · exact .inr (ih i (by omega))
  exact hfold d.terms.length i hi

theorem length_forEach_tagVisit (d : Derivation) :
    (d.forEach (tagVisit due)).terms.length = d.terms.length :=
  forEach_keeps (P := fun e => e.terms.length = d.terms.length)
    (fun e i he => (length_tagVisit e i).trans he) rfl

theorem DueOnce.forEach_forEach (h : DueOnce due) (d : Derivation) :
    (d.forEach (tagVisit due)).forEach (tagVisit due) = d.forEach (tagVisit due) := by
  have hidle : ∀ (indices : List Nat) (e : Derivation),
      (∀ i ∈ indices, tagVisit due e i = e) → indices.foldl (tagVisit due) e = e := by
    intro indices e hall
    induction indices with
    | nil => rfl
    | cons i rest ih =>
        rw [List.forall_mem_cons] at hall
        rw [List.foldl_cons, hall.1, ih hall.2]
  apply hidle
  intro i hi
  rw [List.mem_range, length_forEach_tagVisit] at hi
  exact tagVisit_of_none (h.after_forEach d hi)

end Visits

theorem has_natCast (d : Derivation) (i : Nat) (f : Term → Bool) :
    d.has i f = ((d.terms.map f)[i]?).getD false := by
  rw [List.getElem?_map, has, show d.term? i = d.terms[i]? from rfl]
  cases d.terms[i]? <;> rfl

-- Whether the root before the term at `i` does not end in two consonants; without a root it does
-- not count as light.
def followsLightRoot (d : Derivation) (i : Nat) : Bool :=
  (d.lastBefore? i (·.hasTag .dhatu)).any fun (root : Nat) => !d.has root (·.isSamyoganta)

theorem classifySuffix_eq (d : Derivation) (i : Nat) :
    d.classifySuffix i = tagVisit (fun _ _ => Term.dueClass?) d i := by
  unfold classifySuffix tagVisit
  cases d.terms[i]? with
  | none => rfl
  | some t =>
      rw [Option.bind_some]
      dsimp only [Term.dueClass?]
      by_cases hno : (!t.hasTag .pratyaya || t.hasTagIn [.sarvadhatuka, .ardhadhatuka]) = true
      · rw [if_pos hno, if_pos hno]
      · rw [if_neg hno, if_neg hno]
        by_cases hperfect : t.isPerfectEnding = true
        · rw [if_pos hperfect, if_pos hperfect]
        · rw [if_neg hperfect, if_neg hperfect]
          by_cases hS : t.hasTagIn [.tin, .it .S] = true
          · rw [if_pos hS, if_pos hS]
          · rw [if_neg hS, if_neg hS]

theorem extendMarker_eq (d : Derivation) (i : Nat) :
    d.extendMarker i = tagVisit (fun d i => Term.dueMarker? (d.followsLightRoot i)) d i := by
  unfold extendMarker tagVisit
  cases d.terms[i]? with
  | none => rfl
  | some t =>
      rw [Option.bind_some]
      dsimp only [Term.dueMarker?]
      by_cases hno : (!t.hasTag .pratyaya || t.hasTag (.it .p)) = true
      · rw [if_pos hno, if_pos hno]
      · rw [if_neg hno, if_neg hno]
        by_cases hclass : t.hasTag .sarvadhatuka = true
        · rw [if_pos hclass, if_pos hclass]
          by_cases hN : t.hasTag (.it .N) = true
          · rw [if_pos hN, if_pos hN]
          · rw [if_neg hN, if_neg hN]
        · rw [if_neg hclass, if_neg hclass]
          by_cases hperfect : (t.isPerfectEnding && !t.hasTag (.it .k)) = true
          · rw [if_pos hperfect, hperfect, Bool.true_and, followsLightRoot]
            cases d.lastBefore? i (·.hasTag .dhatu) with
            | none => rfl
            | some root =>
                rw [Option.any_some]
                by_cases hheavy : d.has root (·.isSamyoganta) = true
                · dsimp only
                  rw [hheavy]
                  rfl
                · dsimp only
                  rw [Bool.eq_false_iff.mpr hheavy]
                  rfl
          · rw [if_neg hperfect, Bool.eq_false_iff.mpr hperfect, Bool.false_and]
            rfl

theorem classifySuffixes_eq_tagVisits (d : Derivation) :
    d.classifySuffixes = d.forEach (tagVisit fun _ _ => Term.dueClass?) := by
  rw [classifySuffixes, show classifySuffix = tagVisit fun _ _ => Term.dueClass? from
    funext fun d => funext fun i => classifySuffix_eq d i]

theorem extendMarkers_eq_tagVisits (d : Derivation) :
    d.extendMarkers = d.forEach (tagVisit fun d i => Term.dueMarker? (d.followsLightRoot i)) := by
  rw [extendMarkers, show extendMarker = tagVisit fun d i => Term.dueMarker? (d.followsLightRoot i)
    from funext fun d => funext fun i => extendMarker_eq d i]

theorem dueOnce_class : DueOnce fun _ _ => Term.dueClass? where
  own _ _ _ _ h := Term.dueClass?_addTag h
  others _ _ _ _ _ _ := rfl

-- What is heard of a root, and whether it is one, does not depend on markers.
theorem followsLightRoot_addTag {tag : Tag} (htag : tag ≠ .dhatu) (rule : Rule) (d : Derivation)
    (i j : Nat) : (d.alter rule j (·.addTag tag)).followsLightRoot i = d.followsLightRoot i := by
  have hterms := (actsAt_alter rule j (·.addTag tag) d).terms
  have hroots : (d.alter rule j (·.addTag tag)).lastBefore? i (·.hasTag .dhatu) =
      d.lastBefore? i (·.hasTag .dhatu) := by
    apply lastIndex?_eq_of_map
    rw [List.map_take, List.map_take, hterms,
      map_modify (fun t => Term.hasTag_addTag_of_ne (Ne.symm htag) t)]
  have hheavy (root : Nat) : (d.alter rule j (·.addTag tag)).has root (·.isSamyoganta) =
      d.has root (·.isSamyoganta) := by
    rw [has_natCast, has_natCast, hterms, map_modify fun t => show (t.addTag tag).isSamyoganta = t.isSamyoganta from rfl]
  rw [followsLightRoot, followsLightRoot, hroots]
  simp only [hheavy]

theorem dueOnce_marker : DueOnce fun d i => Term.dueMarker? (d.followsLightRoot i) where
  own _ _ _ _ h := Term.dueMarker?_addTag h
  others d i j u mark h := by
    have htag : mark.2 ≠ .dhatu := by
      rcases Term.mem_dueMarkers h with ⟨htag, -⟩ | ⟨htag, -⟩
      · rw [htag]
        decide
      · rw [htag]
        decide
    funext t
    rw [followsLightRoot_addTag htag]

-- A root that has been doubled is not doubled again.
theorem reduplicate_of_doubled {before after : List Term} {t : Term} (d : Derivation)
    (h : d.terms = before ++ t :: after) (ht : t.hasTag .dhatu = true)
    (hafter : ∀ u ∈ after, u.hasTag .dhatu = false) :
    (d.doubleAt before.length t).reduplicate = d.doubleAt before.length t := by
  have hrow := (doubleAt_shows h).1
  rw [List.append_cons] at hrow
  have hroot : (t.addTag .abhyasta).hasTag .dhatu = true :=
    (Term.hasTag_addTag_of_ne (by decide) t).trans ht
  rw [reduplicate_of_cut hrow hroot hafter, Term.hasTag_addTag_self, Bool.or_true, if_pos rfl]

theorem reduplicate_reduplicate (d : Derivation) : d.reduplicate.reduplicate = d.reduplicate := by
  rcases d.reduplicate_cases with heq | ⟨before, t, after, hterms, ht, hafter, -, -, heq⟩
  · rw [heq, heq]
  · rw [heq, reduplicate_of_doubled d hterms ht hafter]

-- Whatever is done by doubling a row again and again, it holds one more copy at the most.
theorem copies_of_reduplicate (d : Derivation) (n : Nat) :
    (reduplicate^[n] d).terms.countP (·.hasTag .abhyasa) ≤
      d.terms.countP (·.hasTag .abhyasa) + 1 := by
  cases n with
  | zero => exact Nat.le_succ _
  | succ n =>
      rw [Function.iterate_succ_apply, Function.iterate_fixed d.reduplicate_reduplicate]
      rcases d.reduplicate_cases with heq | ⟨before, t, after, hterms, -, -, -, -, heq⟩
      · rw [heq]
        exact Nat.le_succ _
      · have hroot : (t.addTag .abhyasta).hasTag .abhyasa = t.hasTag .abhyasa :=
          Term.hasTag_addTag_of_ne (by decide) t
        rw [heq, (doubleAt_shows hterms).1, hterms]
        simp only [List.countP_append, List.countP_cons, (isCopy_copyOf t).abhyasa, hroot, if_true]
        omega

-- The rules that class the suffixes, extend their markers and double the root may be applied again:
-- the second time they change nothing at all. So a root gets one copy however often its row is
-- doubled, and a suffix that has neither of the two classes never gets both.
theorem classifying_again_changes_nothing (d : Derivation) :
    d.classifySuffixes.classifySuffixes = d.classifySuffixes ∧
      d.extendMarkers.extendMarkers = d.extendMarkers ∧
      d.reduplicate.reduplicate = d.reduplicate ∧
      (∀ n, (reduplicate^[n] d).terms.countP (·.hasTag .abhyasa) ≤
        d.terms.countP (·.hasTag .abhyasa) + 1) ∧
      ∀ (i : Nat) (t : Term), d.terms[i]? = some t → t.hasTag .sarvadhatuka = false →
        t.hasTag .ardhadhatuka = false → ∃ u, d.classifySuffixes.terms[i]? = some u ∧
          (u.hasTag .sarvadhatuka && u.hasTag .ardhadhatuka) = false := by
  refine ⟨?_, ?_, d.reduplicate_reduplicate, d.copies_of_reduplicate, ?_⟩
  · rw [classifySuffixes_eq_tagVisits, classifySuffixes_eq_tagVisits]
    exact dueOnce_class.forEach_forEach d
  · rw [extendMarkers_eq_tagVisits, extendMarkers_eq_tagVisits]
    exact dueOnce_marker.forEach_forEach d
  · intro i t ht hsarva hardha
    refine ⟨t.classify, ?_, t.not_both_classify hsarva hardha⟩
    rw [(classifySuffixes_eq d).1, List.getElem?_map, ht, Option.map_some]

end Derivation

end Vyakarana
