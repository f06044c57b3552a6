import Vyakarana.Grammar.Conjugation
import Vyakarana.Proofs.Derivation.Row
import Vyakarana.Proofs.Grammar.Stripping

/-!
Rules that concern one term.

Many rules look at one term of the row, and at nothing else. What they do to the derivation is
what they do to this term; the definitions here say what that is, and the theorems that the rules do
just this.
-/

namespace Vyakarana

namespace Term

-- A taught term without its markers.
def stripped (u : Text) (t : Term) : Term := (Stripping.run t u).term

-- 6.1.64 and 6.1.65
def replaceInitial (t : Term) : Term :=
  if t.adi? == some 'z' then
    if t.hasTextIn keepsZ then t
    else if t.startsWithAny ["zw".toList, "zW".toList, "zR".toList] then
      t.setText (dentalize t.text)
    else t.substituteAdi ['s']
  else if t.adi? == some 'R' then t.substituteAdi ['n']
  else t

-- 7.1.58
def nasalize (t : Term) : Term := if t.hasTag (.it .i) then t.insertAfterVowel ['n'] else t

-- 3.4.113 to 3.4.115
def classify (t : Term) : Term :=
  if !t.hasTag .pratyaya || t.hasTagIn [.sarvadhatuka, .ardhadhatuka] then t
  else if t.isPerfectEnding then t.addTag .ardhadhatuka
  else if t.hasTagIn [.tin, .it .S] then t.addTag .sarvadhatuka
  else t.addTag .ardhadhatuka

-- A new taught form in the place of a term, without its markers.
def substituted (u : Text) (t : Term) : Term := (t.setUpadesha u).stripped u

-- 3.4.79 and 3.4.80
def fitWit (t : Term) : Term :=
  if t.hasText "TAs".toList then t.substituted "se".toList else t.substituteTi ['e']

-- 3.4.81 and 3.4.82
def fitPerfect (t : Term) : Term :=
  if t.hasTag (.pada .atmanepada) then
    match corresponding? t.text ["ta".toList, "Ja".toList] ["eS".toList, "irec".toList] with
    | some sub => (t.substituted sub).removeTag (.it .S)
    | none => t.fitWit
  else
    match corresponding? t.text parasmaipadaTexts perfectEndings with
    | some sub => t.substituted sub
    | none => t

-- 3.4.86 to 3.4.93
def fitImperativeFinal (t : Term) : Term :=
  if t.hasText "si".toList then (t.setUpadesha "hi".toList).removeTag (.it .p)
  else if t.hasText "mi".toList then t.setText "ni".toList
  else if t.antya? == some 'i' then t.setAntya ['u']
  else if t.antya? == some 'e' then
    if t.hasTag (.purusha .uttama) then t.setAntya ['E']
    else if "se".toList.isSuffixOf t.text then
      t.setText (t.text.dropLast.dropLast ++ "sva".toList)
    else if "ve".toList.isSuffixOf t.text then
      t.setText (t.text.dropLast.dropLast ++ "vam".toList)
    else t.setAntya "Am".toList
  else t

-- 3.4.101
def fitNitText (t : Term) : Term :=
  match corresponding? t.text nitTexts nitEndings with
  | some sub => t.setText sub
  | none => t

-- 3.4.99
def dropNitS (t : Term) : Term :=
  if t.hasTag (.purusha .uttama) && t.antya? == some 's' then t.setAntya [] else t

-- 3.4.100
def dropNitI (keepsI : Bool) (t : Term) : Term :=
  if t.antya? == some 'i' && !keepsI then t.setAntya [] else t

-- 3.4.101, 3.4.99 and 3.4.100
def fitNit (keepsI : Bool) (t : Term) : Term :=
  if t.fitNitText.hasTag (.pada .parasmaipada) then t.fitNitText.dropNitS.dropNitI keepsI
  else t.fitNitText

-- Guna and vrddhi set the last sound of a root or the one before it.
def SetsVowel (change : Term → Term) : Prop :=
  ∃ s, change = (·.setAntya s) ∨ change = (·.setUpadha s)

section Strengthening

variable {root : Term} {suffix : View} {rule : Rule} {change : Term → Term}

-- What a suffix may make of a root: the rule, and the change to its last sounds.
inductive Strengthens (root : Term) : Rule → (Term → Term) → Prop
  | vrddhi {final : Char} (hfinal : root.antya? = some final) (hac : Sound.isAc final = true) :
      Strengthens root "7.2.115" (·.setAntya (vrddhiText final))
  | vrddhiOfA : Strengthens root "7.2.116" (·.setUpadha ['A'])
  | guna {final : Char} (hfinal : root.antya? = some final)
      (hik : SoundClass.ik.contains final = true) :
      Strengthens root "7.3.84" (·.setAntya (gunaText final))
  | gunaOfUpadha {vowel : Char} (hvowel : root.upadha? = some vowel)
      (hik : SoundClass.ik.contains vowel = true) :
      Strengthens root "7.3.86" (·.setUpadha (gunaText vowel))
  | gunaOfMid : Strengthens root "7.3.82" (·.setUpadha ['e'])

theorem strengthens_of_vrddhiChange? (h : root.vrddhiChange? = some (rule, change)) :
    root.Strengthens rule change := by
  unfold vrddhiChange? at h
  repeat' split at h
  all_goals cases h
  · exact .vrddhi ‹_› ‹_›
  · exact .vrddhiOfA

theorem strengthens_of_gunaChange? (h : root.gunaChange? = some (rule, change)) :
    root.Strengthens rule change := by
  unfold gunaChange? at h
  repeat' split at h
  all_goals cases h
  · exact .guna ‹_› ‹_›
  · rename_i hvowel hshort
    simp only [Bool.and_eq_true] at hshort
    exact .gunaOfUpadha hvowel hshort.1.1

theorem strengthens_of_strengthening? (h : root.strengthening? suffix = some (rule, change)) :
    root.Strengthens rule change := by
  unfold strengthening? at h
  repeat' split at h
  · cases h
  · cases h
    exact .gunaOfMid
  · cases h
  · rcases Option.or_eq_some_iff.mp h with hvrddhi | ⟨-, hguna⟩
    · exact strengthens_of_vrddhiChange? hvrddhi
    · exact strengthens_of_gunaChange? hguna
  · exact strengthens_of_gunaChange? h

theorem Strengthens.setsVowel (h : root.Strengthens rule change) : SetsVowel change := by
  cases h with
  | vrddhi | guna => exact ⟨_, .inl rfl⟩
  | vrddhiOfA | gunaOfUpadha | gunaOfMid => exact ⟨_, .inr rfl⟩

theorem Strengthens.kind (h : root.Strengthens rule change) (t : Term) :
    (change t).kind = t.kind := by
  obtain ⟨s, rfl | rfl⟩ := h.setsVowel
  · exact kind_setAntya s t
  · exact kind_setUpadha s t

end Strengthening

end Term

namespace Derivation

variable {d e : Derivation}

theorem actsAt_replay_steps (i : Nat) (steps : List (Rule × Term)) (d : Derivation) :
    ∃ f, ActsAt i f d (steps.foldl (fun d (rule, t) => (d.update i fun _ => t).record rule) d) := by
  induction steps generalizing d with
  | nil => exact ⟨id, actsAt_id i d⟩
  | cons x rest ih =>
      obtain ⟨f, hf⟩ := ih ((d.update i fun _ => x.2).record x.1)
      exact ⟨_, ((actsAt_update i _ d).record x.1).trans hf⟩

-- If a term loses its markers, all else stays as it is.
theorem dropMarkers_ends {i : Nat} {t : Term} {u : Text} (ht : d.terms[i]? = some t)
    (hu : t.upadesha = some u) :
    (d.dropMarkers i).Ends (ActsAt i (Term.stripped u) d) fun _ => True := by
  rw [dropMarkers_of_taught (show d.term? (i : Int) = some t from ht) hu]
  unfold replay
  dsimp only
  split
  · obtain ⟨f, hf⟩ := actsAt_replay_steps i (Stripping.run t u).steps d
    refine (hf.trans (actsAt_update i (fun _ => (Stripping.run t u).term) _)).congr fun t' ht' => ?_
    cases ht.symm.trans ht'
    rfl
  · trivial

theorem insertTerm_ends {before after : List Term} (h : d.terms = before ++ after) {t : Term}
    {u : Text} (hu : t.upadesha = some u) (rule : Rule) :
    (((d.insertTerm before.length t).record rule).dropMarkers (before.length : Int)).Ends
      (fun e => e.terms = before ++ t.stripped u :: after ∧ e.rest = d.rest) fun _ => True := by
  have hrow : ((d.insertTerm before.length t).record rule).terms = before ++ t :: after := by
    rw [terms_record, terms_insertTerm_of_cut h]
  refine (dropMarkers_ends (term_of_cut hrow) hu).imp (fun e he => ?_) fun _ h => h
  refine ⟨he.terms_of_cut hrow rfl, he.rest.trans ?_⟩
  rw [rest_record, rest_insertTerm]

theorem substitute_ends (rule : Rule) (i : Nat) (sub : Text) (d : Derivation) :
    (d.substitute rule i sub).Ends (ActsAt i (Term.substituted sub) d) fun _ => True := by
  have hset := (actsAt_update i (·.setUpadesha sub) d).record rule
  unfold substitute
  split
  · rename_i hsome
    obtain ⟨t, ht⟩ := Option.isSome_iff_exists.mp hsome
    have hterm : ((d.update i (·.setUpadesha sub)).record rule).terms[i]? =
        some (t.setUpadesha sub) := by
      rw [hset.terms, List.getElem?_modify_eq, show d.terms[i]? = some t from ht]
      rfl
    exact (dropMarkers_ends hterm rfl).imp (fun e he => hset.trans he) fun _ h => h
  · rename_i hnone
    refine (actsAt_id i d).congr fun t ht => ?_
    exact absurd (Option.isSome_iff_exists.mpr ⟨t, ht⟩) hnone

theorem actsAt_replaceInitial (i : Nat) (d : Derivation) :
    ActsAt i Term.replaceInitial d (d.replaceInitial i) := by
  unfold replaceInitial
  split
  · rename_i hnone
    exact actsAt_of_none _ hnone
  · rename_i t ht
    split
    · rename_i hz
      split
      · rename_i hkeeps
        exact ((actsAt_id i d).record _).at ht (by rw [Term.replaceInitial, if_pos hz, if_pos hkeeps]; rfl)
      · rename_i hkeeps
        split
        · rename_i hstarts
          exact (actsAt_alter _ i _ d).at ht
            (by rw [Term.replaceInitial, if_pos hz, if_neg hkeeps, if_pos hstarts])
        · rename_i hstarts
          exact (actsAt_alter _ i _ d).at ht
            (by rw [Term.replaceInitial, if_pos hz, if_neg hkeeps, if_neg hstarts])
    · rename_i hz
      split
      · rename_i hR
        exact (actsAt_alter _ i _ d).at ht (by rw [Term.replaceInitial, if_neg hz, if_pos hR])
      · rename_i hR
        exact (actsAt_id i d).at ht (by rw [Term.replaceInitial, if_neg hz, if_neg hR]; rfl)

theorem actsAt_nasalizeRoot (i : Nat) (d : Derivation) :
    ActsAt i Term.nasalize d (d.nasalizeRoot i) := by
  have hact := actsAt_ite (·.hasTag (.it .i))
    (actsAt_alter "7.1.58" i (·.insertAfterVowel ['n']) d)
  unfold nasalizeRoot alterIf
  split
  · rename_i hyes
    rwa [if_pos hyes] at hact
  · rename_i hno
    rwa [if_neg hno] at hact

theorem actsAt_classifySuffix (d : Derivation) (i : Nat) :
    ActsAt i Term.classify d (d.classifySuffix i) := by
  unfold classifySuffix
  split
  · rename_i hnone
    exact actsAt_of_none _ hnone
  · rename_i t ht
    split
    · rename_i hclassed
      exact (actsAt_id i d).at ht (by rw [Term.classify, if_pos hclassed]; rfl)
    · rename_i hclassed
      split
      · rename_i hperfect
        exact (actsAt_alter _ i _ d).at ht (by rw [Term.classify, if_neg hclassed, if_pos hperfect])
      · rename_i hperfect
        split
        · rename_i hS
          exact (actsAt_alter _ i _ d).at ht
            (by rw [Term.classify, if_neg hclassed, if_neg hperfect, if_pos hS])
        · rename_i hS
          exact (actsAt_alter _ i _ d).at ht
            (by rw [Term.classify, if_neg hclassed, if_neg hperfect, if_neg hS])

theorem classifySuffixes_eq (d : Derivation) :
    d.classifySuffixes.terms = d.terms.map Term.classify ∧ d.classifySuffixes.rest = d.rest :=
  forEach_of_actsAt actsAt_classifySuffix d

theorem fitWit_ends (i : Nat) (d : Derivation) :
    (d.fitWit i).Ends (ActsAt i Term.fitWit d) fun _ => True := by
  have hhas {t : Term} (ht : d.terms[i]? = some t) (f : Term → Bool) : d.has i f = f t := by
    rw [has, show d.term? (i : Int) = some t from ht, Option.any_some]
  unfold fitWit
  split
  · rename_i hyes
    refine (substitute_ends _ i _ d).imp (fun e he => he.congr fun t ht => ?_) fun _ h => h
    rw [hhas ht] at hyes
    rw [Term.fitWit, if_pos hyes]
  · rename_i hno
    refine (actsAt_alter _ i _ d).congr fun t ht => ?_
    rw [hhas ht] at hno
    rw [Term.fitWit, if_neg hno]

theorem fitPerfect_ends (i : Nat) (d : Derivation) :
    (d.fitPerfect i).Ends (ActsAt i Term.fitPerfect d) fun _ => True := by
  unfold fitPerfect
  split
  · rename_i hnone
    exact actsAt_of_none _ hnone
  · rename_i t ht
    split
    · rename_i hpada
      split
      · rename_i sub hsub
        refine (substitute_ends _ i sub d).map _ fun e he => ?_
        refine (he.trans (actsAt_update i _ e)).at ht ?_
        rw [Term.fitPerfect, if_pos hpada, hsub]
        rfl
      · rename_i hsub
        refine (fitWit_ends i d).imp (fun e he => he.at ht ?_) fun _ h => h
        rw [Term.fitPerfect, if_pos hpada, hsub]
    · rename_i hpada
      split
      · rename_i sub hsub
        refine (substitute_ends _ i sub d).imp (fun e he => he.at ht ?_) fun _ h => h
        rw [Term.fitPerfect, if_neg hpada, hsub]
      · rename_i hsub
        refine (actsAt_id i d).at ht ?_
        rw [Term.fitPerfect, if_neg hpada, hsub]
        rfl

theorem actsAt_fitImperativeFinal (i : Nat) (d : Derivation) :
    ActsAt i Term.fitImperativeFinal d (d.fitImperativeFinal i) := by
  unfold fitImperativeFinal
  split
  · rename_i hnone
    exact actsAt_of_none _ hnone
  · rename_i t ht
    repeat' split
    all_goals first
      | exact (actsAt_alter _ i _ d).at ht (by simp_all [Term.fitImperativeFinal])
      | exact (actsAt_id i d).at ht (by simp_all [Term.fitImperativeFinal])

theorem actsAt_fitNit (i : Nat) (keepsI : Bool) (d : Derivation) :
    ActsAt i (Term.fitNit keepsI) d (d.fitNit i keepsI) := by
  have htext : ActsAt i Term.fitNitText d
      (match (d.terms[i]?).bind fun t => corresponding? t.text nitTexts nitEndings with
      | some sub => d.alter "3.4.101" i (·.setText sub)
      | none => d) := by
    rcases ht : d.terms[i]? with _ | t
    · exact actsAt_of_none _ ht
    · rw [Option.bind_some]
      split
      · rename_i sub hsub
        exact (actsAt_alter _ i _ d).at ht (by rw [Term.fitNitText, hsub])
      · rename_i hsub
        exact (actsAt_id i d).at ht (by rw [Term.fitNitText, hsub]; rfl)
  have hS (e : Derivation) : ActsAt i Term.dropNitS e
      (if e.has i fun t => t.hasTag (.purusha .uttama) && t.antya? == some 's' then
        e.alter "3.4.99" i (·.setAntya []) else e) :=
    actsAt_ite _ (actsAt_alter _ i _ e)
  have hI (e : Derivation) : ActsAt i (Term.dropNitI keepsI) e
      (if e.has i (fun t => t.antya? == some 'i') && !keepsI then
        e.alter "3.4.100" i (·.setAntya []) else e) := by
    cases keepsI with
    | true =>
        rw [if_neg (by simp)]
        exact (actsAt_id i e).congr fun t _ => by simp [Term.dropNitI]
    | false =>
        simp only [Bool.not_false, Bool.and_true]
        exact (actsAt_ite _ (actsAt_alter _ i _ e)).congr fun t _ => by simp [Term.dropNitI]
  have hends (e : Derivation) := actsAt_ite (·.hasTag (.pada .parasmaipada))
    ((hS e).trans (hI _))
  exact htext.trans (hends _)

end Derivation

end Vyakarana
