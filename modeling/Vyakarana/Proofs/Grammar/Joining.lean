import Vyakarana.Proofs.Derivation.Outline
import Vyakarana.Proofs.Grammar.FinalSandhi
import Vyakarana.Proofs.Grammar.VowelSandhi

/-!
What stays as it is where sounds meet.

From the vowels that meet to the end of the word, the rules change what is heard of the terms and
write down what they did. A view of the derivation in which neither is seen is the same before them
and after them, also when a rule is cut short.
-/

namespace Vyakarana

-- Terms that are alike but for their text are of one kind.
theorem Term.kind_eq_of_elide {t t' : Term} (h : t'.elide = t.elide) : t'.kind = t.kind := by
  rw [← kind_elide t', h, kind_elide]

theorem Term.elide_substituteAdi (s : Text) (t : Term) : (t.substituteAdi s).elide = t.elide := by
  unfold substituteAdi
  split <;> rfl

theorem Term.elide_setAntya (s : Text) (t : Term) : (t.setAntya s).elide = t.elide := by
  unfold setAntya
  split <;> rfl

theorem Term.elide_setUpadha (s : Text) (t : Term) : (t.setUpadha s).elide = t.elide := by
  unfold setUpadha
  split <;> rfl

namespace Derivation

theorem FinishingChange.elide {rule : Rule} {change : Term → Term} (h : FinishingChange rule change)
    (t : Term) : (change t).elide = t.elide := by
  cases h with
  | clusterReduced | rForS | visarga => exact Term.elide_setAntya _ t
  | longVowel => exact Term.elide_setUpadha _ t
  | plainCopy => exact Term.elide_substituteAdi _ t

-- A view of a derivation that shows neither what is heard of its terms nor what is written down of
-- its steps.
structure Silent {α : Type} (view : Derivation → α) : Prop where
  record : ∀ rule d, view (d.record rule) = view d
  splice : ∀ k sub d, view (d.splice k sub) = view d
  update : ∀ {f : Term → Term}, (∀ t, (f t).elide = t.elide) → ∀ i d, view (d.update i f) = view d

-- Such a view that does not show the marks of the terms either, or the choices.
structure Unheard {α : Type} (view : Derivation → α) : Prop where
  record : ∀ rule d, view (d.record rule) = view d
  splice : ∀ k sub d, view (d.splice k sub) = view d
  update : ∀ {f : Term → Term}, (∀ t, (f t).kind = t.kind) → ∀ i d, view (d.update i f) = view d
  accept : ∀ rule d, view (d.accept rule) = view d
  decline : ∀ rule d, view (d.decline rule) = view d

theorem Unheard.silent {α : Type} {view : Derivation → α} (h : Unheard view) : Silent view where
  record := h.record
  splice := h.splice
  update hf := h.update fun t => Term.kind_eq_of_elide (hf t)

end Derivation

-- Whatever the rule does, the view of the derivation is the same.
def SoundRule.Respects {α : Type} (view : Derivation → α) (r : SoundRule) : Prop :=
  ∀ s, view (r.act s).1 = view s.derivation

-- If the rule ends well, the view of the derivation is the same.
def Outcome.Respects {α : Type} (view : Derivation → α) (o : Outcome) (d : Derivation) : Prop :=
  o.Ends (fun e => view e = view d) fun _ => True

section

variable {α : Type} {view : Derivation → α} {o : Outcome} {d : Derivation}

theorem Outcome.Respects.andThen (h : o.Respects view d) (next : Derivation → Outcome)
    (hnext : ∀ e, (next e).Respects view e) : (o.andThen next).Respects view d :=
  Ends.andThen h next fun e he => (hnext e).imp (fun _ hf => hf.trans he) fun _ h => h

theorem Outcome.Respects.map (h : o.Respects view d) (f : Derivation → Derivation)
    (hf : ∀ e, view (f e) = view e) : (o.map f).Respects view d :=
  Ends.map h f fun e he => (hf e).trans he

end

namespace Derivation.Silent

open SoundRule

variable {α : Type} {view : Derivation → α} (h : Silent view)

include h

theorem alter {f : Term → Term} (hf : ∀ t, (f t).elide = t.elide) (rule : Rule) (i : Int)
    (d : Derivation) : view (d.alter rule i f) = view d := by
  unfold Derivation.alter
  split
  · rw [h.record, h.update hf]
  · rfl

-- Exchanges of sounds are not seen.
theorem exchange {may : Rule → Text → Prop} {s : Site} {e : Derivation} (hs : s.Exchange may e) :
    view e = view s.derivation := by
  cases hs with
  | still => rfl
  | here | next => exact (h.record _ _).trans (h.splice _ _ _)
  | both => exact (h.record _ _).trans ((h.splice _ _ _).trans (h.splice _ _ _))

theorem exchanges {r : SoundRule} {may : Rule → Text → Prop} (hr : r.Exchanges may) :
    r.Respects view :=
  fun s => h.exchange (hr s)

theorem pass (p : ConsonantPass) (d : Derivation) :
    (d.pass p).Leaves (fun e => view e = view d) := by
  rcases d.pass_rests p with ⟨r, e, hok, hrests, hdone, -⟩ | ⟨fault, -, hfail, -⟩
  · rw [hdone]
    exact hrests.relates (R := fun d e => view e = view d) (fun _ => rfl)
      (fun _ _ _ hde hef => hef.trans hde) (h.exchanges (ConsonantPass.exchanges_of_rule hok))
  · rw [hfail]
    exact rfl

-- Nor are alterations of the text of a term.
theorem finishing {d e : Derivation} (halters : Alters (fun _ _ => FinishingChange) d e) :
    view e = view d :=
  halters.relates (R := fun d e => view e = view d) (fun _ => rfl)
    (fun _ _ _ hcd hde => hde.trans hcd)
    fun e i _ rule _ _ hchange => h.alter hchange.elide rule i e

theorem deaspirateCopy (d : Derivation) :
    d.deaspirateCopy.Leaves (fun e => view e = view d) := by
  rcases d.deaspirateCopy_alters with ⟨e, hdone, halters⟩ | ⟨fault, hfail, -⟩
  · rw [hdone]
    exact h.finishing halters
  · rw [hfail]
    exact rfl

-- The two chapters of rules in which sounds meet.
theorem joinVowels (d : Derivation) : ∃ e, d.joinVowels = .done e ∧ view e = view d := by
  obtain ⟨e, hdone, hturn⟩ := d.joinVowels_rests
  exact ⟨e, hdone, hturn.relates (R := fun d e => view e = view d) (fun _ => rfl)
    (fun _ _ _ hde hef => hef.trans hde)
    fun r hr => h.exchanges (exchanges_of_mem_vowelRules hr)⟩

-- The view is the same up to the last of the optional rules.
theorem joinConsonants {d : Derivation} {Q : Derivation → Prop} (hQ : ∀ e, view e = view d → Q e)
    (hfinal : ∀ e, view e = view d → e.devoiceFinal.Leaves Q)
    (hnasal : ∀ e, Q e → (e.pass .nasal).Leaves Q) : d.joinConsonants.Leaves Q := by
  have hthen {o : Derivation → Outcome} (ho : ∀ e, (o e).Leaves (fun f => view f = view e))
      (e : Derivation) (he : view e = view d) : (o e).Leaves (fun f => view f = view d) :=
    Outcome.Leaves.imp (ho e) fun _ hf => hf.trans he
  have hfinish := (hthen (h.pass .throat) _ (h.finishing (alters_dropFinalOfCluster d))).map
    finishWord fun e he => (h.finishing (alters_finishWord e)).trans he
  have hsoft := ((((hfinish.andThen _ (hthen (h.pass .anusvara))).andThen _
    (hthen (h.pass .suffixS))).andThen _ (hthen (h.pass .palatal))).andThen _
    (hthen (h.pass .retroflex))).andThen _ (hthen (h.pass .soft))
  have hhard := (hsoft.andThen _ (hthen h.deaspirateCopy)).andThen _ (hthen (h.pass .hard))
  rw [joinConsonants_eq]
  exact (hhard.andThen_imp _ hfinal hQ).andThen _ hnasal

end Derivation.Silent

namespace Derivation.Unheard

variable {α : Type} {view : Derivation → α} (h : Unheard view)

include h

theorem optionally {f : Term → Term} (hf : ∀ t, (f t).kind = t.kind) (rule : Rule) (i : Int)
    (d : Derivation) : view (d.optionally rule (·.update i f)).2 = view d := by
  rcases optionally_cases rule (·.update i f) d with ⟨-, heq⟩ | ⟨-, heq⟩
  · rw [heq, h.record, h.update hf, h.accept]
  · rw [heq, h.decline]

theorem devoiceFinal (d : Derivation) : d.devoiceFinal.Leaves (fun e => view e = view d) := by
  rcases d.devoiceFinal_cases with heq | ⟨fault, -, heq⟩ |
    ⟨_, _, _, _, _, -, -, -, -, -, -, -, -, heq⟩
  · rw [heq]
    exact rfl
  · rw [heq]
    exact rfl
  · rw [heq]
    exact h.optionally (Term.kind_setAntya _) _ _ d

theorem joinVowels (d : Derivation) : d.joinVowels.Respects view d := by
  obtain ⟨e, hdone, hview⟩ := h.silent.joinVowels d
  rw [hdone]
  exact hview

theorem joinConsonants (d : Derivation) : d.joinConsonants.Respects view d := by
  have hleaves : d.joinConsonants.Leaves (fun e => view e = view d) :=
    h.silent.joinConsonants (fun _ he => he)
      (fun e he => Outcome.Leaves.imp (h.devoiceFinal e) fun _ hf => hf.trans he)
      fun e he => Outcome.Leaves.imp (h.silent.pass .nasal e) fun _ hf => hf.trans he
  exact hleaves.ends

end Derivation.Unheard

namespace Derivation

theorem map_kind_spliceTerms (row : List Term) (k : Nat) (sub : Text) :
    (spliceTerms row k sub).map Term.kind = row.map Term.kind := by
  induction row generalizing k with
  | nil => rfl
  | cons t rest ih =>
      unfold spliceTerms
      split
      · rfl
      · rw [List.map_cons, List.map_cons, ih]

-- What the terms are is not seen in what is heard of them.
theorem unheard_outline : Unheard outline where
  record rule d := by rw [outline, terms_record, outline]
  splice k sub d := by
    unfold splice
    split
    · exact map_kind_spliceTerms _ _ _
    · rfl
  update hf i d := by
    unfold update
    split
    · rename_i n _
      exact RecastsAt.outline ⟨_, hf, actsAt_update n _ d⟩
    · rfl
  accept _ _ := rfl
  decline _ _ := rfl

theorem unheard_tags : Unheard Derivation.tags where
  record := tags_record
  splice k sub d := by
    unfold splice
    split <;> rfl
  update _ i d := by
    unfold update
    split <;> rfl
  accept _ _ := rfl
  decline _ _ := rfl

end Derivation

end Vyakarana
