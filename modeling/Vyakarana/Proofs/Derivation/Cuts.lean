import Vyakarana.Grammar.FinalSandhi
import Vyakarana.Proofs.Derivation.Frame

/-!
The running text around a term.

A change of one term is a change of one stretch of the running text. The last term with text ends
the word, so that the last sound of the text is its last sound.
-/

namespace Vyakarana

section Searches

variable {f : Term → Bool} {ts before after : List Term} {t : Term} {i : Nat}

theorem lastIndex?_eq_none : lastIndex? f ts = none ↔ ∀ t ∈ ts, f t = false := by
  induction ts with
  | nil => simp [lastIndex?]
  | cons t rest ih =>
      rw [lastIndex?, List.forall_mem_cons]
      cases hrest : lastIndex? f rest with
      | some i =>
          rw [hrest] at ih
          simp only [reduceCtorEq, false_iff] at ih ⊢
          exact fun h => ih h.2
      | none => simp [← ih, hrest]

-- The last term of a kind: it is of that kind, and no later one is.
theorem cut_of_lastIndex? (h : lastIndex? f ts = some i) :
    ∃ before t after, ts = before ++ t :: after ∧ before.length = i ∧ f t = true ∧
      ∀ u ∈ after, f u = false := by
  induction ts generalizing i with
  | nil => cases h
  | cons t rest ih =>
      rw [lastIndex?] at h
      split at h
      · rename_i j hj
        cases h
        obtain ⟨before, u, after, rfl, hlength, hu, hafter⟩ := ih hj
        exact ⟨t :: before, u, after, rfl, by rw [List.length_cons, hlength], hu, hafter⟩
      · rename_i hnone
        split at h
        · rename_i ht
          cases h
          exact ⟨[], t, rest, rfl, rfl, ht, lastIndex?_eq_none.mp hnone⟩
        · cases h

theorem exists_of_lastIndex? (h : lastIndex? f ts = some i) :
    ∃ t, ts[i]? = some t ∧ f t = true := by
  obtain ⟨before, t, after, rfl, rfl, ht, -⟩ := cut_of_lastIndex? h
  exact ⟨t, by simp, ht⟩

theorem exists_of_findIdx? (h : ts.findIdx? f = some i) : ∃ t, ts[i]? = some t ∧ f t = true := by
  obtain ⟨hi, hf, -⟩ := List.findIdx?_eq_some_iff_getElem.mp h
  exact ⟨ts[i], List.getElem?_eq_getElem hi, hf⟩

end Searches

namespace Term

variable {t : Term} {x : Char}

theorem cut_adi (h : t.adi? = some x) :
    ∃ rest, t.text = x :: rest ∧ ∀ s, (t.substituteAdi s).text = s ++ rest := by
  obtain ⟨rest, htext⟩ := List.head?_eq_some_iff.mp h
  refine ⟨rest, htext, fun s => ?_⟩
  simp [substituteAdi, setAdi, setText, htext]

theorem cut_antya (h : t.antya? = some x) :
    ∃ init, t.text = init ++ [x] ∧ ∀ s, (t.setAntya s).text = init ++ s := by
  obtain ⟨init, htext⟩ := List.getLast?_eq_some_iff.mp h
  refine ⟨init, htext, fun s => ?_⟩
  simp [setAntya, setText, htext]

theorem cut_upadha (h : t.upadha? = some x) :
    ∃ init last, t.text = init ++ [x, last] ∧ ∀ s, (t.setUpadha s).text = init ++ s ++ [last] := by
  obtain ⟨init, hinit⟩ := List.getLast?_eq_some_iff.mp h
  obtain ⟨last, hlast⟩ : ∃ last, t.text = t.text.dropLast ++ [last] := by
    rcases List.eq_nil_or_concat t.text with hnil | ⟨front, last, hconcat⟩
    · rw [hnil] at hinit
      simp at hinit
    · exact ⟨last, by rw [hconcat, List.concat_eq_append, List.dropLast_concat]⟩
  rw [hinit] at hlast
  refine ⟨init, last, by simpa using hlast, fun s => ?_⟩
  have hantya : t.antya? = some last := by simp [antya?, hlast]
  simp [setUpadha, h, hantya, setText, hinit]

end Term

namespace Derivation

variable {d : Derivation} {i : Nat} {t : Term}

theorem terms_update (i : Nat) (f : Term → Term) (d : Derivation) :
    (d.update i f).terms = d.terms.modify i f := rfl

theorem terms_update_of_cut {before after : List Term} (h : d.terms = before ++ t :: after)
    (hi : before.length = i) (f : Term → Term) :
    (d.update i f).terms = before ++ f t :: after := by
  rw [terms_update, h, ← hi, List.modify_eq_take_drop]
  simp

-- The row is cut around a term.
theorem cut_term (h : d.terms[i]? = some t) :
    ∃ before after, d.terms = before ++ t :: after ∧ before.length = i := by
  obtain ⟨hi, hget⟩ := List.getElem?_eq_some_iff.mp h
  refine ⟨d.terms.take i, d.terms.drop (i + 1), ?_, ?_⟩
  · rw [← hget, List.getElem_cons_drop, List.take_append_drop]
  · rw [List.length_take, Nat.min_eq_left (Nat.le_of_lt hi)]

-- The running text is cut around the text of a term.
theorem cut_text (h : d.terms[i]? = some t) :
    ∃ before after : Text, d.text = before ++ t.text ++ after ∧
      ∀ f, (d.update i f).text = before ++ (f t).text ++ after := by
  obtain ⟨before, after, hterms, hi⟩ := cut_term h
  refine ⟨before.flatMap (·.text), after.flatMap (·.text), ?_, fun f => ?_⟩
  · simp [text, hterms]
  · simp [text, terms_update_of_cut hterms hi]

-- The last term with text ends the running text.
theorem cut_lastHeard (h : d.lastHeard? = some i) :
    ∃ t, d.terms[i]? = some t ∧ t.text ≠ [] ∧ ∃ before : Text, d.text = before ++ t.text ∧
      ∀ f, (d.update i f).text = before ++ (f t).text := by
  obtain ⟨before, t, after, hterms, hi, hheard, hafter⟩ := cut_of_lastIndex? h
  have hsilent : after.flatMap (·.text) = [] := by
    rw [List.flatMap_eq_nil_iff]
    exact fun u hu => by simpa [Term.isEmpty] using hafter u hu
  refine ⟨t, by simp [hterms, ← hi], by simpa [Term.isEmpty] using hheard,
    before.flatMap (·.text), ?_, fun f => ?_⟩
  · simp [text, hterms, hsilent]
  · simp [text, terms_update_of_cut hterms hi, hsilent]

end Derivation

end Vyakarana
