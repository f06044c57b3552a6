import Vyakarana.Proofs.Derivation.Alteration

/-!
Texts of sounds.

A text is spoken if each of its characters is a sound of the alphabet, and a derivation is if its
terms are. What takes sounds out of a text, or puts a spoken text in their place, leaves it so, and
most changes of terms and of derivations do nothing else.
-/

namespace Vyakarana

namespace Text

def Spoken (t : Text) : Prop := ∀ c ∈ t, c ∈ Sound.alphabet

instance (t : Text) : Decidable t.Spoken :=
  inferInstanceAs (Decidable (∀ c ∈ t, c ∈ Sound.alphabet))

variable {s t needle : Text} {c : Char}

theorem spoken_nil : Spoken [] := fun _ h => absurd h List.not_mem_nil

@[simp] theorem spoken_cons : Spoken (c :: t) ↔ c ∈ Sound.alphabet ∧ t.Spoken :=
  List.forall_mem_cons

@[simp] theorem spoken_append : Spoken (s ++ t) ↔ s.Spoken ∧ t.Spoken := List.forall_mem_append

theorem spoken_singleton : Spoken [c] ↔ c ∈ Sound.alphabet := List.forall_mem_singleton

theorem Spoken.sublist (h : t.Spoken) (hs : s.Sublist t) : s.Spoken :=
  fun c hc => h c (hs.subset hc)

theorem Spoken.take (h : t.Spoken) (n : Nat) : Spoken (t.take n) :=
  h.sublist (List.take_sublist n t)

theorem Spoken.drop (h : t.Spoken) (n : Nat) : Spoken (t.drop n) :=
  h.sublist (List.drop_sublist n t)

theorem Spoken.dropLast (h : t.Spoken) : Spoken t.dropLast := h.sublist (List.dropLast_sublist t)

theorem Spoken.replaceFrom (h : t.Spoken) (hs : s.Spoken) (needle : Text) (skip : Nat) :
    (Text.replaceFrom needle s skip t).Spoken := by
  induction t generalizing skip with
  | nil => cases skip <;> exact spoken_nil
  | cons c rest ih =>
      obtain ⟨hc, hrest⟩ := spoken_cons.mp h
      cases skip with
      | succ skip => exact ih hrest skip
      | zero =>
          rw [Text.replaceFrom]
          split
          · exact spoken_append.mpr ⟨hs, ih hrest _⟩
          · exact spoken_cons.mpr ⟨hc, ih hrest 0⟩

theorem Spoken.replaceAll (h : t.Spoken) (hs : s.Spoken) (needle : Text) :
    (Text.replaceAll needle s t).Spoken := by
  unfold Text.replaceAll
  split
  · refine spoken_append.mpr ⟨fun c hc => ?_, hs⟩
    obtain ⟨x, hx, hc⟩ := List.mem_flatMap.mp hc
    exact spoken_append.mpr ⟨hs, spoken_singleton.mpr (h x hx)⟩ c hc
  · exact h.replaceFrom hs needle 0

theorem Spoken.replaceFirst (h : t.Spoken) (hs : s.Spoken) (needle : Text) :
    (Text.replaceFirst needle s t).Spoken := by
  induction t with
  | nil =>
      unfold Text.replaceFirst
      split
      · exact hs
      · exact spoken_nil
  | cons c rest ih =>
      unfold Text.replaceFirst
      split
      · exact spoken_append.mpr ⟨hs, h.drop _⟩
      · exact spoken_cons.mpr ⟨(spoken_cons.mp h).1, ih (spoken_cons.mp h).2⟩

end Text

namespace Sound

theorem spoken_guna (c : Char) : Text.Spoken ((guna? c).getD []) := by
  unfold guna?
  split <;> decide

theorem spoken_vrddhi (c : Char) : Text.Spoken ((vrddhi? c).getD []) := by
  unfold vrddhi?
  split <;> decide

theorem spoken_ayadi (c : Char) : Text.Spoken ((ayadi? c).getD []) := by
  unfold ayadi?
  split <;> decide

theorem spoken_hrasva (c : Char) : Text.Spoken (hrasva? c).toList := by
  unfold hrasva?
  split <;> decide

theorem spoken_semivowel (c : Char) : Text.Spoken (semivowel? c).toList := by
  unfold semivowel?
  split <;> decide

theorem spoken_lengthen (c : Char) : Text.Spoken (lengthen? c).toList := by
  unfold lengthen?
  split <;> decide

theorem spoken_dirgha (c : Char) : Text.Spoken (dirgha? c).toList := by
  have hlong : ∀ c ∈ "AIUFXeEoO".toList, c ∈ alphabet := by decide
  have hshort := spoken_lengthen c
  unfold dirgha?
  cases hlengthened : lengthen? c with
  | none =>
      rw [Option.none_or]
      split
      · rename_i hdirgha
        exact Text.spoken_singleton.mpr (hlong c (List.contains_iff_mem.mp hdirgha))
      · exact Text.spoken_nil
  | some long => rwa [hlengthened] at hshort

-- The grade of a sound that may not be there.
theorem spoken_bind {grade : Char → Option Text} (hgrade : ∀ c, Text.Spoken ((grade c).getD []))
    (o : Option Char) : Text.Spoken ((o.bind grade).getD []) := by
  cases o with
  | none => exact Text.spoken_nil
  | some c => exact hgrade c

end Sound

namespace Term

variable {t : Term} {s : Text} {c : Char}

theorem mem_of_antya? (h : t.antya? = some c) : c ∈ t.text := List.mem_of_getLast? h

theorem mem_of_upadha? (h : t.upadha? = some c) : c ∈ t.text :=
  (List.dropLast_sublist t.text).subset (List.mem_of_getLast? h)

-- A change that puts sounds only in the place of sounds.
def KeepsSpoken (f : Term → Term) : Prop := ∀ t, t.text.Spoken → (f t).text.Spoken

theorem keepsSpoken_addTag (tag : Tag) : KeepsSpoken (·.addTag tag) := fun _ ht => ht

theorem keepsSpoken_removeTag (tag : Tag) : KeepsSpoken (·.removeTag tag) := fun _ ht => ht

theorem keepsSpoken_setText (hs : s.Spoken) : KeepsSpoken (·.setText s) := fun _ _ => hs

theorem keepsSpoken_elide : KeepsSpoken (·.elide) := fun _ _ => Text.spoken_nil

theorem keepsSpoken_setAdi (hs : s.Spoken) : KeepsSpoken (·.setAdi s) :=
  fun _ ht => Text.spoken_append.mpr ⟨hs, ht.drop 1⟩

theorem keepsSpoken_substituteAdi (hs : s.Spoken) : KeepsSpoken (·.substituteAdi s) := by
  intro t ht
  dsimp only [substituteAdi]
  split
  · exact ht
  · exact keepsSpoken_setAdi hs t ht

theorem keepsSpoken_setAntya (hs : s.Spoken) : KeepsSpoken (·.setAntya s) := by
  intro t ht
  dsimp only [setAntya]
  split
  · exact ht
  · exact Text.spoken_append.mpr ⟨ht.dropLast, hs⟩

theorem keepsSpoken_setUpadha (hs : s.Spoken) : KeepsSpoken (·.setUpadha s) := by
  intro t ht
  dsimp only [setUpadha]
  split
  · rename_i last _ hlast
    have hend := Text.spoken_singleton.mpr (ht last (mem_of_antya? hlast))
    exact Text.spoken_append.mpr ⟨Text.spoken_append.mpr ⟨ht.dropLast.dropLast, hs⟩, hend⟩
  · exact ht

theorem keepsSpoken_replaceText (needle : Text) (hs : s.Spoken) :
    KeepsSpoken (·.replaceText needle s) :=
  fun _ ht => ht.replaceAll hs needle

theorem splitAtLastVowel?_eq {s before after : Text} {vowel : Char}
    (h : splitAtLastVowel? s = some (before, vowel, after)) : s = before ++ [vowel] ++ after := by
  induction s generalizing before with
  | nil => cases h
  | cons c rest ih =>
      rw [splitAtLastVowel?] at h
      split at h
      · rename_i first vowel' after' hrest
        cases h
        rw [ih hrest]
        rfl
      · split at h
        · cases h
          rfl
        · cases h

theorem keepsSpoken_insertAfterVowel (hs : s.Spoken) : KeepsSpoken (·.insertAfterVowel s) := by
  intro t ht
  dsimp only [insertAfterVowel]
  split
  · rename_i before vowel after hsplit
    rw [splitAtLastVowel?_eq hsplit, Text.spoken_append] at ht
    exact Text.spoken_append.mpr ⟨Text.spoken_append.mpr ⟨ht.1, hs⟩, ht.2⟩
  · exact ht

theorem keepsSpoken_substituteTi (hs : s.Spoken) : KeepsSpoken (·.substituteTi s) := by
  intro t ht
  dsimp only [substituteTi]
  split
  · rename_i before vowel after hsplit
    rw [splitAtLastVowel?_eq hsplit, Text.spoken_append, Text.spoken_append] at ht
    exact Text.spoken_append.mpr ⟨ht.1.1, hs⟩
  · exact ht

end Term

namespace Derivation

def Spoken (d : Derivation) : Prop := ∀ t ∈ d.terms, t.text.Spoken

variable {d : Derivation}

theorem Spoken.term (h : d.Spoken) {i : Nat} {t : Term} (ht : d.terms[i]? = some t) :
    t.text.Spoken :=
  h t (List.mem_of_getElem? ht)

@[simp] theorem spoken_record (rule : Rule) : (d.record rule).Spoken ↔ d.Spoken := by
  rw [Spoken, terms_record, Spoken]

theorem Spoken.modify {ts : List Term} (h : ∀ t ∈ ts, t.text.Spoken) {f : Term → Term}
    (hf : Term.KeepsSpoken f) (n : Nat) : ∀ t ∈ ts.modify n f, t.text.Spoken := by
  intro t ht
  obtain ⟨i, hi, rfl⟩ := List.mem_iff_getElem.mp ht
  rw [List.getElem_modify]
  split
  · exact hf _ (h _ (List.getElem_mem _))
  · exact h _ (List.getElem_mem _)

theorem Spoken.update (h : d.Spoken) {f : Term → Term} (hf : Term.KeepsSpoken f) (i : Int) :
    (d.update i f).Spoken := by
  unfold Derivation.update
  split
  · exact Spoken.modify h hf _
  · exact h

theorem Spoken.alter (h : d.Spoken) {f : Term → Term} (hf : Term.KeepsSpoken f) (rule : Rule)
    (i : Int) : (d.alter rule i f).Spoken := by
  unfold Derivation.alter
  split
  · exact (spoken_record rule).mpr (h.update hf i)
  · exact h

-- The change need only be known for a term of sounds.
theorem Alters.spoken {may : Nat → Term → Rule → (Term → Term) → Prop} {e : Derivation}
    (h : Alters may d e) (hmay : ∀ i t rule change, may i t rule change → t.text.Spoken →
      Term.KeepsSpoken change) : d.Spoken → e.Spoken :=
  h.relates (R := fun d e => d.Spoken → e.Spoken) (fun _ hd => hd)
    (fun _ _ _ hcd hde hc => hde (hcd hc))
    fun _ i t rule change ht hchange he =>
      he.alter (hmay i t rule change hchange (he.term ht)) rule i

theorem Spoken.insertTerm (h : d.Spoken) (n : Nat) {t : Term} (ht : t.text.Spoken) :
    (d.insertTerm n t).Spoken := by
  intro u hu
  rcases List.mem_append.mp hu with hu | hu
  · exact h u (List.mem_of_mem_take hu)
  · rcases List.mem_cons.mp hu with rfl | hu
    · exact ht
    · exact h u (List.mem_of_mem_drop hu)

theorem Spoken.optionally (h : d.Spoken) {f : Derivation → Derivation}
    (hf : ∀ e : Derivation, e.Spoken → (f e).Spoken) (rule : Rule) :
    (d.optionally rule f).2.Spoken := by
  rcases optionally_cases rule f d with ⟨-, heq⟩ | ⟨-, heq⟩
  · rw [heq]
    exact (spoken_record rule).mpr (hf (d.accept rule) h)
  · rw [heq]
    exact h

theorem Spoken.splice (h : d.Spoken) {sub : Text} (hsub : sub.Spoken) (k : Int) :
    (d.splice k sub).Spoken := by
  have hterms (ts : List Term) (k : Nat) (hts : ∀ t ∈ ts, t.text.Spoken) :
      ∀ t ∈ spliceTerms ts k sub, t.text.Spoken := by
    induction ts generalizing k with
    | nil => exact hts
    | cons t rest ih =>
        obtain ⟨ht, hrest⟩ := List.forall_mem_cons.mp hts
        unfold spliceTerms
        split
        · refine List.forall_mem_cons.mpr ⟨?_, hrest⟩
          exact Text.spoken_append.mpr ⟨Text.spoken_append.mpr ⟨ht.take k, hsub⟩, ht.drop _⟩
        · exact List.forall_mem_cons.mpr ⟨ht, ih _ hrest⟩
  unfold Derivation.splice
  split
  · exact hterms _ _ h
  · exact h

end Derivation

namespace Site

variable {s : Site} {sub : Text}

theorem spoken_replace (h : s.derivation.Spoken) (hsub : sub.Spoken) : (s.replace sub).Spoken :=
  h.splice hsub _

theorem spoken_replaceNext (h : s.derivation.Spoken) (hsub : sub.Spoken) :
    (s.replaceNext sub).Spoken :=
  h.splice hsub _

theorem spoken_merge (h : s.derivation.Spoken) (hsub : sub.Spoken) : (s.merge sub).Spoken :=
  (spoken_replaceNext h Text.spoken_nil).splice hsub _

end Site

namespace SoundRule

-- The substitutes of the rule are sounds.
def KeepsSpoken (r : SoundRule) : Prop := ∀ s, s.derivation.Spoken → (r.act s).1.Spoken

theorem Rests.spoken {r : SoundRule} (h : r.KeepsSpoken) {d e : Derivation}
    (hrests : r.Rests d e) (hd : d.Spoken) : e.Spoken :=
  hrests.relates (R := fun d e => d.Spoken → e.Spoken) (fun _ hd => hd)
    (fun _ _ _ hde hef hd => hef (hde hd)) h hd

end SoundRule

namespace Outcome

-- If the rule ends well, it leaves sounds.
def Spoken (o : Outcome) : Prop := o.Ends (·.Spoken) fun _ => True

variable {o : Outcome}

theorem Spoken.andThen (h : o.Spoken) (next : Derivation → Outcome)
    (hnext : ∀ d : Derivation, d.Spoken → (next d).Spoken) : (o.andThen next).Spoken :=
  Ends.andThen h next hnext

theorem Spoken.map (h : o.Spoken) (f : Derivation → Derivation)
    (hf : ∀ d : Derivation, d.Spoken → (f d).Spoken) : (o.map f).Spoken :=
  Ends.map h f hf

end Outcome

end Vyakarana
