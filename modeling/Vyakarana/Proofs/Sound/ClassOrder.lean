import Mathlib.Data.List.Nodup
import Mathlib.Tactic.TFAE
import Vyakarana.Sound.Class

/-!
The order of a class.

Traditional order, with code points for what is outside the alphabet, is a strict linear order on
characters, and a class lists its sounds along it. So a class has one row of sounds, each of them
once, whatever the order and the repeats of the text it comes from: classes are equal exactly when
their texts have the same characters, and the row of a class is a text of that class.
-/

namespace Vyakarana

namespace Sound

variable {a b c : Char}

-- A sound stands at one place in the alphabet, its rank; all other characters rank after the last.
theorem rank_cases (c : Char) :
    (∀ i, alphabet[i]? = some c ↔ i = rank c) ∨ c ∉ alphabet ∧ rank c = alphabet.length := by
  by_cases hc : c ∈ alphabet
  · have hnodup : alphabet.Nodup := by decide
    refine .inl fun i => ⟨fun hi => ?_, ?_⟩
    · obtain ⟨hlt, rfl⟩ := List.getElem?_eq_some_iff.mp hi
      exact (hnodup.idxOf_getElem i hlt).symm
    · rintro rfl
      exact List.getElem?_idxOf hc
  · exact .inr ⟨hc, List.idxOf_of_notMem hc⟩

theorem precedes_iff :
    precedes a b = true ↔ rank a < rank b ∨ rank a = rank b ∧ a.toNat < b.toNat := by
  simp only [precedes, Bool.or_eq_true, Bool.and_eq_true, decide_eq_true_eq, beq_iff_eq]

theorem not_precedes_self : precedes a a = false := by
  rw [← Bool.not_eq_true, precedes_iff]
  omega

theorem precedes_trans (hab : precedes a b = true) (hbc : precedes b c = true) :
    precedes a c = true := by
  rw [precedes_iff] at *
  omega

theorem not_precedes_of_precedes (h : precedes a b = true) : precedes b a = false := by
  rw [precedes_iff] at h
  rw [← Bool.not_eq_true, precedes_iff]
  omega

theorem precedes_of_not (hne : a ≠ b) (h : ¬precedes a b = true) : precedes b a = true := by
  have htoNat : a.toNat ≠ b.toNat := fun heq => hne (Char.toNat_inj.mp heq)
  rw [precedes_iff] at *
  omega

end Sound

namespace SoundClass

open Sound

-- The sounds stand in traditional order.
def Ordered (sounds : List Char) : Prop := sounds.Pairwise fun a b => precedes a b = true

theorem ordered_insertSound {c : Char} {sounds : List Char} (h : Ordered sounds) :
    Ordered (insertSound c sounds) := by
  induction sounds with
  | nil => exact List.pairwise_singleton _ c
  | cons x rest ih =>
      obtain ⟨hx, hrest⟩ := List.pairwise_cons.mp h
      unfold insertSound
      split
      · exact h
      · rename_i hne
        split
        · rename_i hcx
          refine List.pairwise_cons.mpr ⟨List.forall_mem_cons.mpr ⟨hcx, fun y hy => ?_⟩, h⟩
          exact precedes_trans hcx (hx y hy)
        · rename_i hcx
          refine List.pairwise_cons.mpr ⟨fun y hy => ?_, ih hrest⟩
          rcases mem_insertSound.mp hy with rfl | hy
          · exact precedes_of_not hne hcx
          · exact hx y hy

theorem ordered_ofText (w : Text) : Ordered (ofText w).sounds := by
  induction w with
  | nil => exact List.Pairwise.nil
  | cons c rest ih => exact ordered_insertSound ih

theorem Ordered.nodup {sounds : List Char} (h : Ordered sounds) : sounds.Nodup := by
  refine List.Pairwise.imp (fun {a b} hab => ?_) h
  rintro rfl
  rw [not_precedes_self] at hab
  cases hab

-- Which sounds a row has leaves no choice of their order.
theorem Ordered.eq_of_mem_iff {sounds others : List Char} (h : Ordered sounds)
    (hothers : Ordered others) (hmem : ∀ c, c ∈ sounds ↔ c ∈ others) : sounds = others := by
  have hperm : sounds.Perm others :=
    (List.perm_ext_iff_of_nodup h.nodup hothers.nodup).mpr hmem
  refine hperm.eq_of_pairwise (fun a b _ _ hab hba => ?_) h hothers
  rw [not_precedes_of_precedes hab] at hba
  cases hba

theorem Ordered.ofText_eq {sounds : List Char} (h : Ordered sounds) : ofText sounds = ⟨sounds⟩ :=
  congrArg SoundClass.mk ((ordered_ofText sounds).eq_of_mem_iff h fun _ => mem_ofText)

theorem count_ofText (c : Char) (w : Text) :
    (ofText w).sounds.count c = if c ∈ w then 1 else 0 := by
  split
  · rename_i hc
    exact List.count_eq_one_of_mem (ordered_ofText w).nodup (mem_ofText.mpr hc)
  · rename_i hc
    exact List.count_eq_zero.mpr (mt mem_ofText.mp hc)

theorem contains_ofText (w : Text) (c : Char) : (ofText w).contains c = true ↔ c ∈ w :=
  List.contains_iff_mem.trans mem_ofText

-- What precedes a sound of an ordered row stands before it there.
theorem Ordered.mem_before {before after : List Char} {y z : Char}
    (h : Ordered (before ++ y :: after)) (hz : z ∈ before ++ y :: after)
    (hzy : precedes z y = true) : z ∈ before := by
  obtain ⟨-, hafter, -⟩ := List.pairwise_append.mp h
  obtain ⟨hy, -⟩ := List.pairwise_cons.mp hafter
  rcases List.mem_append.mp hz with hz | hz
  · exact hz
  · rcases List.mem_cons.mp hz with rfl | hz
    · rw [not_precedes_self] at hzy
      cases hzy
    · rw [not_precedes_of_precedes (hy z hz)] at hzy
      cases hzy

-- A class lists the characters of its text, each of them once: those of the alphabet in its order,
-- then the others by code point. Nothing else about the text is left in the class: two classes are
-- equal, or have the same members, or are listed alike, exactly when their texts have the same
-- characters; and the listing gives the class back.
theorem ofText_canonical (v w : Text) :
    (∀ c, (ofText w).sounds.count c = if c ∈ w then 1 else 0) ∧
    (ofText w).sounds.Pairwise
      (fun a b => rank a < rank b ∨ rank a = rank b ∧ a.toNat < b.toNat) ∧
    (∀ c, (∀ i, alphabet[i]? = some c ↔ i = rank c) ∨
      c ∉ alphabet ∧ rank c = alphabet.length) ∧
    [ofText v = ofText w, ∀ c, (ofText v).contains c = (ofText w).contains c,
      ∀ c, c ∈ v ↔ c ∈ w, (ofText v).sounds = (ofText w).sounds].TFAE ∧
    ofText (ofText w).sounds = ofText w := by
  refine ⟨fun c => count_ofText c w, (ordered_ofText w).imp precedes_iff.mp, rank_cases, ?_,
    (ordered_ofText w).ofText_eq⟩
  tfae_have 1 → 2 := fun heq c => by rw [heq]
  tfae_have 2 → 3 := fun hmembers c => by
    rw [← contains_ofText v, hmembers c, contains_ofText]
  tfae_have 3 → 4 := fun hsame =>
    (ordered_ofText v).eq_of_mem_iff (ordered_ofText w) fun c => by
      rw [mem_ofText, hsame c, mem_ofText]
  tfae_have 4 → 1 := congrArg SoundClass.mk
  tfae_finish

example : (ofText "~k1akA".toList).sounds = "aAk1~".toList := by decide

end SoundClass

end Vyakarana
