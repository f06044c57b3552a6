import Mathlib.Data.List.TakeWhile
import Vyakarana.Root
import Vyakarana.Text.Numeral

/-!
Numerals that are read back.

A row of ASCII digits is read as the number that it stands for, whatever zeros it begins with, unless
it is longer than a numeral may be. A whole number that is filled up with zeros behind its sign is
therefore read back, and so is a text that a mark cuts off from what follows it.
-/

namespace Vyakarana

namespace Text

variable {c : Char} {t : Text}

theorem toNat_of_isDigit (h : c.isDigit = true) : 48 ≤ c.toNat ∧ c.toNat ≤ 57 := by
  rw [Char.isDigit, Bool.and_eq_true, decide_eq_true_eq, decide_eq_true_eq] at h
  exact ⟨UInt32.le_iff_toNat_le.mp h.1, UInt32.le_iff_toNat_le.mp h.2⟩

-- The ASCII digits come first among the digits of all scripts.
theorem digitValue?_of_isDigit (h : c.isDigit = true) : digitValue? c = some (c.toNat - 48) := by
  obtain ⟨hfrom, hto⟩ := toNat_of_isDigit h
  have hzeros : digitZeros = 0x30 :: digitZeros.tail := rfl
  rw [digitValue?, hzeros, List.find?_cons_of_pos]
  · rfl
  · rw [Bool.and_eq_true, decide_eq_true_eq, decide_eq_true_eq]
    omega

theorem isSpace_of_isDigit (h : c.isDigit = true) : isSpace c = false := by
  obtain ⟨hfrom, hto⟩ := toNat_of_isDigit h
  rw [isSpace, isWideBlank]
  simp only [Bool.or_eq_false_iff, Bool.and_eq_false_iff, decide_eq_false_iff_not,
    beq_eq_false_iff_ne]
  omega

theorem digitsFrom_of_isDigit (h : ∀ c ∈ t, c.isDigit = true) (value length : Nat) :
    digitsFrom value length false t =
      some (Nat.ofDigitChars 10 t value, length + t.length) := by
  induction t generalizing value length with
  | nil => rfl
  | cons c rest ih =>
      obtain ⟨hc, hrest⟩ := List.forall_mem_cons.mp h
      rw [digitsFrom, digitValue?_of_isDigit hc, Nat.ofDigitChars_cons, List.length_cons]
      dsimp only
      rw [ih hrest, Nat.add_assoc, Nat.add_comm 1]
      rfl

theorem natOfDigits?_of_isDigit (h : ∀ c ∈ t, c.isDigit = true) (hne : t ≠ [])
    (hlength : t.length ≤ digitLimit) : natOfDigits? t = some (Nat.ofDigitChars 10 t 0) := by
  cases t with
  | nil => exact absurd rfl hne
  | cons c rest =>
      -- The first digit is all that an underscore before it would have waited for.
      have hwaiting : digitsFrom 0 0 true (c :: rest) = digitsFrom 0 0 false (c :: rest) := by
        rw [digitsFrom, digitsFrom, digitValue?_of_isDigit (h c List.mem_cons_self)]
      rw [natOfDigits?, hwaiting, digitsFrom_of_isDigit h, Nat.zero_add]
      dsimp only
      rw [if_pos hlength]

theorem trimBy_eq_self {blank : Char → Bool} (h : ∀ c ∈ t, blank c = false) :
    trimBy blank t = t := by
  have hkept (s : Text) (hs : ∀ c ∈ s, blank c = false) : s.dropWhile blank = s := by
    rw [List.dropWhile_eq_self_iff]
    intro hlength hfirst
    rw [hs _ (List.getElem_mem hlength)] at hfirst
    cases hfirst
  rw [trimBy, hkept t h, hkept t.reverse, List.reverse_reverse]
  intro c hc
  exact h c (List.mem_reverse.mp hc)

theorem lenientInt?_minus {n : Nat} (h : ∀ c ∈ t, c.isDigit = true)
    (hn : natOfDigits? t = some n) : lenientInt? ('-' :: t) = some (-(n : Int)) := by
  have hclean : ∀ c ∈ '-' :: t, isSpace c = false := by
    intro c hc
    rcases List.mem_cons.mp hc with rfl | hc
    · decide
    · exact isSpace_of_isDigit (h c hc)
  rw [lenientInt?, trimBy_eq_self hclean]
  simp only [hn]
  rfl

theorem lenientInt?_of_isDigit {n : Nat} (h : ∀ c ∈ t, c.isDigit = true)
    (hn : natOfDigits? t = some n) : lenientInt? t = some (n : Int) := by
  rw [lenientInt?, trimBy_eq_self fun c hc => isSpace_of_isDigit (h c hc)]
  split
  · exact absurd (h '-' List.mem_cons_self) (by decide)
  · exact absurd (h '+' List.mem_cons_self) (by decide)
  · rw [hn]
    rfl

theorem splitAtFirst?_append {mark : Char} {before : Text} (h : mark ∉ before) (after : Text) :
    splitAtFirst? mark (before ++ mark :: after) = some (before, after) := by
  have hpass : ∀ c ∈ before, (c != mark) = true := by
    intro c hc
    rw [bne_iff_ne]
    intro heq
    exact h (heq ▸ hc)
  rw [splitAtFirst?, if_pos (List.elem_eq_true_of_mem (by simp)), List.takeWhile_append_of_pos hpass,
    List.dropWhile_append_of_pos hpass, List.takeWhile_cons_of_neg (by simp),
    List.dropWhile_cons_of_neg (by simp), List.append_nil]
  rfl

end Text

namespace Root

variable {width : Nat} {n : Int}

theorem padded_toList (width : Nat) (n : Int) :
    ∃ zeros, zeros ≤ width - (toString n.natAbs).length ∧
      (padded width n).toList = (if n < 0 then ['-'] else []) ++
        (List.replicate zeros '0' ++ Nat.toDigits 10 n.natAbs) := by
  refine ⟨width - (if n < 0 then "-" else "").length - (toString n.natAbs).length, by omega, ?_⟩
  have hsign : (if n < 0 then "-" else "").toList = if n < 0 then ['-'] else [] := by
    rw [apply_ite String.toList]
    rfl
  rw [padded, String.toList_append, String.toList_append, String.toList_ofList, List.append_assoc,
    hsign, ← Nat.toList_repr, Nat.toString_eq_repr]

theorem isDigit_of_mem_digits (zeros n : Nat) :
    ∀ c ∈ List.replicate zeros '0' ++ Nat.toDigits 10 n, c.isDigit = true := by
  intro c hc
  rcases List.mem_append.mp hc with hc | hc
  · rw [List.eq_of_mem_replicate hc]
    decide
  · exact Nat.isDigit_of_mem_toDigits (by decide) (by decide) hc

-- A number that is filled up with zeros is read back.
theorem lenientInt?_padded (hwidth : width ≤ Text.digitLimit)
    (hn : (toString n.natAbs).length ≤ Text.digitLimit) :
    Text.lenientInt? (padded width n).toList = some n := by
  obtain ⟨zeros, hzeros, htext⟩ := padded_toList width n
  have hlength : (toString n.natAbs).length = (Nat.toDigits 10 n.natAbs).length := by
    rw [Nat.toString_eq_repr, ← Nat.toList_repr, String.length_toList]
  have hdigits := isDigit_of_mem_digits zeros n.natAbs
  have hread : Text.natOfDigits? (List.replicate zeros '0' ++ Nat.toDigits 10 n.natAbs) =
      some n.natAbs := by
    rw [Text.natOfDigits?_of_isDigit hdigits, Nat.ofDigitChars_append,
      Nat.ofDigitChars_replicate_zero, Nat.mul_zero, Nat.ofDigitChars_ten_toDigits]
    · intro hnil
      exact Nat.toDigits_ne_nil (List.append_eq_nil_iff.mp hnil).2
    · rw [List.length_append, List.length_replicate]
      omega
  rw [htext]
  by_cases hneg : n < 0
  · rw [if_pos hneg, List.singleton_append, Text.lenientInt?_minus hdigits hread,
      Int.ofNat_natAbs_of_nonpos (Int.le_of_lt hneg), Int.neg_neg]
  · rw [if_neg hneg, List.nil_append, Text.lenientInt?_of_isDigit hdigits hread,
      Int.natAbs_of_nonneg (Int.not_lt.mp hneg)]

-- The characters of a number that is filled up with zeros.
theorem mem_padded {c : Char} (hc : c ∈ (padded width n).toList) : c = '-' ∨ c.isDigit = true := by
  obtain ⟨zeros, -, htext⟩ := padded_toList width n
  rw [htext] at hc
  rcases List.mem_append.mp hc with hc | hc
  · by_cases hneg : n < 0
    · rw [if_pos hneg] at hc
      exact .inl (List.mem_singleton.mp hc)
    · rw [if_neg hneg] at hc
      cases hc
  · exact .inr (isDigit_of_mem_digits _ _ c hc)

end Root

end Vyakarana
