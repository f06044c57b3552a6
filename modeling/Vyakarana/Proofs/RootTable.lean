import Mathlib.Data.List.Basic
import Mathlib.Tactic.MkIffOfInductiveProp
import Vyakarana.CommandLine.Report
import Vyakarana.Proofs.Text.Numeral
import Vyakarana.Proofs.Text.Separated

/-!
A printed table of roots is read back.

The line of a root begins with its code, in which the class and the number are filled up with zeros.
Both are read as whole numbers, however many places they take, and the sub-list follows from them, so
that the line states the root even without its third column. Rows that state no root may stand
between the others.
-/

namespace Vyakarana

open Text

variable {r : Root} {n : Int}

namespace Root

-- The root may stand in a table under this number.
@[mk_iff]
structure Listable (r : Root) (n : Int) : Prop where
  number : r.number = some n
  gana : 1 ≤ r.gana ∧ r.gana ≤ 10
  antargana : r.antargana = antarganaOf r.gana n
  places : (toString n.natAbs).length ≤ digitLimit
  taught : r.upadesha ≠ [] ∧ r.upadesha ≠ ['-']
  unquoted : Unquoted r.upadesha
  untabbed : '\t' ∉ r.upadesha

instance (r : Root) (n : Int) : Decidable (r.Listable n) :=
  decidable_of_iff _ (listable_iff r n).symm

theorem code_toList (h : r.number = some n) :
    r.code.toList = (padded 2 r.gana).toList ++ '.' :: (padded 4 n).toList := by
  rw [code, h]
  simp only [String.toList_append, List.append_assoc]
  rfl

theorem mem_code {c : Char} (h : r.number = some n) (hc : c ∈ r.code.toList) :
    c = '.' ∨ c = '-' ∨ c.isDigit = true := by
  rw [code_toList h] at hc
  rcases List.mem_append.mp hc with hc | hc
  · exact .inr (mem_padded hc)
  · rcases List.mem_cons.mp hc with hc | hc
    · exact .inl hc
    · exact .inr (mem_padded hc)

theorem unquoted_code (h : r.number = some n) : Unquoted r.code.toList ∧ '\t' ∉ r.code.toList := by
  constructor
  · intro c hc
    rcases mem_code h hc with rfl | rfl | hc
    · decide
    · decide
    · rw [isLineEnd, Bool.or_eq_false_iff, beq_eq_false_iff_ne, beq_eq_false_iff_ne]
      refine ⟨⟨?_, ?_⟩, ?_⟩ <;> rintro rfl <;> exact absurd hc (by decide)
  · intro hc
    rcases mem_code h hc with hc | hc | hc <;> exact absurd hc (by decide)

-- The point that ends the class is the first one.
theorem splitAtFirst?_code (h : r.number = some n) :
    splitAtFirst? '.' r.code.toList =
      some ((padded 2 r.gana).toList, (padded 4 n).toList) := by
  rw [code_toList h]
  apply splitAtFirst?_append
  intro hpoint
  rcases mem_padded hpoint with hpoint | hpoint
  · exact absurd hpoint (by decide)
  · exact absurd hpoint (by decide)

end Root

namespace RootTable

-- The rows of a table after its heading. The line of a root is printed with or without the sub-list.
inductive Row
  | root (r : Root) (number : Int) (subList : Bool)
  | filler (stretch : Text) (fields : List Text)

namespace Row

def text : Row → Text
  | .root r _ true => Report.root r
  | .root r _ false => Report.line (r.code.toList ++ '\t' :: r.upadesha)
  | .filler stretch _ => stretch

-- A filler is any stretch of text that is read as a row with fewer than two fields or with a hyphen
-- for the root.
def WellFormed : Row → Prop
  | .root r number _ => r.Listable number
  | .filler stretch fields =>
    ReadsAs stretch fields ∧ (fields.length < 2 ∨ fields[1]? = some ['-'])

def root? : Row → Option Root
  | .root r _ _ => some r
  | .filler _ _ => none

-- The root with the number that it is listed under.
def entry? : Row → Option (Root × Option Int)
  | .root r number _ => some (r, some number)
  | .filler _ _ => none

end Row

-- The roots of a table with their numbers beside them.
def readNumbered (table : Text) : Except RootError (List (Root × Option Int)) :=
  (read table).map fun roots => roots.map fun r => (r, r.number)

-- The first two fields state the root, whatever comes after them.
theorem readRow?_root (h : r.Listable n) (more : List Text) :
    readRow? (r.code.toList :: r.upadesha :: more) = .ok (some r) := by
  obtain ⟨hne, hhyphen⟩ := h.taught
  have hgana : Text.lenientInt? (Root.padded 2 r.gana).toList = some r.gana := by
    apply Root.lenientInt?_padded (by decide)
    have hplaces : (toString r.gana.natAbs).length ≤ 2 := by
      rw [Nat.toString_eq_repr, Nat.length_repr_le_iff (by decide)]
      have hgana := h.gana
      omega
    exact hplaces.trans (by decide)
  have hnumber : Text.lenientInt? (Root.padded 4 n).toList = some n :=
    Root.lenientInt?_padded (by decide) h.places
  have htaught : FieldValue.readText (.text r.upadesha) = .ok r.upadesha := by
    cases hr : r.upadesha with
    | nil => exact absurd hr hne
    | cons c rest => rfl
  have hrange : (decide (r.gana < 1) || decide (10 < r.gana)) = false := by
    rw [Bool.or_eq_false_iff, decide_eq_false_iff_not, decide_eq_false_iff_not]
    exact ⟨Int.not_lt.mpr h.gana.1, Int.not_lt.mpr h.gana.2⟩
  have hroot : (⟨r.upadesha, r.gana, Root.antarganaOf r.gana n, some n⟩ : Root) = r := by
    rw [← h.antargana, ← h.number]
  have hparts : Root.ofParts (.text r.upadesha) (.text (Root.padded 2 r.gana).toList)
      (.text (Root.padded 4 n).toList) = .ok r := by
    rw [Root.ofParts, FieldValue.readPart, FieldValue.readPart, FieldValue.toInt?, FieldValue.toInt?,
      hgana, hnumber]
    dsimp only
    rw [hrange, htaught, if_neg Bool.false_ne_true]
    dsimp only
    rw [hroot]
  rw [readRow?, if_neg (by rwa [beq_iff_eq]), Root.splitAtFirst?_code h.number]
  dsimp only
  rw [hparts]
  rfl

theorem readRow?_filler {fields : List Text} (h : fields.length < 2 ∨ fields[1]? = some ['-']) :
    readRow? fields = .ok none := by
  match fields, h with
  | [], _ => rfl
  | [_], _ => rfl
  | code :: upadesha :: more, h =>
    rcases h with h | h
    · rw [List.length_cons, List.length_cons] at h
      omega
    · cases h
      rfl

-- The line of a root has two fields, or three if the sub-list is stated.
theorem text_root (r : Root) (n : Int) (subList : Bool) :
    ∃ more : List Text, (∀ field ∈ more, Unquoted field ∧ '\t' ∉ field) ∧
      (Row.root r n subList).text =
        ['\t'].intercalate (r.code.toList :: r.upadesha :: more) ++ ['\n'] := by
  cases subList with
  | false => exact ⟨[], List.forall_mem_nil _, by simp [Row.text, Report.line]⟩
  | true =>
      cases ha : r.antargana with
      | none => exact ⟨[], List.forall_mem_nil _, by simp [Row.text, Report.root, Report.line, ha]⟩
      | some a =>
          refine ⟨[a.spelling.toList], ?_, by simp [Row.text, Report.root, Report.line, ha]⟩
          cases a <;> decide

theorem readsAs_root (h : r.Listable n) (subList : Bool) :
    ∃ more, ReadsAs (Row.root r n subList).text (r.code.toList :: r.upadesha :: more) := by
  obtain ⟨more, hmore, htext⟩ := text_root r n subList
  refine ⟨more, ?_⟩
  rw [htext]
  apply readsAs_fields
  · rw [Root.code_toList h.number]
    exact List.append_ne_nil_of_right_ne_nil _ (List.cons_ne_nil _ _)
  · rw [List.forall_mem_cons, List.forall_mem_cons]
    exact ⟨Root.unquoted_code h.number, ⟨h.unquoted, h.untabbed⟩, hmore⟩

theorem readsAs_row {row : Row} (h : row.WellFormed) :
    ∃ fields, ReadsAs row.text fields ∧ readRow? fields = .ok row.root? := by
  cases row with
  | root r n subList =>
      obtain ⟨more, hreads⟩ := readsAs_root h subList
      exact ⟨_, hreads, readRow?_root h more⟩
  | filler stretch fields => exact ⟨fields, h.1, readRow?_filler h.2⟩

theorem mapM_readRow? {rows : List Row} (h : ∀ row ∈ rows, row.WellFormed) :
    (records (rows.flatMap Row.text)).mapM readRow? = .ok (rows.map Row.root?) := by
  induction rows with
  | nil => rfl
  | cons row rest ih =>
      obtain ⟨hrow, hrest⟩ := List.forall_mem_cons.mp h
      obtain ⟨fields, hreads, hfields⟩ := readsAs_row hrow
      rw [List.flatMap_cons, hreads, List.mapM_cons, hfields, ih hrest]
      rfl

-- A table with any heading, and then lines of roots with any other rows that state no root between
-- them, is read as the roots of these lines in their order, with their numbers.
theorem readNumbered_rows {heading : Text} {fields : List Text} (hheading : ReadsAs heading fields)
    (rows : List Row) (hrows : ∀ row ∈ rows, row.WellFormed) :
    readNumbered (heading ++ rows.flatMap Row.text) = .ok (rows.filterMap Row.entry?) := by
  have hnumbers (row : Row) (hrow : row ∈ rows) :
      row.root?.map (fun r => (r, r.number)) = row.entry? := by
    cases row with
    | root r number subList => exact congrArg (fun n => some (r, n)) (hrows _ hrow).number
    | filler stretch fields => rfl
  rw [readNumbered, read, hheading, List.drop_one, List.tail_cons, mapM_readRow? hrows]
  show Except.ok (((rows.map Row.root?).filterMap id).map fun r => (r, r.number)) = _
  rw [List.filterMap_map, List.map_filterMap]
  exact congrArg _ (List.filterMap_congr hnumbers)

-- A number of more than four places, a negative one, both sub-lists, and rows that state no root.
theorem readNumbered_sample :
    readNumbered ("code\tdhatu\n" ++ "01.0001\tBU\n" ++ "\n" ++ "10.0200\tyakza~\takusmiya\n" ++
        "01.0916\t-\t-\n" ++ "06.0100\tkuqa~\n" ++ "07.12345\trudhi~^r\n" ++ "06.-012\tpf\n").toList =
      .ok [(⟨"BU".toList, 1, none, some 1⟩, some 1),
        (⟨"yakza~".toList, 10, some .akusmiya, some 200⟩, some 200),
        (⟨"kuqa~".toList, 6, some .kutadi, some 100⟩, some 100),
        (⟨"rudhi~^r".toList, 7, none, some 12345⟩, some 12345),
        (⟨"pf".toList, 6, none, some (-12)⟩, some (-12))] := by
  have hheading : ReadsAs "code\tdhatu\n".toList ["code".toList, "dhatu".toList] :=
    readsAs_of_foldl rfl
  let rows : List Row :=
    [.root ⟨"BU".toList, 1, none, some 1⟩ 1 true,
      .filler "\n".toList [],
      .root ⟨"yakza~".toList, 10, some .akusmiya, some 200⟩ 200 true,
      .filler "01.0916\t-\t-\n".toList ["01.0916".toList, ['-'], ['-']],
      .root ⟨"kuqa~".toList, 6, some .kutadi, some 100⟩ 100 false,
      .root ⟨"rudhi~^r".toList, 7, none, some 12345⟩ 12345 true,
      .root ⟨"pf".toList, 6, none, some (-12)⟩ (-12) true]
  have hrows : ∀ row ∈ rows, row.WellFormed := by
    simp only [rows, List.forall_mem_cons]
    refine ⟨?_, ⟨readsAs_of_foldl rfl, by decide⟩, ?_, ⟨readsAs_of_foldl rfl, by decide⟩, ?_, ?_, ?_,
      List.forall_mem_nil _⟩
    all_goals
      show Root.Listable _ _
      decide +kernel
  exact readNumbered_rows hheading rows hrows

end RootTable

end Vyakarana
