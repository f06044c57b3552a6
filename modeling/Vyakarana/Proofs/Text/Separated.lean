import Vyakarana.Text.Separated

/-!
Records that are read one after another.

A stretch of a table is read as a record of its own if the records of the table are this one and
those of the rest. A line without quotes is such a stretch, and the tabs in it divide the fields.
-/

namespace Vyakarana.Text

variable {stretch line first : Text} {row : List Text}

-- Whatever follows the stretch, it is read as this record.
def ReadsAs (stretch : Text) (row : List Text) : Prop :=
  ∀ rest, records (stretch ++ rest) = row :: records rest

-- Text without line ends and double quotes.
def Unquoted (line : Text) : Prop := ∀ c ∈ line, isLineEnd c = false ∧ c ≠ doubleQuote

instance (line : Text) : Decidable (Unquoted line) :=
  inferInstanceAs (Decidable (∀ c ∈ line, isLineEnd c = false ∧ c ≠ doubleQuote))

namespace RecordReader

variable {r : RecordReader}

-- The reader as it is if it has read other records before.
def after (r : RecordReader) (earlier : List (List Text)) : RecordReader :=
  { r with records := r.records ++ earlier }

theorem beginField_after (r : RecordReader) (earlier : List (List Text)) (c : Char) :
    (r.after earlier).beginField c = (r.beginField c).after earlier := by
  rw [beginField, beginField, apply_ite (after · earlier), apply_ite (after · earlier)]
  rfl

theorem read_after (r : RecordReader) (earlier : List (List Text)) (c : Char) :
    (r.after earlier).read c = (r.read c).after earlier := by
  have hstate : (r.after earlier).state = r.state := rfl
  rw [read, read, hstate]
  cases r.state with
  | outside afterReturn =>
      dsimp only
      rw [beginField_after, apply_ite (after · earlier), apply_ite (after · earlier)]
      rfl
  | fresh =>
      dsimp only
      rw [beginField_after, apply_ite (after · earlier)]
      rfl
  | plain =>
      dsimp only
      rw [apply_ite (after · earlier), apply_ite (after · earlier)]
      rfl
  | quoted =>
      dsimp only
      rw [apply_ite (after · earlier)]
      rfl
  | closing =>
      dsimp only
      rw [apply_ite (after · earlier), apply_ite (after · earlier)]
      rfl

theorem foldl_read_after (r : RecordReader) (earlier : List (List Text)) (t : Text) :
    t.foldl read (r.after earlier) = (t.foldl read r).after earlier := by
  induction t generalizing r with
  | nil => rfl
  | cons c rest ih => rw [List.foldl_cons, List.foldl_cons, read_after, ih]

theorem finish_after (r : RecordReader) (earlier : List (List Text)) :
    (r.after earlier).finish = earlier.reverse ++ r.finish := by
  obtain ⟨state, done, fields, field⟩ := r
  cases state <;> simp [finish, after, endRecord]

section Line

variable (hstate : r.state = .fresh ∨ r.state = .plain)
include hstate

theorem read_newline : r.read '\n' = r.endRecord '\n' := by
  rcases hstate with hstate | hstate
  · rw [RecordReader.read, hstate]
    rfl
  · rw [RecordReader.read, hstate]
    rfl

theorem read_unquoted {c : Char} (hend : isLineEnd c = false) (hquote : c ≠ doubleQuote) :
    r.read c = if c = '\t' then r.endField else r.put .plain c := by
  have hquote' : (c == doubleQuote) = false := beq_eq_false_iff_ne.mpr hquote
  rcases hstate with hstate | hstate
  · simp only [RecordReader.read, hstate, hend, beginField, hquote', Bool.false_eq_true, if_false,
      beq_iff_eq]
  · simp only [RecordReader.read, hstate, hend, Bool.false_eq_true, if_false, beq_iff_eq]

-- A line is read to its end from the beginning of a field or from within a field without quotes.
theorem foldl_read_line (hline : Unquoted line) (htab : '\t' ∉ r.field.reverse) :
    (line ++ ['\n']).foldl RecordReader.read r =
      ⟨.outside false, (r.fields.reverse ++ (r.field.reverse ++ line).splitOn '\t') :: r.records,
        [], []⟩ := by
  induction line generalizing r with
  | nil =>
      rw [List.append_nil, List.splitOn_eq_singleton htab, ← List.reverse_cons]
      exact read_newline hstate
  | cons c rest ih =>
      obtain ⟨⟨hend, hquote⟩, hrest⟩ := List.forall_mem_cons.mp hline
      rw [List.cons_append, List.foldl_cons, read_unquoted hstate hend hquote]
      by_cases hc : c = '\t'
      · subst hc
        rw [if_pos rfl, ih (.inl rfl) hrest List.not_mem_nil,
          List.splitOn_append_cons_self_of_not_mem htab]
        simp [endField]
      · rw [if_neg hc, ih (.inr rfl) hrest]
        · simp [put]
        · simp only [put, List.reverse_cons, List.mem_append, List.mem_singleton]
          rintro (hfield | rfl)
          · exact htab hfield
          · exact hc rfl

end Line

end RecordReader

open RecordReader

theorem readsAs_of_foldl (h : stretch.foldl read start = start.after [row]) :
    ReadsAs stretch row := by
  intro rest
  rw [records, records, List.foldl_append, h, foldl_read_after, finish_after]
  rfl

-- A line without quotes is divided by its tabs. An empty line has no fields.
theorem readsAs_line (h : Unquoted line) :
    ReadsAs (line ++ ['\n']) (if line.isEmpty then [] else line.splitOn '\t') := by
  apply readsAs_of_foldl
  cases line with
  | nil => rfl
  | cons c rest =>
      have hend : isLineEnd c = false := (h c List.mem_cons_self).1
      -- Outside of the records a character begins a field, as it does after a tab.
      have hread : start.read c = { start with state := .fresh }.read c := by
        simp only [start, RecordReader.read, hend, Bool.and_false, Bool.false_eq_true, if_false]
        rfl
      have hline := foldl_read_line (r := { start with state := .fresh }) (.inl rfl) h
        List.not_mem_nil
      rw [List.cons_append, List.foldl_cons] at hline ⊢
      rw [hread, hline]
      rfl

theorem Unquoted.append {more : Text} (h : Unquoted line) (hmore : Unquoted more) :
    Unquoted (line ++ more) := by
  intro c hc
  rcases List.mem_append.mp hc with hc | hc
  · exact h c hc
  · exact hmore c hc

theorem unquoted_intercalate {fields : List Text} (h : ∀ field ∈ fields, Unquoted field) :
    Unquoted (['\t'].intercalate fields) := by
  induction fields with
  | nil => exact List.forall_mem_nil _
  | cons field rest ih =>
      obtain ⟨hfield, hrest⟩ := List.forall_mem_cons.mp h
      cases rest with
      | nil => rwa [List.intercalate_singleton]
      | cons next rest =>
          rw [List.intercalate_cons_cons]
          exact (hfield.append (by decide)).append (ih hrest)

-- Fields are read back from their line, if the line is not empty.
theorem readsAs_fields {others : List Text} (hfirst : first ≠ [])
    (h : ∀ field ∈ first :: others, Unquoted field ∧ '\t' ∉ field) :
    ReadsAs (['\t'].intercalate (first :: others) ++ ['\n']) (first :: others) := by
  have hsplit : (['\t'].intercalate (first :: others)).splitOn '\t' = first :: others :=
    List.splitOn_intercalate '\t' (fun field hfield => (h field hfield).2) (List.cons_ne_nil _ _)
  have hline : (['\t'].intercalate (first :: others)).isEmpty = false := by
    rw [List.isEmpty_eq_false_iff]
    intro hnil
    rw [hnil, List.splitOn_nil] at hsplit
    exact hfirst (List.cons.inj hsplit).1.symm
  have hreads := readsAs_line (unquoted_intercalate fun field hfield => (h field hfield).1)
  rwa [hline, if_neg Bool.false_ne_true, hsplit] at hreads

end Vyakarana.Text
