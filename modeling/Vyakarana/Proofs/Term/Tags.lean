import Vyakarana.Term

/-!
Tags that are added to a term.

A term has the tags that it had and those that are added; its text and its taught form stay.
-/

namespace Vyakarana

theorem Tag.contains_insert (x tag : Tag) (tags : List Tag) :
    (insert tag tags).contains x = (x == tag || tags.contains x) := by
  rw [Bool.eq_iff_iff]
  simp only [List.contains_iff_mem, mem_insert, Bool.or_eq_true, beq_iff_eq]

namespace Term

@[simp] theorem text_addTags (tags : List Tag) (t : Term) : (t.addTags tags).text = t.text := by
  induction tags generalizing t with
  | nil => rfl
  | cons tag rest ih => exact ih (t.addTag tag)

@[simp] theorem upadesha_addTags (tags : List Tag) (t : Term) :
    (t.addTags tags).upadesha = t.upadesha := by
  induction tags generalizing t with
  | nil => rfl
  | cons tag rest ih => exact ih (t.addTag tag)

@[simp] theorem hasTag_setText (s : Text) (x : Tag) (t : Term) :
    (t.setText s).hasTag x = t.hasTag x := rfl

theorem hasTag_addTag (tag x : Tag) (t : Term) :
    (t.addTag tag).hasTag x = (x == tag || t.hasTag x) := Tag.contains_insert x tag t.tags

theorem hasTag_addTag_self (tag : Tag) (t : Term) : (t.addTag tag).hasTag tag = true := by
  rw [hasTag_addTag, beq_self_eq_true, Bool.true_or]

theorem hasTag_addTag_of_ne {tag x : Tag} (h : x ≠ tag) (t : Term) :
    (t.addTag tag).hasTag x = t.hasTag x := by
  rw [hasTag_addTag, beq_eq_false_iff_ne.mpr h, Bool.false_or]

theorem hasTag_addTags (tags : List Tag) (x : Tag) (t : Term) :
    (t.addTags tags).hasTag x = (tags.contains x || t.hasTag x) := by
  induction tags generalizing t with
  | nil => rfl
  | cons tag rest ih =>
      have hrest : (t.addTags (tag :: rest)).hasTag x =
          (rest.contains x || (t.addTag tag).hasTag x) := ih (t.addTag tag)
      rw [hrest, hasTag_addTag, List.contains_cons, Bool.or_left_comm, Bool.or_assoc]

theorem hasTag_addTags_of_notMem {tags : List Tag} {x : Tag} (h : x ∉ tags) (t : Term) :
    (t.addTags tags).hasTag x = t.hasTag x := by
  rw [hasTag_addTags, List.contains_eq_mem, decide_eq_false h, Bool.false_or]

end Term

end Vyakarana
