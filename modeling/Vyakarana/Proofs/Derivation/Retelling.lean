import Vyakarana.Derivation.PatternRule
import Vyakarana.Derivation.Search
import Vyakarana.Proofs.Derivation.Frame

/-!
The same derivation, told otherwise.

Rules look at the row of terms, at the tags and at the table. The history and the ledger are only
ever added to, and the choices are looked at by optional rules alone. A retelling exchanges any of
these for others, and may leave steps out; whatever is done to a derivation can be done to its
retelling just as well.
-/

namespace Vyakarana

-- What is exchanged must not be told from the row or the tags, and the steps that are yet to come
-- are told in the same manner.
structure Retelling where
  tell : Derivation → Derivation
  terms : ∀ d, (tell d).terms = d.terms
  tags : ∀ d, (tell d).tags = d.tags
  table : ∀ d, (tell d).table = d.table
  setTerms : ∀ (d : Derivation) (ts : List Term),
    { tell d with terms := ts } = tell { d with terms := ts }
  setTags : ∀ (d : Derivation) (tags : List Tag),
    { tell d with tags := tags } = tell { d with tags := tags }
  record : ∀ (d : Derivation) (rule : Rule), (tell d).record rule = tell (d.record rule)

def Derivation.retold (φ : Retelling) (d : Derivation) : Derivation := φ.tell d

-- No step is noted, and none has been.
def Derivation.silenced (d : Derivation) : Derivation :=
  { d with history := [], recording := false }

namespace Retelling

def silence : Retelling where
  tell := Derivation.silenced
  terms _ := rfl
  tags _ := rfl
  table _ := rfl
  setTerms _ _ := rfl
  setTags _ _ := rfl
  record d rule := by
    rcases d with ⟨terms, tags, history, ledger, choices, recording, table⟩
    cases recording <;> rfl

-- Other choices, and whatever they may have led to so far.
def rechoose (choices : Choices) (ledger : List Decision → List Decision) : Retelling where
  tell d := { d with choices := choices, ledger := ledger d.ledger }
  terms _ := rfl
  tags _ := rfl
  table _ := rfl
  setTerms _ _ := rfl
  setTags _ _ := rfl
  record d rule := by
    unfold Derivation.record
    split <;> rfl

end Retelling

variable (φ : Retelling)

namespace Outcome

def retold (o : Outcome) : Outcome :=
  match o with
  | .done d => .done (d.retold φ)
  | .failed fault d => .failed fault (d.retold φ)

@[simp] theorem retold_done (d : Derivation) : (done d).retold φ = .done (d.retold φ) := rfl

@[simp] theorem retold_failed (fault : Fault) (d : Derivation) :
    (failed fault d).retold φ = .failed fault (d.retold φ) := rfl

end Outcome

namespace Derivation

section Queries

variable (d : Derivation)

@[simp] theorem terms_retold : (d.retold φ).terms = d.terms := φ.terms d

@[simp] theorem tags_retold : (d.retold φ).tags = d.tags := φ.tags d

@[simp] theorem table_retold : (d.retold φ).table = d.table := φ.table d

@[simp] theorem text_retold : (d.retold φ).text = d.text := by simp [text]

@[simp] theorem term?_retold (i : Int) : (d.retold φ).term? i = d.term? i := by simp [term?]

@[simp] theorem view?_retold (i : Int) : (d.retold φ).view? i = d.view? i := by simp [view?]

@[simp] theorem has_retold (i : Int) (f : Term → Bool) : (d.retold φ).has i f = d.has i f := by
  simp [has]

@[simp] theorem hasTag_retold (tag : Tag) : (d.retold φ).hasTag tag = d.hasTag tag := by
  simp [hasTag]

@[simp] theorem hasTagIn_retold (tags : List Tag) :
    (d.retold φ).hasTagIn tags = d.hasTagIn tags := by
  rw [hasTagIn, hasTagIn, funext (hasTag_retold φ d)]

@[simp] theorem findFirst?_retold (f : Term → Bool) :
    (d.retold φ).findFirst? f = d.findFirst? f := by
  simp [findFirst?]

@[simp] theorem findLast?_retold (f : Term → Bool) :
    (d.retold φ).findLast? f = d.findLast? f := by
  simp [findLast?]

@[simp] theorem firstTagged?_retold (tag : Tag) :
    (d.retold φ).firstTagged? tag = d.firstTagged? tag := by
  simp [firstTagged?]

@[simp] theorem lastTagged?_retold (tag : Tag) :
    (d.retold φ).lastTagged? tag = d.lastTagged? tag := by
  simp [lastTagged?]

end Queries

section Operations

variable (d : Derivation)

@[simp] theorem record_retold (rule : Rule) :
    (d.retold φ).record rule = (d.record rule).retold φ := φ.record d rule

theorem setTerms_retold (ts : List Term) :
    { d.retold φ with terms := ts } = ({ d with terms := ts } : Derivation).retold φ :=
  φ.setTerms d ts

@[simp] theorem addTag_retold (tag : Tag) :
    (d.retold φ).addTag tag = (d.addTag tag).retold φ := by
  rw [addTag, tags_retold]
  exact φ.setTags d _

@[simp] theorem addTags_retold (tags : List Tag) :
    (d.retold φ).addTags tags = (d.addTags tags).retold φ := by
  induction tags generalizing d with
  | nil => rfl
  | cons tag rest ih =>
      calc (d.retold φ).addTags (tag :: rest) = ((d.retold φ).addTag tag).addTags rest := rfl
        _ = ((d.addTag tag).addTags rest).retold φ := by rw [addTag_retold, ih]

@[simp] theorem update_retold (i : Int) (f : Term → Term) :
    (d.retold φ).update i f = (d.update i f).retold φ := by
  unfold update
  split
  · rw [terms_retold, setTerms_retold]
  · rfl

@[simp] theorem push_retold (t : Term) : (d.retold φ).push t = (d.push t).retold φ := by
  rw [push, terms_retold, setTerms_retold, push]

end Operations

end Derivation

end Vyakarana
