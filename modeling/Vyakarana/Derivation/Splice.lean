import Vyakarana.Derivation

/-!
Single sounds of the running text.

The text of a derivation is split across its terms. Position `k` of the running text
belongs to one term, its owner; a splice replaces that sound inside its owner.
-/

namespace Vyakarana

-- The index of the owner and the place of the sound in its text.
def locate? : List Term → Nat → Option (Nat × Nat)
  | [], _ => none
  | t :: rest, k =>
    if k < t.text.length then some (0, k)
    else (locate? rest (k - t.text.length)).map fun (i, place) => (i + 1, place)

def spliceTerms : List Term → Nat → Text → List Term
  | [], _, _ => []
  | t :: rest, k, s =>
    if k < t.text.length then t.setText (t.text.take k ++ s ++ t.text.drop (k + 1)) :: rest
    else t :: spliceTerms rest (k - t.text.length) s

@[simp] theorem length_spliceTerms (ts : List Term) (k : Nat) (s : Text) :
    (spliceTerms ts k s).length = ts.length := by
  induction ts generalizing k with
  | nil => rfl
  | cons t rest ih =>
    unfold spliceTerms
    split
    · rfl
    · simp [ih]

-- A splice in the running text is a splice in the text of the owner.
theorem flatMap_spliceTerms (ts : List Term) (k : Nat) (s : Text)
    (hk : k < (ts.flatMap (·.text)).length) :
    (spliceTerms ts k s).flatMap (·.text) =
      (ts.flatMap (·.text)).take k ++ s ++ (ts.flatMap (·.text)).drop (k + 1) := by
  induction ts generalizing k with
  | nil => simp at hk
  | cons t rest ih =>
    unfold spliceTerms
    simp only [List.flatMap_cons, List.length_append] at hk ⊢
    split
    · rename_i h
      rw [List.take_append_of_le_length (by omega), List.drop_append_of_le_length (by omega)]
      simp [Term.setText]
    · rename_i h
      have hr : k + 1 - t.text.length = k - t.text.length + 1 := by omega
      rw [List.flatMap_cons, ih _ (by omega), List.take_append, List.drop_append,
        List.take_of_length_le (by omega : t.text.length ≤ k),
        List.drop_eq_nil_of_le (by omega : t.text.length ≤ k + 1), hr]
      simp

namespace Derivation

def ownerIndex? (d : Derivation) (k : Int) : Option Nat :=
  k.toNat?.bind fun n => (locate? d.terms n).map (·.1)

def owner? (d : Derivation) (k : Int) : Option Term :=
  (d.ownerIndex? k).bind (d.terms[·]?)

-- Outside the text there is nothing to replace.
def splice (k : Int) (s : Text) (d : Derivation) : Derivation :=
  match k.toNat? with
  | some n => { d with terms := spliceTerms d.terms n s }
  | none => d

end Derivation

end Vyakarana
