import Vyakarana.Sound.Alphabet

/-!
Sets of sounds.

A class lists its sounds in traditional order and without repeats, so two classes built
from texts are equal exactly when the texts have the same characters. `ofText` builds the
class of a text by ordered insertion.
-/

namespace Vyakarana

structure SoundClass where
  sounds : List Char
deriving DecidableEq, Repr

namespace SoundClass

-- Keeps the order; a sound that is already listed is not listed again.
def insertSound (c : Char) : List Char → List Char
  | [] => [c]
  | x :: rest =>
    if c = x then x :: rest
    else if Sound.precedes c x then c :: x :: rest
    else x :: insertSound c rest

def ofText (w : Text) : SoundClass := ⟨w.foldr insertSound []⟩

def contains (C : SoundClass) (c : Char) : Bool := C.sounds.contains c

-- Where there is no sound, it is in no class.
def containsSome (C : SoundClass) (c : Option Char) : Bool := c.any C.contains

theorem mem_insertSound {c x : Char} {l : List Char} :
    x ∈ insertSound c l ↔ x = c ∨ x ∈ l := by
  induction l with
  | nil => simp [insertSound]
  | cons y rest ih =>
    unfold insertSound
    split
    · simp_all
    · split
      · simp
      · simp only [List.mem_cons, ih]
        constructor
        · rintro (h | h | h) <;> simp [h]
        · rintro (h | h | h) <;> simp [h]

theorem mem_ofText {x : Char} {w : Text} : x ∈ (ofText w).sounds ↔ x ∈ w := by
  induction w with
  | nil => simp [ofText]
  | cons c rest ih =>
    simp only [ofText, List.foldr_cons, mem_insertSound, List.mem_cons] at ih ⊢
    rw [ih]

-- What holds of the text of a class holds of its sounds, in whatever order they are listed.
theorem forall_ofText {p : Char → Prop} {w : Text} (h : ∀ c ∈ w, p c) :
    ∀ c ∈ (ofText w).sounds, p c :=
  fun c hc => h c (mem_ofText.mp hc)

theorem ofText_ne_nil {w : Text} (h : w ≠ []) : (ofText w).sounds ≠ [] := by
  obtain ⟨c, hc⟩ := List.exists_mem_of_ne_nil w h
  exact List.ne_nil_of_mem (mem_ofText.mpr hc)

-- The classes that the rules of grammar name.
def ac : SoundClass := ofText "aAiIuUfFxXeEoO".toList
def ak : SoundClass := ofText "aAiIuUfFxX".toList
def ik : SoundClass := ofText "iIuUfFxX".toList
def ic : SoundClass := ofText "iIuUfFxXeEoO".toList
def ec : SoundClass := ofText "eEoO".toList
def hal : SoundClass := ofText "kKgGNcCjJYwWqQRtTdDnpPbBmyrlvSzsh".toList
def val : SoundClass := ofText "kKgGNcCjJYwWqQRtTdDnpPbBmrlvSzsh".toList
def yany : SoundClass := ofText "NJYRnBmyrlv".toList
def nasals : SoundClass := ofText "NYRnm".toList
def jhal : SoundClass := ofText "kKgGcCjJwWqQtTdDpPbBSzsh".toList
def jhash : SoundClass := ofText "gGjJqQdDbB".toList
def jhay : SoundClass := ofText "kKgGcCjJwWqQtTdDpPbB".toList
def khar : SoundClass := ofText "kKcCwWtTpPSzs".toList
def khay : SoundClass := ofText "kKcCwWtTpP".toList
def shar : SoundClass := ofText "Szs".toList
def car : SoundClass := ofText "kcwtpSzs".toList

end SoundClass

end Vyakarana
