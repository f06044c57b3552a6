import Vyakarana.Fault

/-!
What a sound can be compared with: one sound, or a class of sounds.
-/

namespace Vyakarana

-- A text of another length than one matches no sound.
inductive Pattern
  | exactly (text : Text)
  | oneOf (sounds : SoundClass)
deriving DecidableEq, Repr

namespace Pattern

-- Where there is no sound, nothing matches.
def accepts (p : Pattern) (sound : Option Char) : Bool :=
  sound.any fun c =>
    match p with
    | .exactly text => text == [c]
    | .oneOf sounds => sounds.contains c

def ofClass (expr : Text) : Except Fault Pattern :=
  match SoundClass.decode expr with
  | .ok sounds => .ok (.oneOf sounds)
  | .error e => .error (.expression e)

-- A text of several characters is meant as a class expression.
def expand : Pattern → Except Fault Pattern
  | .exactly text => if 1 < text.length then ofClass text else .ok (.exactly text)
  | .oneOf sounds => .ok (.oneOf sounds)

end Pattern

end Vyakarana
