import Vyakarana.Sound.ClassExpression

/-!
The ways a derivation, or a look into the tables behind it, can fail.
-/

namespace Vyakarana

inductive Fault
  -- The sound was to be dropped as a marker, but marks nothing.
  | notMarker (sound : Text)
  -- The sound has no articulation in the table in use.
  | noFeatures (sound : Text)
  | expression (error : ClassError)
  -- A search began before the first term.
  | outOfRange
  -- A repeated rule was cut off before it came to rest.
  | unfinished
deriving DecidableEq, Repr

namespace Fault

def message : Fault → Text
  | .notMarker sound => Text.quoted sound ++ " is not an it marker".toList
  | .noFeatures sound => Text.quoted sound
  | .expression error => error.message
  | .outOfRange => "list index out of range".toList
  | .unfinished => "the rule did not come to rest".toList

end Fault

end Vyakarana
