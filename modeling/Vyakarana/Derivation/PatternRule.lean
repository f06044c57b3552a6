import Vyakarana.Derivation.Sweep

/-!
Sound rules given by patterns.

The rule applies where the sounds from a position on match the patterns one by one. It then
makes its edits in order, each of which replaces the sound at a distance from that
position, as the text is by then, and records itself. A rule without edits records itself
wherever it applies, and never reports a change.
-/

namespace Vyakarana

structure PatternRule where
  rule : Rule
  patterns : List Pattern
  -- distances and substitutes
  edits : List (Int × Text)

namespace PatternRule

def matchesAt (patterns : List Pattern) (text : Text) : Bool :=
  patterns.length ≤ text.length &&
    (patterns.zip text).all fun (pattern, c) => pattern.accepts (some c)

def makeEdits (r : PatternRule) (offset : Nat) (d : Derivation) : Derivation :=
  r.edits.foldl (fun d (distance, sub) => d.splice (offset + distance) sub) d

def soundRule (r : PatternRule) : SoundRule where
  applies s := matchesAt r.patterns (s.text.drop s.offset)
  act s := ((r.makeEdits s.offset s.derivation).record r.rule, !r.edits.isEmpty)

end PatternRule

end Vyakarana
