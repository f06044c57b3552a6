import Vyakarana.Derivation.Splice

/-!
Sound rules, applied until they come to rest.

A sweep looks through the running text from the left, lets the rule act at the first site
where it applies and changes something, and starts over. It ends with a look through the
whole text that changes nothing. The number of changes is bounded by a limit; a sweep that
would go beyond it has no result.
-/

namespace Vyakarana

-- A position of the running text, as it was when the look through the text began.
structure Site where
  derivation : Derivation
  text : Text
  offset : Nat

namespace Site

def here? (s : Site) : Option Char := s.text[s.offset]?

def next? (s : Site) : Option Char := s.text[s.offset + 1]?

def prev? (s : Site) : Option Char := if s.offset = 0 then none else s.text[s.offset - 1]?

def owner? (s : Site) : Option Term := s.derivation.owner? s.offset

-- Whether this sound and the next one belong to different terms.
def isBoundary (s : Site) : Bool :=
  s.derivation.ownerIndex? s.offset != s.derivation.ownerIndex? ((s.offset + 1 : Nat) : Int)

def replace (s : Site) (sub : Text) : Derivation := s.derivation.splice s.offset sub

def replaceNext (s : Site) (sub : Text) : Derivation :=
  s.derivation.splice ((s.offset + 1 : Nat) : Int) sub

-- One substitute for this sound and the next one.
def merge (s : Site) (sub : Text) : Derivation := (s.replaceNext []).splice s.offset sub

end Site

-- Where a rule applies, and what it does there. The flag tells whether the rule claims
-- to have changed something.
structure SoundRule where
  applies : Site → Bool
  act : Site → Derivation × Bool

namespace SoundRule

-- A rule that changes something wherever it applies, and is recorded.
def recorded (rule : Rule) (applies : Site → Bool) (change : Site → Derivation) : SoundRule :=
  ⟨applies, fun s => ((change s).record rule, true)⟩

-- The first of the offsets at which the rule reports a change.
def scan (r : SoundRule) (text : Text) : List Nat → Derivation → Derivation × Bool
  | [], d => (d, false)
  | offset :: rest, d =>
    let site : Site := ⟨d, text, offset⟩
    if r.applies site then
      match r.act site with
      | (changed, true) => (changed, true)
      | (unchanged, false) => r.scan text rest unchanged
    else r.scan text rest d

def scanAll (r : SoundRule) (d : Derivation) : Derivation × Bool :=
  r.scan d.text (List.range d.text.length) d

-- The derivation at rest and the number of changes, unless there are more than `limit`.
def sweep? (r : SoundRule) : Nat → Derivation → Option (Derivation × Nat)
  | limit, d =>
    match r.scanAll d, limit with
    | (atRest, false), _ => some (atRest, 0)
    | (_, true), 0 => none
    | (changed, true), limit + 1 => (r.sweep? limit changed).map fun (d, n) => (d, n + 1)

end SoundRule

namespace Derivation

-- As part of a derivation, a sweep beyond its limit is a fault.
def sweep (r : SoundRule) (limit : Nat) (d : Derivation) : Outcome :=
  match r.sweep? limit d with
  | some (d, _) => .done d
  | none => .failed .unfinished d

end Derivation

end Vyakarana
