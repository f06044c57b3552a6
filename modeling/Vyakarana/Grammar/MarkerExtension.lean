import Vyakarana.Derivation.Search
import Vyakarana.Grammar.SuffixClass

/-!
Suffixes that count as having a marker (1.2.4 and 1.2.5).

A sarvadhatuka suffix without the marker p behaves as if it had the marker N. An ending of
the perfect without p behaves as if it had the marker k, unless the root before it ends in
two consonants. Both markers block guna and vrddhi.
-/

namespace Vyakarana.Derivation

def extendMarker (d : Derivation) (i : Nat) : Derivation :=
  match d.terms[i]? with
  | none => d
  | some t =>
    if !t.hasTag .pratyaya || t.hasTag (.it .p) then d
    else if t.hasTag .sarvadhatuka then
      if t.hasTag (.it .N) then d else d.alter "1.2.4" i (·.addTag (.it .N))
    else if t.isPerfectEnding && !t.hasTag (.it .k) then
      match d.lastBefore? i (·.hasTag .dhatu) with
      | some root =>
        if d.has root (·.isSamyoganta) then d else d.alter "1.2.5" i (·.addTag (.it .k))
      | none => d
    else d

def extendMarkers (d : Derivation) : Derivation := d.forEach extendMarker

end Vyakarana.Derivation
