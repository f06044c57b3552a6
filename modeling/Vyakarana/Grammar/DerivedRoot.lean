import Vyakarana.Derivation.Search
import Vyakarana.Grammar.Markers

/-!
Roots derived from roots (3.1.25, 3.1.32): a root of the tenth class takes the suffix Ric,
and counts as a root together with it.
-/

namespace Vyakarana.Derivation

def addRic (d : Derivation) : Outcome :=
  match d.lastTagged? .dhatu with
  | none => .done d
  | some i =>
    if d.has i (·.gana == some 10) then
      (d.suffixAfter "3.1.25" i "Ric".toList [.pratyaya]).map fun d =>
        d.alter "3.1.32" ((i + 1 : Nat) : Int) (·.addTag .dhatu)
    else .done d

end Vyakarana.Derivation
