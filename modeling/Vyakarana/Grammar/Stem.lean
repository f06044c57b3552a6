import Vyakarana.Grammar.Stem.Contact
import Vyakarana.Grammar.Stem.Strengthening

/-!
The stem, from the first augments to its contact with the suffix (6.4.1 to 7.4.97).
-/

namespace Vyakarana.Derivation

def shapeStem (d : Derivation) : Outcome :=
  d.prepareStem.map fun d => d.strengthenStem.joinStem

end Vyakarana.Derivation
