import Vyakarana.Derivation

/-!
The two classes of suffixes (3.4.113 to 3.4.115).

A personal ending or a suffix with the marker S is sarvadhatuka, any other suffix is
ardhadhatuka, and so are the endings of the perfect. A suffix that has its class keeps it,
so that the rules can be applied again whenever suffixes have been added.
-/

namespace Vyakarana

-- The endings that stand for lit, the perfect.
def Term.isPerfectEnding (t : Term) : Bool := t.hasTag .tin && t.hasLakshana "li~w".toList

namespace Derivation

def classifySuffix (d : Derivation) (i : Nat) : Derivation :=
  match d.terms[i]? with
  | none => d
  | some t =>
    if !t.hasTag .pratyaya || t.hasTagIn [.sarvadhatuka, .ardhadhatuka] then d
    else if t.isPerfectEnding then d.alter "3.4.115" i (·.addTag .ardhadhatuka)
    else if t.hasTagIn [.tin, .it .S] then d.alter "3.4.113" i (·.addTag .sarvadhatuka)
    else d.alter "3.4.114" i (·.addTag .ardhadhatuka)

def classifySuffixes (d : Derivation) : Derivation := d.forEach classifySuffix

end Derivation

end Vyakarana
