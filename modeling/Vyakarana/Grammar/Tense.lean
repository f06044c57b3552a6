import Vyakarana.Derivation.Search
import Vyakarana.Grammar.Markers

/-!
The abstract suffix of tense or mood, which stands after the last root.
-/

namespace Vyakarana

-- The rule that teaches a lakara.
def Lakara.rule : Lakara → Rule
  | .lat => "3.3.123"
  | .lit => "3.2.114"
  | .lut => "3.3.15"
  | .lrt => "3.3.13"
  | .let => "3.4.7"
  | .lot => "3.3.162"
  | .lan => "3.2.111"
  | .vidhilin => "3.3.161"
  | .ashirlin => "3.3.173"
  | .lun => "3.2.110"
  | .lrn => "3.3.139"

namespace Derivation

def addLakara (lakara : Lakara) (d : Derivation) : Outcome :=
  match d.lastTagged? .dhatu with
  | none => .done d
  | some i =>
    let d := if lakara = .ashirlin then d.addTag .ashih else d
    d.suffixAfter lakara.rule i lakara.upadesha [.pratyaya]

end Derivation

end Vyakarana
