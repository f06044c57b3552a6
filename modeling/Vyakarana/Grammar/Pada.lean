import Vyakarana.Derivation.Search

/-!
The choice of the set of endings (1.3.12 to 1.3.78).

The atmanepada endings go with the passive and the impersonal, and with roots whose
markers ask for them; some roots and the suffix Ric leave the choice open; otherwise the
endings are the parasmaipada ones.
-/

namespace Vyakarana.Derivation

-- The derivation and its last suffix both bear the tag.
def markPada (pada : Pada) (d : Derivation) : Derivation :=
  let d := d.addTag (.pada pada)
  match d.lastTagged? .pratyaya with
  | some i => d.update i (·.addTag (.pada pada))
  | none => d

-- 1.3.78: the rest.
def markParasmaipada (d : Derivation) : Derivation :=
  (d.markPada .parasmaipada).record "1.3.78"

-- An optional rule for the atmanepada; the parasmaipada follows if it is declined.
def optionalPada (rule : Rule) (d : Derivation) : Derivation :=
  match d.optionally rule (·.markPada .atmanepada) with
  | (true, d) => d
  | (false, d) => d.markParasmaipada

def choosePada (d : Derivation) : Derivation :=
  match d.firstTagged? .dhatu, d.lastTagged? .dhatu with
  | some first, some last =>
    if d.hasTag (.pada .atmanepada) then d.markPada .atmanepada
    else if d.hasTagIn [.prayoga .karmani, .prayoga .bhave] then
      (d.markPada .atmanepada).record "1.3.13"
    else if d.has first (·.hasTagIn [.anudattet, .it .N]) then
      (d.markPada .atmanepada).record "1.3.12"
    else if d.has first (·.hasTagIn [.svaritet, .it .Y]) then d.optionalPada "1.3.72"
    else if d.has last (·.isTaught "Ric".toList) then d.optionalPada "1.3.74"
    else d.markParasmaipada
  | _, _ => d

end Vyakarana.Derivation
