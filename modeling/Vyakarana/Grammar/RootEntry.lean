import Vyakarana.Grammar.Markers
import Vyakarana.Root

/-!
A root enters the derivation.

It loses its markers, its initial z or R gives way to s or n (6.1.64, 6.1.65), a root with
the marker i gets the nasal of 7.1.58, and a root of the akusmiya sub-list takes the
atmanepada endings. The root stands at the end of the row.
-/

namespace Vyakarana

-- The following stop or nasal had become retroflex through the z, and turns dental with it.
def dentalize (t : Text) : Text :=
  Text.replaceFirst "zR".toList "sn".toList
    (Text.replaceFirst "zW".toList "sT".toList (Text.replaceFirst "zw".toList "st".toList t))

-- Roots that keep their initial z.
def keepsZ : List Text := ["zWiv".toList, "zvazk".toList]

namespace Derivation

-- 6.1.64 and 6.1.65
def replaceInitial (i : Int) (d : Derivation) : Derivation :=
  match d.term? i with
  | none => d
  | some t =>
    if t.adi? == some 'z' then
      if t.hasTextIn keepsZ then d.record "6.1.64.v1"
      else if t.startsWithAny ["zw".toList, "zW".toList, "zR".toList] then
        d.alter "6.1.64.v2" i fun t => t.setText (dentalize t.text)
      else d.alter "6.1.64" i (·.substituteAdi ['s'])
    else if t.adi? == some 'R' then d.alter "6.1.65" i (·.substituteAdi ['n'])
    else d

-- 7.1.58
def nasalizeRoot (i : Int) (d : Derivation) : Derivation :=
  (d.alterIf "7.1.58" i (·.hasTag (.it .i)) (·.insertAfterVowel ['n'])).2

def markAkusmiya (root : Root) (d : Derivation) : Derivation :=
  if root.antargana == some .akusmiya then (d.addTag (.pada .atmanepada)).record "kusmadi" else d

def enterRoot (root : Root) (d : Derivation) : Outcome :=
  let i : Int := d.terms.length
  let d := (d.push (.ofRoot root.upadesha root.gana root.number)).record "start"
  ((d.alter "1.3.1" i (·.addTag .dhatu)).dropMarkers i).map fun d =>
    ((d.replaceInitial i).nasalizeRoot i).markAkusmiya root

end Derivation

end Vyakarana
