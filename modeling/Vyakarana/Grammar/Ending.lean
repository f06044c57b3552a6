import Vyakarana.Derivation.Search
import Vyakarana.Grammar.Markers

/-!
Personal endings (3.4.77 to 3.4.112).

`giveEnding` puts the ending of the requested person and number in the place of the
lakara. `fitEnding` then adjusts it to the lakara: the endings of the perfect, those of
the imperative, and the shortened ones of the lakaras with the marker N.
-/

namespace Vyakarana

def parasmaipadaEnding : Purusha → Vacana → Text
  | .prathama, .eka => "tip".toList
  | .prathama, .dvi => "tas".toList
  | .prathama, .bahu => "Ji".toList
  | .madhyama, .eka => "sip".toList
  | .madhyama, .dvi => "Tas".toList
  | .madhyama, .bahu => "Ta".toList
  | .uttama, .eka => "mip".toList
  | .uttama, .dvi => "vas".toList
  | .uttama, .bahu => "mas".toList

def atmanepadaEnding : Purusha → Vacana → Text
  | .prathama, .eka => "ta".toList
  | .prathama, .dvi => "AtAm".toList
  | .prathama, .bahu => "Ja".toList
  | .madhyama, .eka => "TAs".toList
  | .madhyama, .dvi => "ATAm".toList
  | .madhyama, .bahu => "Dvam".toList
  | .uttama, .eka => "iw".toList
  | .uttama, .dvi => "vahi".toList
  | .uttama, .bahu => "mahiN".toList

-- Equal places of two lists correspond to each other.
def corresponding? (needle : Text) (old new : List Text) : Option Text :=
  (old.zip new).lookup needle

-- The parasmaipada endings without their markers, and their substitutes in the perfect.
def parasmaipadaTexts : List Text :=
  ["ti".toList, "tas".toList, "Ji".toList, "si".toList, "Tas".toList, "Ta".toList, "mi".toList,
   "vas".toList, "mas".toList]

def perfectEndings : List Text :=
  ["Ral".toList, "atus".toList, "us".toList, "Tal".toList, "aTus".toList, "a".toList,
   "Ral".toList, "va".toList, "ma".toList]

-- Endings of all lakaras with the marker N, and what they turn into.
def nitTexts : List Text := ["tas".toList, "Tas".toList, "Ta".toList, "mi".toList]

def nitEndings : List Text := ["tAm".toList, "tam".toList, "ta".toList, "am".toList]

namespace Derivation

-- 3.4.78. The ending is no N-marked suffix, though the lakara may have been one and the
-- N of mahiN is there to form a pratyahara.
def giveEnding (purusha : Purusha) (vacana : Vacana) (d : Derivation) : Outcome :=
  match d.lastTagged? .pratyaya with
  | none => .done d
  | some i =>
    let ending :=
      if d.hasTag (.pada .atmanepada) then atmanepadaEnding purusha vacana
      else parasmaipadaEnding purusha vacana
    let d := d.update i (·.addTags [.vibhakti, .tin, .purusha purusha, .vacana vacana])
    (d.substitute "3.4.78" i ending).map fun d => d.update i (·.removeTag (.it .N))

-- 3.4.79 and 3.4.80: the atmanepada endings of a lakara with the marker w.
def fitWit (i : Nat) (d : Derivation) : Outcome :=
  if d.has i (·.hasText "TAs".toList) then d.substitute "3.4.80" i "se".toList
  else .done (d.alter "3.4.79" i (·.substituteTi ['e']))

-- 3.4.81 and 3.4.82: the perfect. The S of eS only says that the whole ending is replaced.
def fitPerfect (i : Nat) (d : Derivation) : Outcome :=
  match d.terms[i]? with
  | none => .done d
  | some ending =>
    if ending.hasTag (.pada .atmanepada) then
      match corresponding? ending.text ["ta".toList, "Ja".toList] ["eS".toList, "irec".toList] with
      | some sub => (d.substitute "3.4.81" i sub).map fun d => d.update i (·.removeTag (.it .S))
      | none => d.fitWit i
    else
      match corresponding? ending.text parasmaipadaTexts perfectEndings with
      | some sub => d.substitute "3.4.82" i sub
      | none => .done d

-- 3.4.86 to 3.4.93: the final of an ending in the imperative.
def fitImperativeFinal (i : Nat) (d : Derivation) : Derivation :=
  match d.terms[i]? with
  | none => d
  | some ending =>
    if ending.hasText "si".toList then
      d.alter "3.4.87" i fun t => (t.setUpadesha "hi".toList).removeTag (.it .p)
    else if ending.hasText "mi".toList then d.alter "3.4.89" i (·.setText "ni".toList)
    else if ending.antya? == some 'i' then d.alter "3.4.86" i (·.setAntya ['u'])
    else if ending.antya? == some 'e' then
      if ending.hasTag (.purusha .uttama) then d.alter "3.4.93" i (·.setAntya ['E'])
      else if "se".toList.isSuffixOf ending.text then
        d.alter "3.4.91" i fun t => t.setText (t.text.dropLast.dropLast ++ "sva".toList)
      else if "ve".toList.isSuffixOf ending.text then
        d.alter "3.4.91" i fun t => t.setText (t.text.dropLast.dropLast ++ "vam".toList)
      else d.alter "3.4.90" i (·.setAntya "Am".toList)
    else d

-- 3.4.101, 3.4.99 and 3.4.100: the shortened endings. `keepsI` exempts from the last.
def fitNit (i : Nat) (keepsI : Bool) (d : Derivation) : Derivation :=
  let d :=
    match (d.terms[i]?).bind fun t => corresponding? t.text nitTexts nitEndings with
    | some sub => d.alter "3.4.101" i (·.setText sub)
    | none => d
  if d.has i (·.hasTag (.pada .parasmaipada)) then
    let d :=
      if d.has i fun t => t.hasTag (.purusha .uttama) && t.antya? == some 's' then
        d.alter "3.4.99" i (·.setAntya [])
      else d
    if d.has i (fun t => t.antya? == some 'i') && !keepsI then
      d.alter "3.4.100" i (·.setAntya [])
    else d
  else d

-- The imperative has the endings of lan (3.4.85), and 3.4.92 puts Aw before the first person.
def fitImperative (i : Nat) (d : Derivation) : Outcome :=
  let d := d.fitImperativeFinal i
  if d.has i (·.hasTag (.purusha .uttama)) then
    ((d.update i (·.addTag (.it .p))).augmentBefore "3.4.92" i "Aw".toList).map fun d =>
      d.fitNit (i + 1) true
  else .done (d.fitNit i true)

def fitEnding (lakara : Lakara) (d : Derivation) : Outcome :=
  match d.lastTagged? .tin with
  | none => .done d
  | some i =>
    if lakara = .lit then d.fitPerfect i
    else
      let fitted :=
        if d.has i (·.hasTag (.pada .atmanepada)) && lakara.isWit then d.fitWit i else .done d
      if lakara = .lot then fitted.andThen (·.fitImperative i)
      else if lakara.isNit then fitted.map fun d => d.fitNit i false
      else fitted

end Derivation

end Vyakarana
