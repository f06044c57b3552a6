import Vyakarana.Text.Basic

/-!
The grammatical categories that select a finite verb form.

Each category has a spelling in lower case, which is how requests name it.
-/

namespace Vyakarana

-- Voice.
inductive Prayoga
  | kartari | karmani | bhave
deriving DecidableEq, Repr

-- Person. The prathama is the third person.
inductive Purusha
  | prathama | madhyama | uttama
deriving DecidableEq, Repr

-- Number.
inductive Vacana
  | eka | dvi | bahu
deriving DecidableEq, Repr

-- Tense or mood, with lin split into its two uses.
inductive Lakara
  | lat | lit | lut | lrt | «let» | lot | lan | vidhilin | ashirlin | lun | lrn
deriving DecidableEq, Repr

-- The set of personal endings.
inductive Pada
  | parasmaipada | atmanepada
deriving DecidableEq, Repr

-- Sub-lists of a root class. Suffixes after a kutadi root are Nit; the akusmiya roots
-- always take the atmanepada endings.
inductive Antargana
  | kutadi | akusmiya
deriving DecidableEq, Repr

namespace Prayoga

def all : List Prayoga := [.kartari, .karmani, .bhave]

def spelling : Prayoga → String
  | .kartari => "kartari"
  | .karmani => "karmani"
  | .bhave => "bhave"

end Prayoga

namespace Purusha

def all : List Purusha := [.prathama, .madhyama, .uttama]

def spelling : Purusha → String
  | .prathama => "prathama"
  | .madhyama => "madhyama"
  | .uttama => "uttama"

end Purusha

namespace Vacana

def all : List Vacana := [.eka, .dvi, .bahu]

def spelling : Vacana → String
  | .eka => "eka"
  | .dvi => "dvi"
  | .bahu => "bahu"

end Vacana

namespace Antargana

def all : List Antargana := [.kutadi, .akusmiya]

def spelling : Antargana → String
  | .kutadi => "kutadi"
  | .akusmiya => "akusmiya"

end Antargana

namespace Lakara

def all : List Lakara :=
  [.lat, .lit, .lut, .lrt, .let, .lot, .lan, .vidhilin, .ashirlin, .lun, .lrn]

def spelling : Lakara → String
  | .lat => "lat"
  | .lit => "lit"
  | .lut => "lut"
  | .lrt => "lrt"
  | .let => "let"
  | .lot => "lot"
  | .lan => "lan"
  | .vidhilin => "vidhilin"
  | .ashirlin => "ashirlin"
  | .lun => "lun"
  | .lrn => "lrn"

-- The lakara as it is taught, markers included. Both uses of lin are taught alike.
def upadesha : Lakara → Text
  | .lat => "la~w".toList
  | .lit => "li~w".toList
  | .lut => "lu~w".toList
  | .lrt => "lf~w".toList
  | .let => "le~w".toList
  | .lot => "lo~w".toList
  | .lan => "la~N".toList
  | .vidhilin | .ashirlin => "li~N".toList
  | .lun => "lu~N".toList
  | .lrn => "lf~N".toList

def isSarvadhatuka : Lakara → Bool
  | .lat | .lot | .lan | .vidhilin => true
  | _ => false

-- The lakaras whose marker is N; the others have the marker w.
def isNit : Lakara → Bool
  | .lan | .vidhilin | .ashirlin | .lun | .lrn => true
  | _ => false

def isWit (l : Lakara) : Bool := !l.isNit

end Lakara

end Vyakarana
