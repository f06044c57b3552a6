import Vyakarana.Category

/-!
Labels of a term or of a whole derivation.

A marker that is dropped from a taught form lives on as the tag `it m`: "kit" is
`it .k`, "Nit" is `it .N`. The categories of a request are tags as well. `name` is the
traditional spelling of a tag, in which case is significant.
-/

namespace Vyakarana

-- The markers, each named for the sound or the sounds that it is written with.
inductive Marker
  | a | A | i | I | u | U | f | x | e | o
  | k | N | c | Y | w | R | n | p | m | l | S | z
  | ir | Yi | wu | qu
deriving DecidableEq, Repr

namespace Marker

def all : List Marker :=
  [.a, .A, .i, .I, .u, .U, .f, .x, .e, .o, .k, .N, .c, .Y, .w, .R, .n, .p, .m, .l, .S, .z,
   .ir, .Yi, .wu, .qu]

-- The marker that a single dropped sound stands for.
def ofSound? : Char → Option Marker
  | 'a' => some .a
  | 'A' => some .A
  | 'i' => some .i
  | 'I' => some .I
  | 'u' => some .u
  | 'U' => some .U
  | 'f' => some .f
  | 'x' => some .x
  | 'e' => some .e
  | 'o' => some .o
  | 'k' => some .k
  | 'N' => some .N
  | 'c' => some .c
  | 'Y' => some .Y
  | 'w' => some .w
  | 'R' => some .R
  | 'n' => some .n
  | 'p' => some .p
  | 'm' => some .m
  | 'l' => some .l
  | 'S' => some .S
  | 'z' => some .z
  | _ => none

def name : Marker → String
  | .a => "adit"
  | .A => "Adit"
  | .i => "idit"
  | .I => "Idit"
  | .u => "udit"
  | .U => "Udit"
  | .f => "fdit"
  | .x => "xdit"
  | .e => "edit"
  | .o => "odit"
  | .k => "kit"
  | .N => "Nit"
  | .c => "cit"
  | .Y => "Yit"
  | .w => "wit"
  | .R => "Rit"
  | .n => "nit"
  | .p => "pit"
  | .m => "mit"
  | .l => "lit"
  | .S => "Sit"
  | .z => "zit"
  | .ir => "irit"
  | .Yi => "YIt"
  | .wu => "wvit"
  | .qu => "qvit"

end Marker

inductive Tag
  -- kinds of morphemes
  | upasarga | dhatu | agama | pratyaya | vibhakti | tin | krt | sup | taddhita | vikarana
  | it (marker : Marker)
  -- low and falling accent, on a kept sound and on a nasal marker vowel
  | anudatta | svarita | anudattet | svaritet
  | pada (pada : Pada)
  | prayoga (prayoga : Prayoga)
  | purusha (purusha : Purusha)
  | vacana (vacana : Vacana)
  -- the benedictive
  | ashih
  -- the copy of a reduplicated root, and both parts of it
  | abhyasa | abhyasta
  | sarvadhatuka | ardhadhatuka
  -- a root that an earlier rule has exempted from guna
  | gunaExempt
deriving DecidableEq, Repr

namespace Tag

def all : List Tag :=
  [.upasarga, .dhatu, .agama, .pratyaya, .vibhakti, .tin, .krt, .sup, .taddhita, .vikarana] ++
    Marker.all.map .it ++ [.anudatta, .svarita, .anudattet, .svaritet] ++
    [.pada .parasmaipada, .pada .atmanepada] ++ Prayoga.all.map .prayoga ++
    Purusha.all.map .purusha ++ Vacana.all.map .vacana ++
    [.ashih, .abhyasa, .abhyasta, .sarvadhatuka, .ardhadhatuka, .gunaExempt]

def name : Tag → String
  | .upasarga => "Upasarga"
  | .dhatu => "Dhatu"
  | .agama => "Agama"
  | .pratyaya => "Pratyaya"
  | .vibhakti => "Vibhakti"
  | .tin => "Tin"
  | .krt => "Krt"
  | .sup => "Sup"
  | .taddhita => "Taddhita"
  | .vikarana => "Vikarana"
  | .it marker => marker.name
  | .anudatta => "Anudatta"
  | .svarita => "Svarita"
  | .anudattet => "anudattet"
  | .svaritet => "svaritet"
  | .pada .parasmaipada => "Parasmaipada"
  | .pada .atmanepada => "Atmanepada"
  | .prayoga .kartari => "Kartari"
  | .prayoga .karmani => "Karmani"
  | .prayoga .bhave => "Bhave"
  | .purusha .prathama => "Prathama"
  | .purusha .madhyama => "Madhyama"
  | .purusha .uttama => "Uttama"
  | .vacana .eka => "Ekavacana"
  | .vacana .dvi => "Dvivacana"
  | .vacana .bahu => "Bahuvacana"
  | .ashih => "Ashih"
  | .abhyasa => "Abhyasa"
  | .abhyasta => "Abhyasta"
  | .sarvadhatuka => "Sarvadhatuka"
  | .ardhadhatuka => "Ardhadhatuka"
  | .gunaExempt => "FlagGunaApavada"

def ofName? (name : String) : Option Tag := all.find? (·.name == name)

-- A set of tags is a list without repeats, in the order in which they were added.
def insert (tag : Tag) (tags : List Tag) : List Tag :=
  if tags.contains tag then tags else tags ++ [tag]

def erase (tag : Tag) (tags : List Tag) : List Tag := tags.filter (· != tag)

theorem mem_insert {x tag : Tag} {tags : List Tag} : x ∈ insert tag tags ↔ x = tag ∨ x ∈ tags := by
  unfold insert
  split
  · simp_all
  · simp [or_comm]

theorem mem_erase {x tag : Tag} {tags : List Tag} : x ∈ erase tag tags ↔ x ∈ tags ∧ x ≠ tag := by
  simp [erase]

end Tag

end Vyakarana
