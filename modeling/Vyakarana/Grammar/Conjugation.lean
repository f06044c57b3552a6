import Vyakarana.Grammar.DerivedRoot
import Vyakarana.Grammar.Ending
import Vyakarana.Grammar.FinalSandhi
import Vyakarana.Grammar.ItAugment
import Vyakarana.Grammar.MarkerExtension
import Vyakarana.Grammar.Pada
import Vyakarana.Grammar.Reduplication
import Vyakarana.Grammar.RootEntry
import Vyakarana.Grammar.Stem
import Vyakarana.Grammar.StemSuffix
import Vyakarana.Grammar.Tense
import Vyakarana.Grammar.VowelSandhi

/-!
The derivation of a finite verb form from its root.
-/

namespace Vyakarana

-- What a finite form expresses.
structure VerbForm where
  lakara : Lakara
  purusha : Purusha
  vacana : Vacana
  prayoga : Prayoga
deriving DecidableEq, Repr

-- What the rules do not cover.
inductive Unsupported
  | gana (gana : Int)
  | lakara (lakara : Lakara)
deriving DecidableEq, Repr

namespace Unsupported

def message : Unsupported → String
  | .gana n => "Gana " ++ toString n ++ " is not supported"
  | .lakara l => "Lakara " ++ l.spelling ++ " is not supported"

end Unsupported

def supportedGanas : List Int := [1, 4, 6, 10]

def supportedLakaras : List Lakara := [.lat, .lit, .lrt, .lot, .lan]

-- The class of the root is looked at first.
def unsupported? (root : Root) (lakara : Lakara) : Option Unsupported :=
  if !supportedGanas.contains root.gana then some (.gana root.gana)
  else if !supportedLakaras.contains lakara then some (.lakara lakara)
  else none

namespace Derivation

-- The perfect has its own endings, which the rules for stem suffixes look at; the endings
-- of the other lakaras are fitted once the stem suffix is there.
def addSuffixes (form : VerbForm) (d : Derivation) : Outcome :=
  let classified := (d.giveEnding form.purusha form.vacana).map classifySuffixes
  if form.lakara = .lit then
    ((classified.andThen (fitEnding .lit)).andThen addVikarana).map classifySuffixes
  else
    ((classified.andThen addVikarana).map classifySuffixes).andThen (fitEnding form.lakara)

def conjugate (root : Root) (form : VerbForm) (d : Derivation) : Outcome :=
  ((d.addTags [.prayoga form.prayoga, .purusha form.purusha, .vacana form.vacana]).enterRoot root)
  |>.andThen addRic
  |>.andThen (addLakara form.lakara)
  |>.map choosePada
  |>.andThen (addSuffixes form)
  |>.map extendMarkers
  |>.andThen addIt
  |>.map reduplicate
  |>.andThen reduceCopy
  |>.andThen shapeStem
  |>.andThen joinVowels
  |>.andThen joinConsonants

end Derivation

end Vyakarana
