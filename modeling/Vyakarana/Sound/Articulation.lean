import Vyakarana.Sound.Class

/-!
How a sound is pronounced, and how far two pronunciations are apart.

`distance` counts differing features; places of articulation count one by one, so that a
sound with two places is half way to a sound with one of them.
-/

namespace Vyakarana

-- Place of articulation.
inductive Sthana
  | kantha | talu | murdha | danta | oshtha | nasika | kanthaTalu | kanthaOshtha | dantaOshtha
deriving DecidableEq, Repr

-- Voicing.
inductive Ghosha
  | ghoshavat | aghosha
deriving DecidableEq, Repr

-- Aspiration.
inductive Prana
  | mahaprana | alpaprana
deriving DecidableEq, Repr

-- Degree of closure.
inductive Prayatna
  | vivrta | ishat | sprshta
deriving DecidableEq, Repr

namespace Sthana

def all : List Sthana :=
  [.kantha, .talu, .murdha, .danta, .oshtha, .nasika, .kanthaTalu, .kanthaOshtha, .dantaOshtha]

def name : Sthana → String
  | .kantha => "kantha"
  | .talu => "talu"
  | .murdha => "murdha"
  | .danta => "danta"
  | .oshtha => "oshtha"
  | .nasika => "nasika"
  | .kanthaTalu => "kantha-talu"
  | .kanthaOshtha => "kantha-oshtha"
  | .dantaOshtha => "danta-oshtha"

def ofName? (name : String) : Option Sthana := all.find? (·.name == name)

end Sthana

namespace Ghosha

def name : Ghosha → String
  | .ghoshavat => "ghoshavat"
  | .aghosha => "aghosha"

def ofName? (name : String) : Option Ghosha := [ghoshavat, aghosha].find? (·.name == name)

end Ghosha

namespace Prana

def name : Prana → String
  | .mahaprana => "mahaprana"
  | .alpaprana => "alpaprana"

def ofName? (name : String) : Option Prana := [mahaprana, alpaprana].find? (·.name == name)

end Prana

namespace Prayatna

def name : Prayatna → String
  | .vivrta => "vivrta"
  | .ishat => "ishat"
  | .sprshta => "sprshta"

def ofName? (name : String) : Option Prayatna := [vivrta, ishat, sprshta].find? (·.name == name)

end Prayatna

structure Articulation where
  sthana : List Sthana
  ghosha : Ghosha
  prana : Prana
  prayatna : Prayatna
deriving DecidableEq, Repr

namespace Articulation

-- Each place of `a` that `b` shares takes away two from the number of places of both.
def distance (a b : Articulation) : Int :=
  (if a.ghosha = b.ghosha then 0 else 1) + (if a.prana = b.prana then 0 else 1) +
    (if a.prayatna = b.prayatna then 0 else 1) +
    ((a.sthana.length : Int) + b.sthana.length - 2 * (a.sthana.countP (b.sthana.contains ·) : Nat))

-- Where a sound is made. The order is the one in which a sound's places are listed.
def sthanas : List (SoundClass × Sthana) :=
  [(.ofText "aAkKgGNhH".toList, .kantha), (.ofText "iIcCjJYyS".toList, .talu),
   (.ofText "fFxXwWqQRrz".toList, .murdha), (.ofText "fFxXtTdDnls".toList, .danta),
   (.ofText "uUpPbBm".toList, .oshtha), (.ofText "eE".toList, .kanthaTalu),
   (.ofText "oO".toList, .kanthaOshtha), (.ofText "v".toList, .dantaOshtha),
   (.ofText "NYRnmM".toList, .nasika)]

-- Vowels, the soft sounds and the anusvara are voiced.
def voiced : SoundClass := .ofText "aAiIuUfFxXeEoOgGNjJYqQRdDnbBmyrlvhM".toList

def aspirated : SoundClass := .ofText "KGCJWQTDPBh".toList

-- Semivowels and sibilants leave a small opening.
def halfOpen : SoundClass := .ofText "yrlvSzs".toList

def stops : SoundClass := .ofText "kKgGNcCjJYwWqQRtTdDnpPbBm".toList

-- The sounds that have a standard articulation: the whole alphabet.
def standard? (c : Char) : Option Articulation :=
  if Sound.alphabet.contains c then
    some {
      sthana := (sthanas.filter fun entry => entry.1.contains c).map (·.2)
      ghosha := if voiced.contains c then .ghoshavat else .aghosha
      prana := if aspirated.contains c then .mahaprana else .alpaprana
      prayatna :=
        if halfOpen.contains c then .ishat
        else if stops.contains c then .sprshta
        else .vivrta }
  else none

end Articulation

end Vyakarana
