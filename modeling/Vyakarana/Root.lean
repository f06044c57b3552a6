import Vyakarana.Category

/-!
Verb roots, as the list of roots states them.
-/

namespace Vyakarana

structure Root where
  upadesha : Text
  gana : Int
  antargana : Option Antargana
  number : Option Int
deriving DecidableEq, Repr

namespace Root

-- A whole number in at least `width` places, the sign included, filled up with zeros.
def padded (width : Nat) (n : Int) : String :=
  let digits := toString n.natAbs
  let sign := if n < 0 then "-" else ""
  sign ++ String.ofList (List.replicate (width - sign.length - digits.length) '0') ++ digits

-- The place of a root in the list, such as 01.0001.
def code (r : Root) : String :=
  match r.number with
  | none => padded 2 r.gana
  | some n => padded 2 r.gana ++ "." ++ padded 4 n

-- The sub-lists are stretches of two classes.
def antarganaOf (gana number : Int) : Option Antargana :=
  if gana == 6 && 93 ≤ number && number ≤ 137 then some .kutadi
  else if gana == 10 && 192 ≤ number && number ≤ 236 then some .akusmiya
  else none

end Root

end Vyakarana
