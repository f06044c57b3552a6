import Vyakarana.Derivation.Search
import Vyakarana.Grammar.Markers
import Vyakarana.Grammar.SuffixClass

/-!
What stands between the root and the ending (3.1.33 to 3.1.90).

The future has sya, the passive and the impersonal have yak, and otherwise a sarvadhatuka
ending is preceded by the suffix of the class of the root. In the perfect some roots cannot
be reduplicated: they take Am, and the root kf follows and is reduplicated in their place.
-/

namespace Vyakarana

-- The last vowel is long, or two consonants follow it.
def Term.isGuru (t : Term) : Bool :=
  match Term.splitAtLastVowel? t.text with
  | some (_, vowel, after) => Sound.isDirgha vowel || 2 ≤ after.countP Sound.isHal
  | none => false

-- 3.1.35 to 3.1.37: the rule by which a root takes Am in the perfect.
def Term.amRule? (root : Term) : Option Rule :=
  if root.hasText "kAs".toList || root.hasTag .pratyaya then some "3.1.35"
  else if !root.isEkaAc && !root.hasTextIn ["jAgf".toList, "UrRu".toList] then some "3.1.35.v1"
  else if root.hasAdi (.oneOf .ic) && root.isGuru && !root.isTaught "fCa~".toList then
    some "3.1.36"
  else if root.hasTextIn ["day".toList, "ay".toList, "As".toList] then some "3.1.37"
  else none

-- 3.1.68, 3.1.69 and 3.1.77. The roots of the tenth class end in Ric, and take Sap like
-- those of the first.
def classSuffix? (gana : Int) : Option (Rule × Text) :=
  if gana == 1 || gana == 10 then some ("3.1.68", "Sap".toList)
  else if gana == 4 then some ("3.1.69", "Syan".toList)
  else if gana == 6 then some ("3.1.77", "Sa".toList)
  else none

-- The root kf without its markers.
def auxiliaryRoot : Term := (Term.ofRoot "qukf\\Y".toList 8 none).setText "kf".toList

namespace Derivation

-- The suffix follows the last root.
def addStemSuffix (rule : Rule) (u : Text) (d : Derivation) : Outcome :=
  match d.lastTagged? .dhatu with
  | some i => d.suffixAfter rule i u [.pratyaya, .vikarana]
  | none => .done d

-- 3.1.40: kf stands before the ending at `i`, which Am moves on by one.
def addAuxiliary (i : Nat) (d : Derivation) : Derivation :=
  match d.lastTagged? .dhatu with
  | none => d
  | some root =>
    match (d.terms[root]?).bind (·.amRule?) with
    | none => d
    | some rule =>
      let am := (Term.ofUpadesha "Am".toList).addTag .pratyaya
      let d := (d.insertTerm (root + 1) am).record rule
      (d.insertTerm (i + 1) auxiliaryRoot).record "3.1.40"

def firstRootGana? (d : Derivation) : Option Int :=
  ((d.firstTagged? .dhatu).bind (d.terms[·]?)).bind (·.gana)

def addVikarana (d : Derivation) : Outcome :=
  match d.lastTagged? .tin with
  | none => .done d
  | some i =>
    if d.has i (·.hasLakshana "li~w".toList) then .done (d.addAuxiliary i)
    else if d.has i (·.hasLakshana "lf~w".toList) then d.addStemSuffix "3.1.33" "sya".toList
    else if !d.has i (·.hasTag .sarvadhatuka) then .done d
    else if d.hasTagIn [.prayoga .karmani, .prayoga .bhave] then
      d.addStemSuffix "3.1.67" "yak".toList
    else
      match d.firstRootGana?.bind classSuffix? with
      | some (rule, u) => d.addStemSuffix rule u
      | none => .done d

end Derivation

end Vyakarana
