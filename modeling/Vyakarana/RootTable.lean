import Vyakarana.Request.Argument
import Vyakarana.Text.Separated

/-!
The table of roots.

A table is a tab-separated text with a heading. The first column of a row is a code, class
and number with a point between them, the second is the root as it is taught; a row
without a second column, or with a hyphen there, states no root. The table that comes with
the program has one root for each thing that the rules are about.
-/

namespace Vyakarana.RootTable

-- The root of a row, if the row states one.
def readRow? : List Text → Except RootError (Option Root)
  | code :: upadesha :: _ =>
    if upadesha == ['-'] then .ok none
    else
      match Text.splitAtFirst? '.' code with
      | none => .error (.argument (.malformedCode code))
      | some (gana, number) =>
        (Root.ofParts (.text upadesha) (.text gana) (.text number)).map some
  | _ => .ok none

-- The roots of a table in their order, or the first error in it.
def read (table : Text) : Except RootError (List Root) :=
  (((Text.records table).drop 1).mapM readRow?).map fun roots => roots.filterMap id

-- The first root with this upadesha and class. An error anywhere in the table counts.
def find? (table : Text) (upadesha : Text) (gana : Int) : Except RootError (Option Root) :=
  (read table).map fun roots => roots.find? fun r => r.upadesha == upadesha && r.gana == gana

def bundled : Text :=
  ("code\tdhatu\tartha\n" ++
    "01.0001\tBU\tsattAyAm\n" ++
    "01.0380\tpaWa~\tvyaktAyAM vAci\n" ++
    "01.0905\tzaha~\\\tmarzaRe\n" ++
    "01.0916\t-\t-\n" ++
    "01.1044\tqupa\\ca~^z\tpAke\n" ++
    "01.1049\tRI\\Y\tprApaRe\n" ++
    "04.0001\tdivu~\tkrIqAvijigIzAvyavahAradyutistutimodamadasvapnakAntigatizu\n" ++
    "06.0001\ttu\\da~^\tvyaTane\n" ++
    "10.0001\tcura~\tsteye\n").toList

end Vyakarana.RootTable
