import Vyakarana.CommandLine.Options
import Vyakarana.CommandLine.Report
import Vyakarana.Grammar.Forms
import Vyakarana.Request.VerbForm
import Vyakarana.RootTable
import Vyakarana.Settings
import Vyakarana.TableFile

/-!
The commands.

`derive` prints the finite forms of a root, `dhatus` lists the roots of a table. A command
line that is not well formed ends with exit code 2, a command that fails with exit code 1
and one line that says why.
-/

namespace Vyakarana

inductive Command
  -- the words are read when the command is carried out
  | derive (upadesha : Text) (gana : Int) (lakara purusha vacana prayoga : Text) (layout : Layout)
  | dhatus (gana : Option Int) (path : Option Text)
deriving DecidableEq, Repr

inductive CommandError
  | argument (error : ArgumentError)
  | fields (errors : List FieldError)
  | unsupported (reason : Unsupported)
  | file (error : FileError)
deriving DecidableEq, Repr

namespace CommandError

def message : CommandError → Text
  | .argument e => e.message
  | .fields _ => "(validation)".toList
  | .unsupported reason => reason.message.toList
  | .file e => e.message

def ofRoot : RootError → CommandError
  | .argument e => .argument e
  | .fields errors => .fields errors

end CommandError

-- What a command leaves behind.
structure CommandResult where
  exit : Nat
  output : Text
  -- the lines for the error stream
  problems : List Text
deriving DecidableEq, Repr

namespace Command

def anyValue (name : String) : OptionSpec := ⟨"--".toList ++ name.toList, some fun _ => true⟩

def flag (name : String) : OptionSpec := ⟨"--".toList ++ name.toList, none⟩

def isInt (t : Text) : Bool := (Text.lenientInt? t).isSome

def isGana (t : Text) : Bool := (Text.lenientInt? t).any fun n => 1 ≤ n && n ≤ 10

def mainOptions : List OptionSpec := [anyValue "log-level"]

def deriveOptions : List OptionSpec :=
  [anyValue "dhatu", ⟨"--gana".toList, some isGana⟩, anyValue "lakara", anyValue "purusha",
   anyValue "vacana", anyValue "prayoga", flag "trace", flag "json"]

def dhatusOptions : List OptionSpec := [⟨"--gana".toList, some isInt⟩, anyValue "path"]

def readDerive (args : List Text) : Except Refusal Command := do
  let r ← OptionReading.read deriveOptions args
  match r.value? "dhatu", (r.value? "gana").bind Text.lenientInt?, r.value? "lakara" with
  | some upadesha, some gana, some lakara =>
    if r.hasOthers then .error .usage
    else
      .ok (.derive upadesha gana lakara
        ((r.value? "purusha").getD "prathama".toList)
        ((r.value? "vacana").getD "eka".toList)
        ((r.value? "prayoga").getD "kartari".toList)
        (if r.hasFlag "json" then .json else if r.hasFlag "trace" then .traces else .forms))
  | _, _, _ => .error .usage

def readDhatus (args : List Text) : Except Refusal Command := do
  let r ← OptionReading.read dhatusOptions args
  if r.hasOthers then .error .usage
  else .ok (.dhatus ((r.value? "gana").bind Text.lenientInt?) (r.value? "path"))

def readNamed (name : Text) (args : List Text) : Except Refusal Command :=
  if name == "derive".toList then readDerive args
  else if name == "dhatus".toList then readDhatus args
  else .error .usage

-- The options before the command, and the command with the words after it. `refused` tells
-- that something unknown has been passed.
def readWords (refused : Bool) : List CommandWord → List Text → Except Refusal Command
  | .help :: _, _ => .error .help
  | .plain name :: _, _ :: args =>
    match readNamed name args with
    | .ok command => if refused then .error .usage else .ok command
    | .error refusal => .error refusal
  | .option _ (some _) :: words, _ :: args => readWords refused words args
  | .option _ none :: .plain _ :: words, _ :: _ :: args => readWords refused words args
  | .unknown :: words, _ :: args => readWords true words args
  | _, _ => .error .usage

def read (args : List Text) : Except Refusal Command :=
  match OptionSpec.words? mainOptions args with
  | some words => readWords false words args
  | none => .error .usage

-- The table of roots that a command reads: the one it names, or else that of the settings.
def table (settings : Settings) (files : Files) (path : Option Text) : Except CommandError Text :=
  match path.or settings.tableFile? with
  | some path => (files.read path).mapError .file
  | none => .ok RootTable.bundled

-- The file that a command reads.
def tablePath? (settings : Settings) : Command → Option Text
  | .dhatus _ path => path.or settings.tableFile?
  | .derive .. => settings.tableFile?

-- A root that the table lists has its sub-list from there; any other is as given.
def findRoot (table upadesha : Text) (gana : Int) : Except CommandError Root :=
  match RootTable.find? table upadesha gana with
  | .error e => .error (.ofRoot e)
  | .ok (some root) => .ok root
  | .ok none => (Root.ofFields (.text upadesha) (.whole gana) .absent .absent).mapError .fields

-- What the command prints. A fault in a derivation is no failure of the command, and ends
-- the program.
def output (settings : Settings) (files : Files) :
    Command → Except Fault (Except CommandError Text)
  | .derive upadesha gana lakara purusha vacana prayoga layout =>
    match VerbForm.read lakara purusha vacana prayoga with
    | .error e => .ok (.error (.argument e))
    | .ok form =>
      match (table settings files none).bind (findRoot · upadesha gana) with
      | .error e => .ok (.error e)
      | .ok root =>
        match verbForms root form settings.recordSteps .standard with
        | .ok ds => .ok (.ok (Report.forms layout ds))
        | .error (.unsupported reason) => .ok (.error (.unsupported reason))
        | .error (.fault fault) => .error fault
  | .dhatus gana path =>
    match (table settings files path).bind fun t => (RootTable.read t).mapError .ofRoot with
    | .error e => .ok (.error e)
    | .ok roots => .ok (.ok (Report.roots (roots.filter fun r => gana.all (· == r.gana))))

def usage : Text :=
  ("usage: [--log-level LEVEL] derive --dhatu DHATU --gana GANA --lakara LAKARA\n" ++
    "           [--purusha PURUSHA] [--vacana VACANA] [--prayoga PRAYOGA] [--trace] [--json]\n" ++
    "       [--log-level LEVEL] dhatus [--gana GANA] [--path PATH]\n").toList

def run (settings : Settings) (files : Files) (args : List Text) : Except Fault CommandResult :=
  match read args with
  | .error .help => .ok ⟨0, usage, []⟩
  | .error .usage => .ok ⟨2, [], [usage]⟩
  | .ok command =>
    match command.output settings files with
    | .error fault => .error fault
    | .ok (.ok output) => .ok ⟨0, output, []⟩
    | .ok (.error e) => .ok ⟨1, [], ["Error: ".toList ++ e.message]⟩

end Command

end Vyakarana
