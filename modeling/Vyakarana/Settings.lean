import Vyakarana.Request.Field
import Vyakarana.Settings.EnvFile
import Vyakarana.Text.Case

/-!
Settings from the environment.

Every setting has a variable, whose name is read in any case; a variable of the environment
counts before one of a file. Settings are refused with the problems of all variables, in
the order of the settings.
-/

namespace Vyakarana

inductive LogFormat
  | console | json
deriving DecidableEq, Repr

namespace LogFormat

def all : List LogFormat := [.console, .json]

def spelling : LogFormat → String
  | .console => "console"
  | .json => "json"

end LogFormat

structure Settings where
  logLevel : Text
  logFormat : LogFormat
  -- whether derivations note their steps
  recordSteps : Bool
  -- the table of roots, if it is not the bundled one
  tablePath : Option Text
deriving DecidableEq, Repr

namespace Settings

def standard : Settings := ⟨"INFO".toList, .console, true, none⟩

def namePrefix : Text := "prakriya_".toList

def trueWords : List Text :=
  ["1".toList, "true".toList, "t".toList, "yes".toList, "y".toList, "on".toList]

def falseWords : List Text :=
  ["0".toList, "false".toList, "f".toList, "no".toList, "n".toList, "off".toList]

-- A truth value in words, in any case.
def readFlag (t : Text) : Except FieldProblem Bool :=
  let word := t.map Char.toLower
  if trueWords.contains word then .ok true
  else if falseWords.contains word then .ok false
  else .error .notBoolean

-- The value of the variable with this name, in any case; `name` is in lower case. Of several
-- bindings the last one counts.
def boundValue? (bindings : List Binding) (name : Text) : Option Text :=
  ((bindings.reverse.find? fun (other, _) => Text.lower other == name).map (·.2)).join

-- The value of a setting in the environment, or else in the file.
def value? (environment file : List Binding) (setting : Text) : Option Text :=
  (boundValue? environment (namePrefix ++ setting)).or (boundValue? file (namePrefix ++ setting))

def readOr (value : α) (read : Text → Except FieldProblem α) : Option Text → Except FieldProblem α
  | some t => read t
  | none => .ok value

def ofVariables (environment : List Binding) (file : Text) : Except (List FieldError) Settings :=
  let value := value? environment (EnvFile.bindings environment file)
  let format := readOr standard.logFormat
    (fun t => (FieldValue.text t).readListed LogFormat.all LogFormat.spelling)
    (value "log_format".toList)
  let steps := readOr standard.recordSteps readFlag (value "log_steps".toList)
  match format, steps with
  | .ok f, .ok s =>
    .ok ⟨(value "log_level".toList).getD standard.logLevel, f, s, value "dhatupatha_path".toList⟩
  | f, s => .error (fieldErrors "LOG_FORMAT" f ++ fieldErrors "LOG_STEPS" s)

-- An empty path asks for the bundled table.
def tableFile? (s : Settings) : Option Text := s.tablePath.filter (!·.isEmpty)

end Settings

-- The levels of log messages by name. A message is shown from its level on.
def logLevels : List (Text × Int) :=
  [("NOTSET".toList, 0), ("DEBUG".toList, 10), ("INFO".toList, 20), ("WARN".toList, 30),
   ("WARNING".toList, 30), ("ERROR".toList, 40), ("CRITICAL".toList, 50), ("FATAL".toList, 50)]

-- The level with this name, in any case; INFO for other names.
def logLevel (name : Text) : Int := (logLevels.lookup (Text.upper name)).getD 20

end Vyakarana
