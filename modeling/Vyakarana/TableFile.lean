import Vyakarana.Text.Quoted

/-!
Files of a directory, by their path names.

A path name is read part by part; empty parts and single points say nothing. A name for
which there is no file leads to an error that says what stands there instead.
-/

namespace Vyakarana

inductive FileError
  | missing (path : Text)
  | isDirectory (path : Text)
  | notDirectory (path : Text)
deriving DecidableEq, Repr

namespace FileError

def message : FileError → Text
  | .missing path => "[Errno 2] No such file or directory: ".toList ++ Text.quoted path
  | .isDirectory path => "[Errno 21] Is a directory: ".toList ++ Text.quoted path
  | .notDirectory path => "[Errno 20] Not a directory: ".toList ++ Text.quoted path

end FileError

namespace Path

def parts (path : Text) : List Text :=
  (path.splitOn '/').filter fun part => !part.isEmpty && part != ['.']

-- Two slashes at the beginning are kept, any other number counts as one.
def leading (path : Text) : Text :=
  match path.takeWhile (· == '/') with
  | [] => []
  | ['/', '/'] => "//".toList
  | _ => ['/']

-- The path name without the parts that say nothing.
def normal (path : Text) : Text :=
  match leading path ++ ['/'].intercalate (parts path) with
  | [] => ['.']
  | name => name

end Path

-- File names with the texts of the files.
abbrev Files := List (Text × Text)

namespace Files

def isProperPrefix (a b : List Text) : Bool := a.isPrefixOf b && a.length < b.length

def read (files : Files) (path : Text) : Except FileError Text :=
  let name := Path.normal path
  match files.find? fun (other, _) => Path.normal other == name with
  | some (_, text) => .ok text
  | none =>
    let parts := Path.parts path
    if parts.all (· == "..".toList) ||
        files.any fun (other, _) => isProperPrefix parts (Path.parts other) then
      .error (.isDirectory name)
    else if files.any fun (other, _) => isProperPrefix (Path.parts other) parts then
      .error (.notDirectory name)
    else .error (.missing name)

end Files

end Vyakarana
