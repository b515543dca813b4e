import Reckoner.Text.Alphabet

/-!
# Files in a directory

A directory of files held in memory, and the faults that reading and writing a path can meet.  Paths are resolved step
by step from the directory; what lies outside of it is not known.
-/

namespace Reckoner.Command

open Reckoner.Text

/-! ### Faults -/

/-- What can go wrong with a path. -/
inductive FileFault
  | missing
  | notDirectory
  | isDirectory
  | nameTooLong
  /-- The path holds the character that ends a path for the system, so that no file can be meant. -/
  | impossiblePath
  | other (code : Nat) (text : String)
  deriving DecidableEq, Repr

namespace FileFault

def code : FileFault → Nat
  | .missing => 2
  | .notDirectory => 20
  | .isDirectory => 21
  | .nameTooLong => 36
  | .impossiblePath => 22
  | .other code _ => code

def text : FileFault → String
  | .missing => "No such file or directory"
  | .notDirectory => "Not a directory"
  | .isDirectory => "Is a directory"
  | .nameTooLong => "File name too long"
  | .impossiblePath => "Invalid argument"
  | .other _ text => text

end FileFault

/-! ### Paths -/

/-- The steps of a path: the names between its slashes, without empty ones and those that stay in place. -/
def pathSteps (path : String) : List String :=
  ((Text.splitAt '/' path.toList).map String.ofList).filter fun step => step ≠ "" ∧ step ≠ "."

/-- Whether a path begins at the root of all directories. -/
def isAbsolute (path : String) : Bool := path.toList.head? = some '/'

/-- A path without needless slashes; the empty path is the directory itself. -/
def tidyPath (path : String) : String :=
  let body := "/".intercalate (pathSteps path)
  let leading := path.toList.takeWhile (· = '/')
  if leading.length = 2 then "//" ++ body
  else if isAbsolute path then "/" ++ body
  else if body.isEmpty then "." else body

/-- Steps in which a step upwards takes away the step before it. -/
def collapseSteps (steps : List String) : List String :=
  (steps.foldl
    (fun done step =>
      match step, done with
      | "..", last :: rest => if last = ".." then step :: done else rest
      | _, _ => step :: done)
    []).reverse

/-! ### Directories -/

/-- Names of files with their contents, and the names of directories, all written with slashes. -/
structure Files where
  contents : List (String × ByteArray)
  directories : List String

/-- What a path leads to. -/
inductive Place
  | file (name : String)
  | directory
  | vacant (name : String)
  | outside
  | fault (f : FileFault)
  deriving DecidableEq, Repr

def nameLimit : Nat := 255

/-- The character that ends a path for the system. -/
def pathEnd : Char := '\x00'

namespace Files

def under (at_ step : String) : String := if at_.isEmpty then step else at_ ++ "/" ++ step

def hasFile (files : Files) (name : String) : Bool := files.contents.any fun (n, _) => n = name

/-- Whether a name is the name of a directory, also of one that only other names go through. -/
def hasDirectory (files : Files) (name : String) : Bool :=
  name.isEmpty
    || (files.directories ++ files.contents.map (·.1)).any fun other =>
      (name ++ "/").toList.isPrefixOf other.toList
    || files.directories.contains name

/-- Follow the steps of a path from a directory, given by the names that lead to it, the last one first. -/
def follow (files : Files) : List String → List String → Place
  | _, [] => .directory
  | trail, step :: rest =>
    if step = ".." then
      match trail with
      | [] => .outside
      | _ :: trail => follow files trail rest
    else if nameLimit < step.utf8ByteSize then .fault .nameTooLong
    else
      let name := "/".intercalate (step :: trail).reverse
      if files.hasDirectory name then follow files (step :: trail) rest
      else
        match rest with
        | [] => if files.hasFile name then .file name else .vacant name
        | _ :: _ => .fault (if files.hasFile name then .notDirectory else .missing)

def place (files : Files) (path : String) : Place :=
  if path.toList.contains pathEnd then .fault .impossiblePath
  else if isAbsolute path then (if (pathSteps path).isEmpty then .directory else .fault .missing)
  else follow files [] (pathSteps path)

def read (files : Files) (path : String) : Except FileFault ByteArray :=
  match files.place path with
  | .file name =>
    match files.contents.lookup name with
    | some bytes => .ok bytes
    | none => .error .missing
  | .directory => .error .isDirectory
  | .vacant _ => .error .missing
  | .outside => .error .missing
  | .fault f => .error f

def put (files : Files) (name : String) (bytes : ByteArray) : Files :=
  if files.hasFile name then
    { files with contents := files.contents.map fun (n, old) => (n, if n = name then bytes else old) }
  else { files with contents := files.contents ++ [(name, bytes)] }

/-- Change the contents of the file that a path leads to, or make the file. -/
def modify (files : Files) (path : String) (change : ByteArray → ByteArray) : Except FileFault Files :=
  match files.place path with
  | .file name => .ok (files.put name (change ((files.contents.lookup name).getD .empty)))
  | .vacant name => .ok (files.put name (change .empty))
  | .directory => .error .isDirectory
  | .outside => .ok files
  | .fault f => .error f

end Files

end Reckoner.Command
