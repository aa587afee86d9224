import Tableaux.Fault.File
import Tableaux.Problem
import Tableaux.Settings

/-!
What the command needs of the outside world, and a directory of files in memory that can stand in for it.
-/

namespace Tableaux.CommandLine

/-- What the libraries that read and write documents say where they fail; what is not known of it is left out. -/
structure Wording where
  json : (text : String) → Json.ReadError → Option Json.Account := fun _ _ => none
  tomlText : (text : String) → String := fun _ => ""
  tomlNumber : Settings → String := fun _ => ""

/-- The outside world, as far as the command deals with it. -/
structure Host (m : Type → Type) where
  readFile : (path : String) → m (Except FileError String)
  pathExists : (path : String) → m Bool
  writeFile : (path text : String) → m (Except FileError Unit)
  readInput : m (Except FileError String)
  env? : (name : String) → m (Option String)
  wording : Wording := {}

/-- Files by the names of the directories on the way to them and their own; the directories are those on the way to
files, and the working directory. -/
structure Directory where
  files : List (List String × String)

namespace Directory

def file? (d : Directory) (place : List String) : Option String :=
  List.lookup place d.files

def isDirectory (d : Directory) (place : List String) : Bool :=
  place.isEmpty || d.files.any fun entry => place.isPrefixOf entry.1 && place != entry.1

/-- Goes on from a place by the names of a path, each of which must lead out of a directory. -/
def walk (d : Directory) (place : List String) : List String → Except FileError (List String)
  | [] => .ok place
  | name :: names =>
      if (d.file? place).isSome then .error .notADirectory
      else if !d.isDirectory place then .error .noSuchFile
      else if name == "" || name == "." then d.walk place names
      else if name == ".." then d.walk place.dropLast names
      else d.walk (place ++ [name]) names

/-- The parts of a path as it is seen from the working directory, which is also known under the name `root`. -/
def parts (root : String) (path : String) : Except FileError (List String) :=
  if path.startsWith "/" then
    if path == root || path.startsWith (root ++ "/") then .ok ((path.drop root.length).toString.splitOn "/")
    else .error .noSuchFile
  else .ok (path.splitOn "/")

def read (d : Directory) (root path : String) : Except FileError String := do
  let place ← d.walk [] (← parts root path)
  match d.file? place with
  | some text => .ok text
  | none => .error (if d.isDirectory place then .isADirectory else .noSuchFile)

def holds (d : Directory) (root path : String) : Bool :=
  match d.read root path with
  | .ok _ => true
  | .error e => e == .isADirectory

/-- Writes a file, which is made if there is none. -/
def write (d : Directory) (root path text : String) : Except FileError Directory := do
  let names ← parts root path
  let isSlashed := names.getLast? == some ""
  let place ← d.walk [] (if isSlashed then names.dropLast else names)
  if isSlashed && (d.file? place).isSome then .error .notADirectory
  else if isSlashed || d.isDirectory place then .error .isADirectory
  else .ok ⟨(place, text) :: d.files.filter (·.1 != place)⟩

/-- The host of a command that runs in the directory. -/
def host (root : String) (input : String) (env? : String → Option String) : Host (StateM Directory) where
  readFile path := do return (← get).read root path
  pathExists path := do return (← get).holds root path
  writeFile path text := do
    match (← get).write root path text with
    | .ok d =>
        set d
        return .ok ()
    | .error e => return .error e
  readInput := return .ok input
  env? name := return env? name

end Directory

end Tableaux.CommandLine
