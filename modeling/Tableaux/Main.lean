import Tableaux.CommandLine.Run

/-!
The command: a host that deals with the files, the standard streams and the environment of the process.
-/

namespace Tableaux.CommandLine

/-- A failure as the system tells it. -/
def fileErrorOf : IO.Error → FileError
  | .noFileOrDirectory _ _ _ => .noSuchFile
  | .permissionDenied _ _ _ => .accessDenied
  | .inappropriateType _ _ details =>
      if details.toLower == "not a directory" then .notADirectory else .isADirectory
  | e => ⟨.other, toString e⟩

/-- The outcome of an action, failures included. -/
def attempt {α : Type} (action : IO α) : IO (Except FileError α) := do
  try return .ok (← action)
  catch e => return .error (fileErrorOf e)

/-- Reads a stream to its end. -/
partial def readStream (stream : IO.FS.Stream) (text : String) : IO String := do
  let line ← stream.getLine
  if line.isEmpty then return text else readStream stream (text ++ line)

/-- The process as a host. A file or directory is there if reading it fails at most for another reason. -/
def processHost : Host IO where
  readFile path := attempt (IO.FS.readFile path)
  pathExists path := do
    match ← attempt (IO.FS.readFile path) with
    | .error e => return e != .noSuchFile && e != .notADirectory
    | .ok _ => return true
  writeFile path text := attempt (IO.FS.writeFile path text)
  readInput := attempt do readStream (← IO.getStdin) ""
  env? name := IO.getEnv name

end Tableaux.CommandLine

def main (arguments : List String) : IO UInt32 := do
  let exit ← Tableaux.CommandLine.run Tableaux.CommandLine.processHost arguments
  IO.print exit.output
  IO.eprint exit.report
  return exit.status.toUInt32
