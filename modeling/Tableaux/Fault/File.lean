import Tableaux.Fault.Basic

/-!
Failures of reading and writing files, as the system tells them.
-/

namespace Tableaux

/-- What kept a file from being read or written, as far as it makes a difference. -/
inductive FileTrouble where
  | notFound
  | permissionDenied
  | other
deriving DecidableEq

/-- A failure and the system's message about it. -/
structure FileError where
  trouble : FileTrouble
  message : String
deriving DecidableEq

namespace FileError

def code (e : FileError) : FaultCode :=
  match e.trouble with
  | .notFound => .fileNotFound
  | .permissionDenied => .fileAccessDenied
  | .other => .ioError

def fault (e : FileError) : Fault :=
  ⟨e.code, e.message, none, none⟩

def noSuchFile : FileError :=
  ⟨.notFound, "No such file or directory (os error 2)"⟩

def accessDenied : FileError :=
  ⟨.permissionDenied, "Permission denied (os error 13)"⟩

def notADirectory : FileError :=
  ⟨.other, "Not a directory (os error 20)"⟩

def isADirectory : FileError :=
  ⟨.other, "Is a directory (os error 21)"⟩

end FileError

end Tableaux
