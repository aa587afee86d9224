import Tableaux.Fault.FieldMap
import Tableaux.Tableau.Basic

/-!
Faults: what is reported when something goes wrong. A fault has a code, a message, details by name, underlying causes
and a hint. Codes come in four families, by their thousands: trees, input, configuration and files.
-/

namespace Tableaux

inductive FaultCode where
  | unknownNode
  | removedNode
  | premiseAfterBranching
  | closedBranch
  | invalidInput
  | emptyInput
  | invalidFormat
  | configError
  | configNotFound
  | invalidConfigText
  | invalidConfigValue
  | ioError
  | fileNotFound
  | fileAccessDenied
deriving DecidableEq

namespace FaultCode

def all : List FaultCode :=
  [unknownNode, removedNode, premiseAfterBranching, closedBranch, invalidInput, emptyInput, invalidFormat,
    configError, configNotFound, invalidConfigText, invalidConfigValue, ioError, fileNotFound, fileAccessDenied]

def number : FaultCode → Nat
  | unknownNode => 1001
  | removedNode => 1002
  | premiseAfterBranching => 1003
  | closedBranch => 1004
  | invalidInput => 2000
  | emptyInput => 2001
  | invalidFormat => 2002
  | configError => 7000
  | configNotFound => 7001
  | invalidConfigText => 7002
  | invalidConfigValue => 7003
  | ioError => 8000
  | fileNotFound => 8001
  | fileAccessDenied => 8002

/-- The name of a code in documents. -/
def name : FaultCode → String
  | unknownNode => "UNKNOWN_NODE"
  | removedNode => "REMOVED_NODE"
  | premiseAfterBranching => "PREMISE_AFTER_BRANCHING"
  | closedBranch => "CLOSED_BRANCH"
  | invalidInput => "INVALID_INPUT"
  | emptyInput => "EMPTY_INPUT"
  | invalidFormat => "INVALID_FORMAT"
  | configError => "CONFIG_ERROR"
  | configNotFound => "CONFIG_NOT_FOUND"
  | invalidConfigText => "INVALID_CONFIG_SYNTAX"
  | invalidConfigValue => "INVALID_CONFIG_VALUE"
  | ioError => "IO_ERROR"
  | fileNotFound => "FILE_NOT_FOUND"
  | fileAccessDenied => "FILE_ACCESS_DENIED"

def ofName? (name : String) : Option FaultCode :=
  all.find? (·.name == name)

def description : FaultCode → String
  | unknownNode => "no such node"
  | removedNode => "node was removed"
  | premiseAfterBranching => "tree has already branched"
  | closedBranch => "branch is closed"
  | invalidInput => "invalid problem"
  | emptyInput => "empty problem"
  | invalidFormat => "malformed JSON"
  | configError => "configuration error"
  | configNotFound => "configuration file unreadable"
  | invalidConfigText => "configuration is not valid TOML"
  | invalidConfigValue => "configuration value out of range"
  | ioError => "I/O error"
  | fileNotFound => "file not found"
  | fileAccessDenied => "permission denied"

/-- The name of a code's family. -/
def category (c : FaultCode) : String :=
  match c.number / 1000 with
  | 1 => "tree"
  | 2 => "input"
  | 7 => "config"
  | _ => "io"

/-- Whether what the user gave is to blame. -/
def isUserError (c : FaultCode) : Bool :=
  c.category != "io"

end FaultCode

/-- Details by name and underlying causes. -/
structure FaultContext where
  fields : FieldMap := .empty
  causes : List String := []
deriving DecidableEq

structure Fault where
  code : FaultCode
  message : String
  context : Option FaultContext := none
  hint : Option String := none
deriving DecidableEq

namespace Fault

def withField (f : Fault) (key value : String) : Fault :=
  let context := f.context.getD {}
  { f with context := some { context with fields := context.fields.insert key value } }

def withCause (f : Fault) (cause : String) : Fault :=
  let context := f.context.getD {}
  { f with context := some { context with causes := context.causes ++ [cause] } }

def withHint (f : Fault) (hint : String) : Fault :=
  { f with hint := some hint }

def field? (f : Fault) (key : String) : Option String :=
  f.context.bind fun context => context.fields.get? key

def isUserError (f : Fault) : Bool :=
  f.code.isUserError

/-- The details behind a message, in brackets. -/
def fieldsText (m : FieldMap) : String :=
  if m.isEmpty then ""
  else " (" ++ ", ".intercalate (m.entries.map fun entry => entry.1 ++ "=" ++ entry.2) ++ ")"

/-- The text of a fault: its number, message and details on the first line, then its causes and its hint. -/
def display (f : Fault) : String :=
  let context := f.context.getD {}
  "[" ++ toString f.code.number ++ "] " ++ f.message ++ fieldsText context.fields ++
    String.join (context.causes.map fun cause => "\n  caused by: " ++ cause) ++
    (match f.hint with
      | some hint => "\n  hint: " ++ hint
      | none => "")

end Fault

/-- What is reported when an operation on a tableau is refused. -/
def Refusal.fault : Refusal → Fault
  | unknownNode id slots =>
      Fault.withField ⟨.unknownNode, s!"node {id} does not exist (tree has {slots} slots)", none, none⟩
        "node" (toString id)
  | removedNode id =>
      Fault.withField ⟨.removedNode, s!"node {id} has been removed", none, none⟩ "node" (toString id)
  | premiseAfterBranching leaves =>
      Fault.withHint ⟨.premiseAfterBranching, s!"cannot add a premise to a tree with {leaves} leaves", none, none⟩
        "add every premise before developing a branching node"
  | closedBranch leaf =>
      Fault.withField ⟨.closedBranch, s!"cannot add a premise below closed leaf {leaf}", none, none⟩
        "node" (toString leaf)

end Tableaux
