import Tableaux.Settings

/-!
The arguments of the command. Options have a long name and some a letter. A value follows as the next argument or
in the same one: behind an equals sign, or directly behind the letter. Letters of switches may share a dash. No
option may be given twice, and behind a double dash there are no options.
-/

namespace Tableaux.CommandLine

/-- Options without a value. -/
inductive Switch where
  | stdin
  | verbose
  | quiet
  | printConfig
deriving DecidableEq

/-- Options with a value. -/
inductive Parameter where
  | config
  | maxSteps
  | maxNodes
  | format
  | output
deriving DecidableEq

/-- What an option does. -/
inductive Role where
  | switch (s : Switch)
  | parameter (p : Parameter)
  | version (full : Bool)
  | help

/-- Why the arguments are not acted upon: they make no sense, or they ask for information only. -/
inductive Interruption where
  | usage
  | version (full : Bool)
  | help
deriving DecidableEq

def longRole? (name : String) : Option Role :=
  List.lookup name
    [("stdin", .switch .stdin), ("verbose", .switch .verbose), ("quiet", .switch .quiet),
      ("print-config", .switch .printConfig), ("config", .parameter .config), ("max-steps", .parameter .maxSteps),
      ("max-nodes", .parameter .maxNodes), ("format", .parameter .format), ("output", .parameter .output),
      ("version", .version true), ("help", .help)]

def shortRole? (letter : Char) : Option Role :=
  List.lookup letter
    [('v', .switch .verbose), ('q', .switch .quiet), ('c', .parameter .config), ('f', .parameter .format),
      ('o', .parameter .output), ('V', .version false), ('h', .help)]

def usageText : String :=
  "Usage: truthtree [OPTIONS] [FILE]\n"

def helpText : String := "Semantic tableau prover for first-order logic

" ++ usageText ++ "
Arguments:
  [FILE]  Problem file (JSON)

Options:
      --stdin                  Read the problem from stdin
  -c, --config <FILE>          Configuration file (defaults to the standard search path)
      --max-steps <MAX_STEPS>  Maximum number of develop steps
      --max-nodes <MAX_NODES>  Maximum number of tree nodes
  -f, --format <FORMAT>        Output format [possible values: json, summary]
  -o, --output <OUTPUT>        Output file (defaults to stdout)
  -v, --verbose                Verbose output
  -q, --quiet                  Quiet mode (errors only)
      --print-config           Print the effective configuration as TOML and exit
  -h, --help                   Print help
  -V, --version                Print version
"

/-- What the arguments ask for. -/
structure Invocation where
  input : Option String := none
  switches : List Switch := []
  config : Option String := none
  maxSteps : Option Nat := none
  maxNodes : Option Nat := none
  format : Option Format := none
  output : Option String := none

namespace Invocation

def has (i : Invocation) (s : Switch) : Bool :=
  i.switches.contains s

/-- Sets what has not been set. -/
def once {α : Type} (old : Option α) (value : Option α) : Except Interruption (Option α) :=
  match old, value with
  | none, some value => .ok (some value)
  | _, _ => .error .usage

/-- A path, which must not be empty. -/
def path? (value : String) : Option String :=
  if value.isEmpty then none else some value

def setInput (i : Invocation) (value : String) : Except Interruption Invocation := do
  .ok { i with input := ← once i.input (path? value) }

def setSwitch (i : Invocation) (s : Switch) : Except Interruption Invocation :=
  if i.has s then .error .usage else .ok { i with switches := s :: i.switches }

def setParameter (i : Invocation) (p : Parameter) (value : String) : Except Interruption Invocation := do
  match p with
  | .config => .ok { i with config := ← once i.config (path? value) }
  | .maxSteps => .ok { i with maxSteps := ← once i.maxSteps (readNumber? value) }
  | .maxNodes => .ok { i with maxNodes := ← once i.maxNodes (readNumber? value) }
  | .format => .ok { i with format := ← once i.format (Format.ofName? value) }
  | .output => .ok { i with output := ← once i.output (path? value) }

end Invocation

/-- What has been taken in of the arguments, and the option whose value is to follow. -/
abbrev Progress := Invocation × Option Parameter

/-- Takes in an option by its long name. -/
def readLong (i : Invocation) (option : List Char) : Except Interruption Progress := do
  let (name, tail) := option.span (· != '=')
  match longRole? (String.ofList name), tail with
  | some (.switch s), [] => .ok (← i.setSwitch s, none)
  | some (.parameter p), [] => .ok (i, some p)
  | some (.parameter p), _ :: value => .ok (← i.setParameter p (String.ofList value), none)
  | some (.version full), [] => .error (.version full)
  | some .help, [] => .error .help
  | _, _ => .error .usage

/-- Takes in options by their letters. -/
def readLetters (i : Invocation) : List Char → Except Interruption Progress
  | [] => .ok (i, none)
  | letter :: letters =>
      match shortRole? letter, letters with
      | some (.switch s), _ => do readLetters (← i.setSwitch s) letters
      | some (.parameter p), [] => .ok (i, some p)
      | some (.parameter p), '=' :: value => do .ok (← i.setParameter p (String.ofList value), none)
      | some (.parameter p), value => do .ok (← i.setParameter p (String.ofList value), none)
      | some (.version full), _ => .error (.version full)
      | some .help, _ => .error .help
      | none, _ => .error .usage

/-- Whether an argument starts like an option; a lone dash does not. -/
def isOptionLike (argument : String) : Bool :=
  argument.startsWith "-" && argument != "-"

/-- Takes in the arguments behind a double dash. -/
def readOperands (i : Invocation) : List String → Except Interruption Invocation
  | [] => .ok i
  | argument :: arguments => do readOperands (← i.setInput argument) arguments

/-- Takes in arguments, the first of which is the value of `awaited` if that is an option. -/
def readArguments (i : Invocation) (awaited : Option Parameter) :
    List String → Except Interruption Invocation
  | [] => if awaited.isSome then .error .usage else .ok i
  | argument :: arguments =>
      match awaited with
      | some p =>
          if isOptionLike argument then .error .usage
          else do readArguments (← i.setParameter p argument) none arguments
      | none =>
          if argument == "--" then readOperands i arguments
          else if !isOptionLike argument then do readArguments (← i.setInput argument) none arguments
          else do
            let (i, awaited) ← match argument.toList with
              | '-' :: '-' :: option => readLong i option
              | letters => readLetters i letters.tail
            readArguments i awaited arguments

/-- What the arguments ask for. -/
def Invocation.ofArguments (arguments : List String) : Except Interruption Invocation :=
  readArguments {} none arguments

end Tableaux.CommandLine
