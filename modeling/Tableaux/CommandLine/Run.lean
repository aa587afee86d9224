import Tableaux.CommandLine.Arguments
import Tableaux.CommandLine.Host
import Tableaux.Document.Problem
import Tableaux.Document.Report

/-!
A run of the command: settings are put together from a file, the environment and the arguments; a problem is read,
its tableau is developed, and the outcome is reported. What fails on the way is told with what was being done.
-/

namespace Tableaux.CommandLine

/-- How a run ends. -/
structure Exit where
  status : Nat
  output : String := ""
  report : String := ""

/-- What failed: what was being done, and why it failed; or only what went wrong. -/
inductive Failure where
  | during (activity cause : String)
  | plain (message : String)

/-- The lines of a text behind the first moved in by four spaces. -/
def indent (text : String) : String :=
  text.replace "\n" "\n    "

def Failure.report : Failure → String
  | during activity cause => "Error: " ++ activity ++ "\n\nCaused by:\n    " ++ indent cause ++ "\n"
  | plain message => "Error: " ++ message ++ "\n"

def versionText (full : Bool) : String :=
  if full then "truthtree 0.1.0 (x86_64-unknown-linux-gnu)\n" else "truthtree 0.1.0\n"

/-- The variables of the environment that change settings. -/
def settingsVariables : List String :=
  ["TRUTHTREE_LOG_LEVEL", "TRUTHTREE_FORMAT", "TRUTHTREE_MAX_STEPS", "TRUTHTREE_MAX_NODES", "TRUTHTREE_MAX_GAMMA",
    "TRUTHTREE_TERM_PREFIX", "TRUTHTREE_SEED_CONSTANTS"]

/-- A path inside a directory. -/
def within (directory path : String) : String :=
  if directory.endsWith "/" then directory ++ path else directory ++ "/" ++ path

/-- Where settings are looked for: in the working directory, in the user's configuration, in the user's home and in
the system's configuration. -/
def settingsPaths (home configHome : Option String) : List String :=
  let home := home.filter (!·.isEmpty)
  let configHome := match configHome.filter (·.startsWith "/") with
    | some directory => some directory
    | none => home.map (within · ".config")
  ["./truthtree.toml"] ++ (configHome.map (within · "truthtree/config.toml")).toList ++
    (home.map (within · ".truthtree/config.toml")).toList ++ ["/etc/truthtree/config.toml"]

/-- Settings changed by the arguments; being quiet wins over being verbose. -/
def Invocation.override (i : Invocation) (s : Settings) : Settings :=
  { s with
    verbosity := if i.has .quiet then .quiet else if i.has .verbose then .verbose else s.verbosity
    format := i.format.getD s.format
    limits := { s.limits with
      steps := i.maxSteps.getD s.limits.steps
      nodes := i.maxNodes.getD s.limits.nodes } }

variable {m : Type → Type} [Monad m]

/-- Reads settings from a file. -/
def loadFile (host : Host m) (path : String) : m (Except SettingsError Settings) := do
  match ← host.readFile path with
  | .error e => return .error (.unreadable path e.message)
  | .ok text => return Settings.ofText path text host.wording.tomlText

/-- Reads settings from the first file there is; without one everything is as usual. -/
def loadFirst (host : Host m) : List String → m (Except SettingsError Settings)
  | [] => return .ok {}
  | path :: paths => do
      if ← host.pathExists path then loadFile host path else loadFirst host paths

/-- The variables that change settings, as far as they are set. -/
def environment (host : Host m) : m (String → Option String) := do
  let values ← settingsVariables.mapM fun name => do return (name, ← host.env? name)
  return fun name => (List.lookup name values).getD none

/-- The settings of a run. -/
def loadSettings (host : Host m) (i : Invocation) : m (Except Failure Settings) := do
  let env ← environment host
  let loaded ← match i.config with
    | some path => do
        match ← loadFile host path with
        | .error e => pure (.error (.during ("Failed to load config: " ++ path) e.display))
        | .ok s => pure (.ok (s.override env))
    | none => do
        let paths := settingsPaths (← host.env? "HOME") (← host.env? "XDG_CONFIG_HOME")
        match ← loadFirst host paths with
        | .error e => pure (.error (.during "Failed to load configuration" e.display))
        | .ok s => match (s.override env).validate with
            | .error e => pure (.error (.during "Failed to load configuration" e.display))
            | .ok () => pure (.ok (s.override env))
  return do
    let s := i.override (← loaded)
    match s.validate with
    | .error e => .error (.during "Invalid configuration" e.display)
    | .ok () => .ok s

/-- The text of the problem: from the file named, or else from standard input. -/
def loadProblem (host : Host m) (i : Invocation) : m (Except Failure String) := do
  let (activity, text) ← match i.input, i.has .stdin with
    | some path, false => do pure ("Failed to read file: " ++ path, ← host.readFile path)
    | _, _ => do pure ("Failed to read from stdin", ← host.readInput)
  return text.mapError fun e => .during activity e.message

/-- The report on a problem. -/
def solve (wording : Wording) (s : Settings) (text : String) : Except Failure String := do
  let problem ← (Problem.ofText text (wording.json text)).mapError fun e => .during "Invalid problem" e.fault.display
  let tableau ← (problem.toTableau s.options).mapError fun e => .during "Failed to build tree" e.fault.display
  let (verdict, tableau) := tableau.search s.limits
  let verdict ← verdict.mapError fun e => .plain e.fault.display
  match s.format with
  | .json => .ok ((tableau.report verdict).pretty ++ "\n")
  | .summary => .ok (verdict.summary tableau.nodeCount ++ "\n")

/-- Hands over the report: to the file named, or else to standard output. -/
def deliver (host : Host m) (i : Invocation) (text : String) : m (Except Failure String) := do
  match i.output with
  | none => return .ok text
  | some path => match ← host.writeFile path text with
      | .ok () => return .ok ""
      | .error e => return .error (.during ("Failed to write output: " ++ path) e.message)

/-- Does what the arguments ask for; the result is what goes to standard output. -/
def perform (host : Host m) (i : Invocation) : m (Except Failure String) := do
  match ← loadSettings host i with
  | .error e => return .error e
  | .ok s =>
      if i.has .printConfig then
        return (s.toText host.wording.tomlNumber).mapError fun e => .plain e.display
      else match ← loadProblem host i with
        | .error e => return .error e
        | .ok text => match solve host.wording s text with
            | .error e => return .error e
            | .ok report => deliver host i report

/-- Runs the command. -/
def run (host : Host m) (arguments : List String) : m Exit := do
  match Invocation.ofArguments arguments with
  | .error .usage => return ⟨2, "", usageText ++ "\nFor more information, try '--help'.\n"⟩
  | .error .help => return ⟨0, helpText, ""⟩
  | .error (.version full) => return ⟨0, versionText full, ""⟩
  | .ok i => match ← perform host i with
      | .ok output => return ⟨0, output, ""⟩
      | .error e => return ⟨1, "", e.report⟩

end Tableaux.CommandLine
