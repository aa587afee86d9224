import Tableaux.Fault.Basic
import Tableaux.Search
import Tableaux.Text.Quoted
import Tableaux.Toml.Reader
import Tableaux.Toml.Writer

/-!
Settings of a run: how much is logged, the form of the report, the limits of the search and the options of the
tableau. They are read from TOML text, in which every part may be left out, changed by environment variables, checked
and written as TOML text.
-/

namespace Tableaux

/-- How much is logged. -/
inductive Verbosity where
  | quiet
  | normal
  | verbose
  | debug
deriving DecidableEq

namespace Verbosity

def all : List Verbosity :=
  [quiet, normal, verbose, debug]

def name : Verbosity → String
  | quiet => "quiet"
  | normal => "normal"
  | verbose => "verbose"
  | debug => "debug"

/-- What is let into the log. -/
def filter : Verbosity → String
  | quiet => "error"
  | normal => "info"
  | verbose => "debug"
  | debug => "trace"

/-- The verbosity with the given name in documents. -/
def ofName? (name : String) : Option Verbosity :=
  all.find? (·.name == name)

/-- Reads a word for a verbosity: its name, the first letter of it or its number. Capital letters make no
difference; outside of ASCII no letter has one of these words' letters for its small form. -/
def ofWord? (word : String) : Option Verbosity :=
  let word := word.toLower
  if ["quiet", "q", "0"].contains word then some quiet
  else if ["normal", "n", "1"].contains word then some normal
  else if ["verbose", "v", "2"].contains word then some verbose
  else if ["debug", "d", "3"].contains word then some debug
  else none

end Verbosity

/-- The form of the report. -/
inductive Format where
  | json
  | summary
deriving DecidableEq

namespace Format

def name : Format → String
  | json => "json"
  | summary => "summary"

/-- The format with the given name in documents. -/
def ofName? (name : String) : Option Format :=
  [json, summary].find? (·.name == name)

/-- Reads a word for a format; capital letters make no difference. -/
def ofWord? (word : String) : Option Format :=
  let word := word.toLower
  if word == "json" then some json
  else if word == "summary" || word == "text" then some summary
  else none

end Format

structure Settings where
  verbosity : Verbosity := .normal
  format : Format := .json
  limits : Limits := {}
  options : Options := {}
deriving DecidableEq

/-- What is wrong with settings, or with the file they are in. -/
inductive SettingsError where
  | unreadable (path message : String)
  | malformed (path message : String)
  | unwritable (message : String)
  | invalid (message : String)
deriving DecidableEq

namespace SettingsError

def code : SettingsError → FaultCode
  | unreadable _ _ => .configNotFound
  | malformed _ _ => .invalidConfigText
  | unwritable _ => .configError
  | invalid _ => .invalidConfigValue

def display : SettingsError → String
  | unreadable path message => "IO error reading " ++ path ++ ": " ++ message
  | malformed path message => "Parse error in " ++ path ++ ": " ++ message
  | unwritable message => "Serialization error: " ++ message
  | invalid message => "Invalid configuration: " ++ message

def fault (e : SettingsError) : Fault :=
  ⟨e.code, e.display, none, none⟩

end SettingsError

/-- Reads a number: digits, possibly behind a plus sign, up to the greatest number of 64 bits. -/
def readNumber? (text : String) : Option Nat :=
  let digits := match text.toList with
    | '+' :: digits => digits
    | digits => digits
  if digits.isEmpty || !digits.all Char.isDigit then none
  else
    let n := Nat.ofDigitChars 10 digits 0
    if n < Nat.pow 2 64 then some n else none

namespace Settings

/-! Reading. -/

/-- The values of a section in order of its keys, where they are given: by key in a table, by position in an array.
A date stands for a section in which nothing is given. -/
def sectionValues (keys : List String) : Toml → Option (List (Option Toml))
  | .table _ entries => some (keys.map fun key => List.lookup key entries)
  | .array items => some ((List.range keys.length).map fun i => items[i]?)
  | .tables elements => some ((List.range keys.length).map fun i => elements[i]?.map (.table .header))
  | .date => some (keys.map fun _ => none)
  | _ => none

/-- A value that may be left out. -/
def valueOr {α : Type} (default : α) (decode : Toml → Option α) : Option Toml → Option α
  | none => some default
  | some value => decode value

def decodeNat : Toml → Option Nat
  | .int i => if 0 ≤ i then some i.toNat else none
  | _ => none

def decodeBool : Toml → Option Bool
  | .bool b => some b
  | _ => none

def decodeString : Toml → Option String
  | .str s => some s
  | _ => none

/-- Whether there is nothing in an array or table. -/
def isHollow : Toml → Bool
  | .array items => items.isEmpty
  | .tables elements => elements.isEmpty
  | .table _ entries => entries.isEmpty
  | _ => false

/-- One of a number of names: as a string, or as the only key of a table, with nothing in its value. -/
def decodeName {α : Type} (ofName? : String → Option α) : Toml → Option α
  | .str name => ofName? name
  | .table _ [(name, value)] => if isHollow value then ofName? name else none
  | _ => none

def decodeGeneral (s : Settings) (value : Toml) : Option Settings :=
  match sectionValues ["log_level", "format"] value with
  | some [verbosity, format] => do
      some { s with
        verbosity := ← valueOr s.verbosity (decodeName Verbosity.ofName?) verbosity
        format := ← valueOr s.format (decodeName Format.ofName?) format }
  | _ => none

def decodeLimits (s : Settings) (value : Toml) : Option Settings :=
  match sectionValues ["max_steps", "max_nodes", "max_gamma_instances"] value with
  | some [steps, nodes, instances] => do
      some { s with limits := {
        steps := ← valueOr s.limits.steps decodeNat steps
        nodes := ← valueOr s.limits.nodes decodeNat nodes
        instances := ← valueOr s.limits.instances decodeNat instances } }
  | _ => none

def decodeOptions (s : Settings) (value : Toml) : Option Settings :=
  match sectionValues ["term_prefix", "seed_constants"] value with
  | some [termStem, seedConstants] => do
      some { s with options := {
        termStem := ← valueOr s.options.termStem decodeString termStem
        seedConstants := ← valueOr s.options.seedConstants decodeBool seedConstants } }
  | _ => none

/-- Settings from the table of a document. -/
def ofEntries (entries : Toml.Entries) : Option Settings := do
  let s : Settings := {}
  let s ← valueOr s s.decodeGeneral (List.lookup "general" entries)
  let s ← valueOr s s.decodeLimits (List.lookup "prover" entries)
  valueOr s s.decodeOptions (List.lookup "tree" entries)

/-- Reads settings from the text of a file; `tell` gives what the library that reads TOML text says of a text that it
cannot read, where this is known. -/
def ofText (path : String) (text : String) (tell : String → String := fun _ => "") : Except SettingsError Settings :=
  match (Toml.ofText text).bind ofEntries with
  | some s => .ok s
  | none => .error (.malformed path (tell text))

/-! Writing. -/

/-- The lines of the sections. -/
def lines (s : Settings) : List String :=
  ["[general]",
    "log_level = \"" ++ s.verbosity.name ++ "\"",
    "format = \"" ++ s.format.name ++ "\"",
    "",
    "[prover]",
    "max_steps = " ++ toString s.limits.steps,
    "max_nodes = " ++ toString s.limits.nodes,
    "max_gamma_instances = " ++ toString s.limits.instances,
    "",
    "[tree]",
    "term_prefix = " ++ String.ofList (Toml.quote s.options.termStem.toList),
    "seed_constants = " ++ (if s.options.seedConstants then "true" else "false")]

/-- The settings as TOML text, which has no numbers beyond those of 64 bits with a sign; `tell` gives what the library
that writes TOML text says of settings with a greater number, where this is known. -/
def toText (s : Settings) (tell : Settings → String := fun _ => "") : Except SettingsError String :=
  if [s.limits.steps, s.limits.nodes, s.limits.instances].all (· < Nat.pow 2 63) then
    .ok (String.join (s.lines.map (· ++ "\n")))
  else .error (.unwritable (tell s))

/-- A file with the settings that hold where nothing else is said. -/
def defaultText : String := "# truthtree configuration file

[general]
# Logging level: quiet, normal, verbose, debug
log_level = \"normal\"
# Output format: json, summary
format = \"json\"

[prover]
# Maximum develop steps before giving up
max_steps = 10000
# Maximum number of live nodes
max_nodes = 10000
# Maximum instances of one universal (or false existential) node
max_gamma_instances = 5

[tree]
# Prefix of synthesized term names (t0, t1, ...)
term_prefix = \"t\"
# Instantiate universals with the constants of the premises
seed_constants = true
"

/-! Changing and checking. -/

/-- Changes settings by environment variables; those that cannot be read are ignored. -/
def override (s : Settings) (env : String → Option String) : Settings :=
  let number (name : String) (default : Nat) := ((env name).bind readNumber?).getD default
  { verbosity := ((env "TRUTHTREE_LOG_LEVEL").bind Verbosity.ofWord?).getD s.verbosity
    format := ((env "TRUTHTREE_FORMAT").bind Format.ofWord?).getD s.format
    limits := {
      steps := number "TRUTHTREE_MAX_STEPS" s.limits.steps
      nodes := number "TRUTHTREE_MAX_NODES" s.limits.nodes
      instances := number "TRUTHTREE_MAX_GAMMA" s.limits.instances }
    options := {
      termStem := (env "TRUTHTREE_TERM_PREFIX").getD s.options.termStem
      seedConstants := ((env "TRUTHTREE_SEED_CONSTANTS").map fun word =>
        ["true", "1", "yes"].contains word).getD s.options.seedConstants } }

/-- Checks that settings make sense: at least one instance, and a stem of terms without blanks. -/
def validate (s : Settings) : Except SettingsError Unit :=
  let stem := s.options.termStem
  if s.limits.instances = 0 then .error (.invalid "prover.max_gamma_instances must be at least 1")
  else if stem.isEmpty || stem.toList.any Text.isBlank then
    .error (.invalid ("tree.term_prefix " ++ Text.quoted stem ++ " must be non-empty and contain no whitespace"))
  else .ok ()

end Settings

end Tableaux
