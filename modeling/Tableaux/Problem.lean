import Tableaux.Fault.Basic
import Tableaux.Json.Structure
import Tableaux.Search
import Tableaux.Text.Blank

/-!
Problems: premises with the truth values they are assumed to have, and possibly a conclusion. The conclusion is
asserted false behind the premises, so that a closed tableau shows that it follows from true premises.
-/

namespace Tableaux

/-- The first atom from the left whose predicate has another arity than its number of arguments. -/
def Formula.arityMismatch? : Formula → Option Atom
  | .atom a => if a.predicate.arity = a.args.length then none else some a
  | .not f => f.arityMismatch?
  | .binary _ l r => match l.arityMismatch? with
      | some a => some a
      | none => r.arityMismatch?
  | .quantified _ _ body => body.arityMismatch?

/-- What the library that reads JSON text tells of a trouble: a message, and the line and the column where it was. -/
structure Json.Account where
  message : String
  line : Nat
  column : Nat
deriving DecidableEq

structure Problem where
  premises : List Signed := []
  conclusion : Option Formula := none
deriving DecidableEq

namespace Problem

/-- Why there is no tableau for a problem. -/
inductive Obstacle where
  | emptyText
  /-- The text could not be read. The line is the one that the reader got to. -/
  | unreadable (trouble : Json.Trouble) (line : Nat) (account : Option Json.Account)
  | noPremises
  | arity (index : Nat) (atom : Atom)
  | refused (refusal : Refusal)
deriving DecidableEq

/-- The problem whether a conclusion follows from premises. -/
def argument (premises : List Formula) (conclusion : Formula) : Problem :=
  ⟨premises.map (⟨·, true⟩), some conclusion⟩

/-- The signed formulas of a problem in the order in which they enter a tableau. -/
def signedFormulas (p : Problem) : List Signed :=
  p.premises ++ (p.conclusion.map (⟨·, false⟩)).toList

/-- The first mismatch of an arity among signed formulas, the first of which has the given index. -/
def firstMismatch (index : Nat) : List Signed → Option Obstacle
  | [] => none
  | s :: rest => match s.formula.arityMismatch? with
      | some atom => some (.arity index atom)
      | none => firstMismatch (index + 1) rest

/-- What makes a problem invalid: nothing is stated, or an atom has the wrong number of arguments. -/
def defect? (p : Problem) : Option Obstacle :=
  if p.premises.isEmpty && p.conclusion.isNone then some .noPremises
  else firstMismatch 0 p.signedFormulas

def validate (p : Problem) : Except Obstacle Unit :=
  match p.defect? with
  | some obstacle => .error obstacle
  | none => .ok ()

/-- States further premises. -/
def assumeAll (t : Tableau) : List Signed → Except Obstacle Tableau
  | [] => .ok t
  | s :: rest => match t.assume s with
      | (.error refusal, _) => .error (.refused refusal)
      | (.ok _, t) => assumeAll t rest

/-- The tableau that states the problem, with its branch closed if it holds a contradiction. -/
def toTableau (p : Problem) (o : Options) : Except Obstacle Tableau := do
  p.validate
  match p.signedFormulas with
  | [] => .error .noPremises
  | first :: rest =>
      let t ← assumeAll (.start o first) rest
      match t.checkClosed t.tree.root.id with
      | (.error refusal, _) => .error (.refused refusal)
      | (.ok _, t) => .ok t

end Problem

/-- What a trouble in reading is called as the cause of a fault. -/
def Json.Trouble.cause : Json.Trouble → String
  | malformed => "syntax error"
  | truncated => "eof error"
  | unsuitable => "data error"

/-- What is reported of JSON text that could not be read, as the library tells it. -/
def Fault.ofAccount (trouble : Json.Trouble) (account : Json.Account) : Fault :=
  let fault := Fault.withField ⟨.invalidFormat, account.message, none, none⟩ "line" (toString account.line)
  (fault.withField "column" (toString account.column)).withCause trouble.cause

/-- What is reported of JSON text that could not be read where the library's account of it is not known. The message and
the column are left out then. So is the line of a value that does not suit, as it depends on how far the library has
read ahead. -/
def Fault.unreadable (trouble : Json.Trouble) (line : Nat) : Fault :=
  let fault := Fault.withCause ⟨.invalidFormat, "", none, none⟩ trouble.cause
  if trouble = .unsuitable then fault else fault.withField "line" (toString line)

def Fault.emptyInput (what : String) : Fault :=
  ⟨.emptyInput, "no " ++ what ++ " given", none, none⟩

/-- What is reported when there is no tableau for a problem. -/
def Problem.Obstacle.fault : Problem.Obstacle → Fault
  | emptyText => .emptyInput "problem"
  | unreadable trouble _ (some account) => .ofAccount trouble account
  | unreadable trouble line none => .unreadable trouble line
  | noPremises => .emptyInput "premises"
  | arity index atom =>
      Fault.withField ⟨.invalidInput, "predicate " ++ atom.predicate.display ++ " applied to " ++
        toString atom.args.length ++ " arguments", none, none⟩ "premise" (toString index)
  | refused refusal => refusal.fault

end Tableaux
