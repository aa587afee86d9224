import Tableaux.Formula.Basic
import Tableaux.Json.Structure
import Tableaux.Json.Value

/-!
Formulas as JSON documents. A formula is an object with one member: its key names the connective, the quantifier or
the atom, and its value holds the parts.
-/

namespace Tableaux

open Json

def Connective.tag : Connective → String
  | conjunction => "And"
  | disjunction => "Or"
  | implication => "Implies"
  | biimplication => "Iff"

def Connective.ofTag? (tag : String) : Option Connective :=
  [conjunction, disjunction, implication, biimplication].find? (·.tag == tag)

def Quantifier.tag : Quantifier → String
  | universal => "Forall"
  | existential => "Exists"

def Quantifier.ofTag? (tag : String) : Option Quantifier :=
  [universal, existential].find? (·.tag == tag)

def Term.toJson (t : Term) : Json :=
  .str t.name

def Predicate.toJson (p : Predicate) : Json :=
  .obj [("name", .str p.name), ("arity", .nat p.arity)]

def Atom.toJson (a : Atom) : Json :=
  .obj [("predicate", a.predicate.toJson), ("args", .arr (a.args.map Term.toJson))]

def Formula.toJson : Formula → Json
  | atom a => .obj [("Atom", a.toJson)]
  | not f => .obj [("Not", f.toJson)]
  | binary c l r => .obj [(c.tag, .arr [l.toJson, r.toJson])]
  | quantified q x body => .obj [(q.tag, .arr [x.toJson, body.toJson])]

def Term.read : Reader Term := fun s => do
  let (name, s) ← readStr s
  .ok (⟨name⟩, s)

/-- A predicate as far as it has been read. -/
structure Predicate.Draft where
  name : Option String := none
  arity : Option Nat := none

def Predicate.read (budget : Nat) : Reader Predicate :=
  readRecord budget (fun _ _ =>
    [.of "name" Draft.name (fun d v => { d with name := some v }) readStr,
      .of "arity" Draft.arity (fun d v => { d with arity := some v }) readNat]) {}
    fun d => do some ⟨← d.name, ← d.arity⟩

/-- An atom as far as it has been read. -/
structure Atom.Draft where
  predicate : Option Predicate := none
  args : Option (List Term) := none

def Atom.read (budget : Nat) : Reader Atom :=
  readRecord budget (fun inner _ =>
    [.of "predicate" Draft.predicate (fun d v => { d with predicate := some v }) (Predicate.read inner),
      .of "args" Draft.args (fun d v => { d with args := some v }) (readList inner fun _ _ => Term.read)]) {}
    fun d => do some ⟨← d.predicate, ← d.args⟩

def Formula.read (budget : Nat) : Reader Formula :=
  readTagged budget (fun tag inner _ =>
    if tag = "Atom" then some fun s => do
      let (a, s) ← Atom.read inner s
      .ok (atom a, s)
    else if tag = "Not" then some fun s => do
      let (f, s) ← Formula.read inner s
      .ok (not f, s)
    else match Connective.ofTag? tag, Quantifier.ofTag? tag with
      | some c, _ => some fun s => do
          let ((l, r), s) ← readPair inner (fun deeper _ => Formula.read deeper) (fun deeper _ => Formula.read deeper) s
          .ok (binary c l r, s)
      | none, some q => some fun s => do
          let ((x, body), s) ← readPair inner (fun _ _ => Term.read) (fun deeper _ => Formula.read deeper) s
          .ok (quantified q x body, s)
      | none, none => none) (fun _ => none)
termination_by budget
decreasing_by all_goals omega

/-- Reads a formula from the text of a document. -/
def Formula.ofText (text : String) : Except ReadError Formula :=
  readAll (Formula.read nestingLimit) text.toList

end Tableaux
