import Tableaux.Arena.Closure
import Tableaux.Tableau.Development

/-!
Development of a node in the arena: below every open leaf under the node the nodes of its rule are made one by one, and
each is linked to the one above it.
-/

namespace Tableaux

namespace Arena

/-- A term that is no term of the tableau and occurs in no node ever made. -/
def freshTerm (a : Arena) : Term :=
  .freshIndexed a.options.termStem (a.terms ++ a.names)

def addTerm (a : Arena) (term : Term) : Arena :=
  { a with terms := Term.enter a.terms term }

/-- Enters a term among the instances of a node. -/
def use (a : Arena) (id : Nat) (term : Term) : Option (Option Term × Arena) := do
  return (some term, ← a.mark id fun n => { n with instances := Term.enter n.instances term })

/-- The term to instantiate a quantified node with: the one that is asked for, or for a reusable node the oldest that
it has not been instantiated with, or else a fresh one. -/
def findTerm (a : Arena) (id : Nat) (term : Option Term) : Option (Option Term × Arena) := do
  let n := (← a.slot id).node
  match term with
  | some term => (a.addTerm term).use id term
  | none =>
      match if n.kind.isReusable then a.terms.find? fun s => !n.instances.contains s else none with
      | some term => a.use id term
      | none => (a.addTerm a.freshTerm).use id a.freshTerm

/-- Enters the term that the rule of a node is applied with, if the node is quantified. -/
def instantiate (a : Arena) (id : Nat) (term : Option Term) : Option (Option Term × Arena) := do
  if (← a.slot id).node.kind.isQuantified then a.findTerm id term else return (none, a)

/-- Makes a path of new nodes below a node. -/
def appendChain (a : Arena) (origin parent : Nat) : List Signed → Option Arena
  | [] => some a
  | s :: chain => do
      let (child, a) := a.create s
      let a ← a.append parent child (some origin)
      a.appendChain origin child chain

/-- Puts the result of a rule below a leaf. -/
def extend (a : Arena) (origin leaf : Nat) : Expansion → Option Arena
  | .linear chain => a.appendChain origin leaf chain
  | .branching left right => do
      let a ← a.appendChain origin leaf left
      a.appendChain origin leaf right

/-- Puts the result of a rule below the given leaves. -/
def extendAll (a : Arena) (origin : Nat) (e : Expansion) : List Nat → Option Arena
  | [] => some a
  | leaf :: leaves => do
      let a ← a.extend origin leaf e
      a.extendAll origin e leaves

/-- Marks a node as developed and counts the branches that this opened. -/
def tick (a : Arena) (id opened : Nat) : Option Arena := do
  let a ← a.mark id fun n => { n with ticked := true }
  let a := a.dequeue id
  return { a with openBranches := a.openBranches + opened }

/-- Applies the rule of a node below the given leaves. The answer is `false` if there is no rule. -/
def applyRule (a : Arena) (id : Nat) (leaves : List Nat) (term : Option Term) : Option (Bool × Arena) := do
  let (term, a) ← a.instantiate id term
  let n := (← a.slot id).node
  match n.signed.expansion term with
  | none => return (false, a)
  | some e =>
      let a ← a.extendAll id e leaves
      let n := (← a.slot id).node
      if n.kind.isReusable then return (true, a)
      else return (true, ← a.tick id (e.branchDelta * leaves.length))

/-- Develops a node. The answer is `false` if there is nothing to do. -/
def develop (a : Arena) (id : Nat) (term : Option Term) : Option (Except Refusal Bool × Arena) :=
  match a.live id with
  | .error e => some (.error e, a)
  | .ok s =>
      if s.node.ticked then some (.ok false, a)
      else do
        let leaves ← a.leavesBelow id true
        if leaves.isEmpty then return (.ok false, a)
        else match ← a.applyRule id leaves term with
          | (false, b) => return (.ok false, b)
          | (true, b) => return (.ok true, (← b.closeBranches id).1)

end Arena

end Tableaux
