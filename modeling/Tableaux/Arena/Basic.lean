import Tableaux.Tableau.Basic

/-!
The tableau as it is laid out in memory. Every node ever made has a slot, found by its number, and the links to its
parent and to its children are numbers of slots. The slot of a removed node is kept, without links and marked as
removed, so that its number is never given out again.

An operation breaks off, with the result `none`, where it would look beyond the last slot, take a node off a number of
nodes that is zero, or follow links for more rounds than there are slots, which happens only if they lead round in a
circle.
-/

namespace Tableaux

/-- The place of a node: the node and its links. -/
structure Slot where
  node : Node
  parent : Option Nat := none
  /-- The children from left to right. -/
  children : List Nat := []
  removed : Bool := false
deriving DecidableEq

structure Arena where
  options : Options
  slots : List Slot
  root : Nat
  nodeCount : Nat
  openBranches : Nat
  /-- The terms introduced so far, in order of introduction. -/
  terms : List Term
  /-- The identifiers of the formulas of all nodes ever made. -/
  names : List Term
  /-- The nodes that wait for development, in order. -/
  worklist : List Nat
deriving DecidableEq

namespace Arena

def slot (a : Arena) (id : Nat) : Option Slot :=
  a.slots[id]?

def put (a : Arena) (id : Nat) (s : Slot) : Arena :=
  { a with slots := a.slots.set id s }

/-- Changes a slot. -/
def alter (a : Arena) (id : Nat) (f : Slot → Slot) : Option Arena := do
  return a.put id (f (← a.slot id))

/-- Changes the node in a slot and leaves its links. -/
def mark (a : Arena) (id : Nat) (g : Node → Node) : Option Arena :=
  a.alter id fun s => { s with node := g s.node }

/-- The slot of a node, if it has been made and not been removed. -/
def live (a : Arena) (id : Nat) : Except Refusal Slot :=
  match a.slot id with
  | some s => if s.removed then .error (.removedNode id) else .ok s
  | none => .error (.unknownNode id a.slots.length)

def dequeue (a : Arena) (id : Nat) : Arena :=
  { a with worklist := a.worklist.erase id }

def seedTerms (a : Arena) (f : Formula) : Arena :=
  { a with terms := Tableau.seed a.options a.terms f }

/-- Makes a node that is not linked yet, and gives its number. -/
def create (a : Arena) (s : Signed) : Nat × Arena :=
  let node := Node.ofSigned a.slots.length s none
  (a.slots.length, { a with
    slots := a.slots ++ [{ node }]
    nodeCount := a.nodeCount + 1
    names := node.signed.formula.identifiers.foldl Term.enter a.names
    worklist := if node.ticked then a.worklist else a.worklist ++ [node.id] })

/-- Hangs a new node behind the children of another. -/
def append (a : Arena) (parent child : Nat) (origin : Option Nat) : Option Arena := do
  let a ← a.alter child fun s => { s with parent := some parent, node.origin := origin }
  a.alter parent fun s => { s with children := s.children ++ [child] }

/-- The arena whose only node states the first premise. -/
def start (o : Options) (s : Signed) : Arena :=
  let bare : Arena :=
    { options := o, slots := [], root := 0, nodeCount := 0, openBranches := 1, terms := [], names := [],
      worklist := [] }
  let (root, a) := (bare.seedTerms s.formula).create s
  { a with root }

/-- The leaves found from the nodes on a stack, the topmost first; closed ones are passed over if only open leaves
are asked for. -/
def walk (a : Arena) (openOnly : Bool) : (rounds : Nat) → (stack leaves : List Nat) → Option (List Nat)
  | _, [], leaves => some leaves
  | 0, _ :: _, _ => none
  | rounds + 1, id :: stack, leaves => do
      let s ← a.slot id
      if openOnly && s.node.branchClosed then a.walk openOnly rounds stack leaves
      else if s.children.isEmpty then a.walk openOnly rounds stack (leaves ++ [id])
      else a.walk openOnly rounds (s.children ++ stack) leaves

/-- The leaves below a node, itself included, from left to right, all of them or only the open ones. -/
def leavesBelow (a : Arena) (id : Nat) (openOnly : Bool) : Option (List Nat) :=
  a.walk openOnly a.slots.length [id] []

/-- States another premise below the only leaf, and gives the number of its node. -/
def assume (a : Arena) (s : Signed) : Option (Except Refusal Nat × Arena) := do
  match ← a.leavesBelow a.root false with
  | [leaf] =>
      if (← a.slot leaf).node.branchClosed then return (.error (.closedBranch leaf), a)
      else
        let (id, b) := (a.seedTerms s.formula).create s
        return (.ok id, ← b.append leaf id none)
  | leaves => return (.error (.premiseAfterBranching leaves.length), a)

/-- Moves a waiting node to the end of the worklist. -/
def sendToBack (a : Arena) (id : Nat) : Arena :=
  if a.worklist.contains id then { a with worklist := a.worklist.erase id ++ [id] } else a

def defer (a : Arena) (id : Nat) : Except Refusal Unit × Arena :=
  match a.live id with
  | .error e => (.error e, a)
  | .ok _ => (.ok (), a.sendToBack id)

/-- Whether a node has been instantiated, and with every term of the tableau. -/
def saturates (a : Arena) (n : Node) : Bool :=
  !n.instances.isEmpty && a.terms.all n.instances.contains

end Arena

end Tableaux
