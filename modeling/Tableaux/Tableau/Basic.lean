import Tableaux.Expansion
import Tableaux.Forest

/-!
A tableau is a tree of nodes, each a signed formula with its marks, together with running counts: the number of
nodes, the number of open branches, the terms introduced so far, every name that occurs in the formula of a node
ever made, and the worklist of nodes still to be developed. Nodes are numbered in the order they are made; a number
below `slots` that is in no node of the tree belongs to a removed node, and is never given out again.
-/

namespace Tableaux

/-- A signed formula at a position of the tree. -/
structure Node where
  /-- Number of the node, given out in order of creation. -/
  id : Nat
  signed : Signed
  /-- Nothing is left to be developed. -/
  ticked : Bool
  /-- The node is a leaf that ends a closed branch. -/
  closed : Bool := false
  /-- Every branch through the node is closed. -/
  branchClosed : Bool := false
  /-- The node is one of a pair that closed a branch. -/
  contradictory : Bool := false
  /-- No node above contradicts this one, as a look at all of them has shown. -/
  compared : Bool := false
  /-- The node whose development made this one; premises have none. -/
  origin : Option Nat := none
  /-- The terms the node has been instantiated with, in order of use. -/
  instances : List Term := []
deriving DecidableEq

namespace Node

/-- A new node; a true negation becomes its body asserted false, and a literal needs no development. -/
def ofSigned (id : Nat) (s : Signed) (origin : Option Nat) : Node :=
  { id, signed := s.fold, ticked := s.fold.kind.isLiteral, origin }

def kind (n : Node) : Kind :=
  n.signed.kind

def contradicts (n m : Node) : Bool :=
  n.signed.contradicts m.signed

end Node

/-- Settings of a single tableau. -/
structure Options where
  /-- What precedes the number in the name of a term made up for an instance. -/
  termStem : String := "t"
  /-- Whether the free terms of premises count as terms of the tableau. -/
  seedConstants : Bool := true
deriving DecidableEq

/-- Why an operation on a tableau was refused. -/
inductive Refusal where
  | unknownNode (id slots : Nat)
  | removedNode (id : Nat)
  | premiseAfterBranching (leaves : Nat)
  | closedBranch (leaf : Nat)
deriving DecidableEq

structure Tableau where
  options : Options
  tree : Tree Node
  /-- How many nodes have ever been made. -/
  slots : Nat
  nodeCount : Nat
  openBranches : Nat
  /-- The terms introduced so far, in order of introduction. -/
  terms : List Term
  /-- The identifiers of the formulas of all nodes ever made. -/
  names : List Term
  /-- The nodes that wait for development, in order. -/
  worklist : List Nat
deriving DecidableEq

namespace Tableau

/-- The numbers of the new nodes that need development. -/
def pending (new : Forest Node) : List Nat :=
  (new.labels.filter fun n => !n.ticked).map Node.id

/-- The names in use after nodes with the given formulas have been made. -/
def enterNames (names : List Term) (new : Forest Node) : List Term :=
  new.labels.foldl (fun names n => n.signed.formula.identifiers.foldl Term.enter names) names

/-- The terms after a premise has been stated: with seeding its free terms are added. -/
def seed (o : Options) (terms : List Term) (f : Formula) : List Term :=
  if o.seedConstants then f.freeTerms.foldl Term.enter terms else terms

/-- The tableau whose only node states the first premise. -/
def start (o : Options) (s : Signed) : Tableau :=
  let root := Node.ofSigned 0 s none
  { options := o
    tree := ⟨root, .nil⟩
    slots := 1
    nodeCount := 1
    openBranches := 1
    terms := seed o [] s.formula
    names := enterNames [] (.cons root .nil .nil)
    worklist := pending (.cons root .nil .nil) }

/-- The subtree at a node of the tree. -/
def subtree (t : Tableau) (id : Nat) : Option (Tree Node) :=
  t.tree.find? (·.id == id)

/-- The node with the given number, if it has been made and not been removed. -/
def node (t : Tableau) (id : Nat) : Except Refusal Node :=
  match t.subtree id with
  | some s => .ok s.root
  | none => .error (if id < t.slots then .removedNode id else .unknownNode id t.slots)

/-- The nodes of the tree in the order they were made. -/
def nodes (t : Tableau) : List Node :=
  t.tree.labels.mergeSort fun n m => n.id ≤ m.id

/-- The parent of a node, if it has one. -/
def parent (t : Tableau) (id : Nat) : Option Nat :=
  (t.tree.parent? (·.id == id)).map Node.id

/-- The children of a node from left to right. -/
def children (t : Tableau) (id : Nat) : List Nat :=
  match t.subtree id with
  | some s => s.below.roots.map Node.id
  | none => []

/-- The leaves below a node, itself included, from left to right. -/
def leavesBelow (t : Tableau) (id : Nat) : List Nat :=
  match t.subtree id with
  | some s => s.leaves.map Node.id
  | none => []

/-- The leaves below a node whose branch is open, from left to right. -/
def openLeavesBelow (t : Tableau) (id : Nat) : List Nat :=
  match t.subtree id with
  | some s => (s.toForest.leavesOutside Node.branchClosed).map Node.id
  | none => []

def allLeaves (t : Tableau) (id : Nat) : Except Refusal (List Nat) :=
  (t.node id).map fun _ => t.leavesBelow id

def openLeaves (t : Tableau) (id : Nat) : Except Refusal (List Nat) :=
  (t.node id).map fun _ => t.openLeavesBelow id

/-- Whether nothing is left to be developed or every branch is closed. -/
def isFinished (t : Tableau) : Bool :=
  t.worklist.isEmpty || t.openBranches == 0

/-- Whether a node has been instantiated, and with every term of the tableau. -/
def saturates (t : Tableau) (n : Node) : Bool :=
  !n.instances.isEmpty && t.terms.all n.instances.contains

def isSaturated (t : Tableau) (id : Nat) : Except Refusal Bool :=
  (t.node id).map t.saturates

/-- Hangs new nodes, numbered from `slots` on, below a leaf. -/
def attach (t : Tableau) (leaf : Nat) (new : Forest Node) : Tableau :=
  { t with
    tree := t.tree.graft (·.id == leaf) new
    slots := t.slots + new.size
    nodeCount := t.nodeCount + new.size
    names := enterNames t.names new
    worklist := t.worklist ++ pending new }

/-- States another premise below the only leaf, and gives the number of its node. -/
def assume (t : Tableau) (s : Signed) : Except Refusal Nat × Tableau :=
  match t.tree.leaves with
  | [leaf] =>
      if leaf.branchClosed then (.error (.closedBranch leaf.id), t)
      else (.ok t.slots, { t with terms := seed t.options t.terms s.formula }.attach leaf.id
        (.cons (.ofSigned t.slots s none) .nil .nil))
  | leaves => (.error (.premiseAfterBranching leaves.length), t)

/-- Moves a waiting node to the end of the worklist. -/
def sendToBack (t : Tableau) (id : Nat) : Tableau :=
  if t.worklist.contains id then { t with worklist := t.worklist.erase id ++ [id] } else t

def defer (t : Tableau) (id : Nat) : Except Refusal Unit × Tableau :=
  match t.node id with
  | .error e => (.error e, t)
  | .ok _ => (.ok (), t.sendToBack id)

end Tableau

end Tableaux
