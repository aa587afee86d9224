import Tableaux.Tableau.Development

/-!
Removal of a node with everything developed from it. Below the node, of each pair of siblings with one developed
from it the second is deleted with all that is below it. The other nodes developed from it are removed in the same
way, and the node itself is replaced by its children. The marks of closed branches, the number of open branches
and the worklist are then worked out anew.

Nodes that go take their links with them, as a tree has none to keep. `Arena.remove` does the same slot by slot, with
links to mend and a count to keep, and is shown to agree.
-/

namespace Tableaux

namespace Forest

/-- The second of exactly two roots. -/
def secondOfTwo : Forest Node → Option Nat
  | cons _ _ (cons second _ nil) => some second.id
  | _ => none

/-- The nodes that go with all that is below them when `id` is removed: wherever two siblings include one that was
developed from `id`, the second of the two. For the roots `second` is that sibling. -/
def doomed (id : Nat) (second : Option Nat) : Forest Node → List Nat
  | nil => []
  | cons n below beside =>
      (if n.origin = some id then second.toList else []) ++
        (below.doomed id below.secondOfTwo ++ beside.doomed id second)

/-- The nodes developed from `id`, strand by strand. -/
def dependents (id : Nat) (f : Forest Node) : List Nat :=
  (f.strands.flatten.filter fun n => n.origin == some id).map Node.id

/-- Removes a node with everything developed from it, down to the given number of generations. -/
def exciseWithin : (generations : Nat) → (id : Nat) → Forest Node → Forest Node
  | 0, _, f => f
  | generations + 1, id, f =>
      match f.find? (·.id == id) with
      | none => f
      | some (n, below) =>
          let rest :=
            if n.kind.isLiteral then f
            else
              let doomed := below.doomed id below.secondOfTwo
              (below.dependents id).foldl (fun rest dependent => exciseWithin generations dependent rest)
                (f.prune fun m => doomed.contains m.id)
          rest.splice (·.id == id)

/-- Removes a node with everything developed from it. What is developed from a node lies below it, so there are no
more generations than nodes. -/
def excise (id : Nat) (f : Forest Node) : Forest Node :=
  f.exciseWithin f.size id

end Forest

namespace Tableau

/-- Drops the marks that closing branches has left on a node. -/
def clearMarks (n : Node) : Node :=
  { n with closed := false, branchClosed := false, contradictory := false, compared := false }

/-- The worklist after a removal: the nodes still to be developed, first those that waited before, in their order,
then the others in order of creation. -/
def rebuildWorklist (tree : Tree Node) (slots : Nat) (before : List Nat) : List Nat :=
  let eligible := (tree.labels.filter fun n => !n.ticked).map Node.id
  let kept := before.filter eligible.contains
  kept ++ (List.range slots).filter fun id => eligible.contains id && !kept.contains id

/-- Works out closed branches, the number of open branches and the worklist anew. -/
def refresh (t : Tableau) : Tableau :=
  let t := { t with
    tree := t.tree.map clearMarks
    openBranches := t.tree.leaves.length
    worklist := rebuildWorklist t.tree t.slots t.worklist }
  (t.closeBranches t.tree.root.id).1

/-- Removes a node and everything developed from it. The answer is `false` for the root, which stays. -/
def remove (t : Tableau) (id : Nat) : Except Refusal Bool × Tableau :=
  match t.node id with
  | .error e => (.error e, t)
  | .ok _ =>
      if id = t.tree.root.id then (.ok false, t)
      else
        let below := t.tree.below.excise id
        (.ok true, { t with
          tree := ⟨t.tree.root, below⟩
          nodeCount := t.nodeCount - (t.tree.below.size - below.size) }.refresh)

end Tableau

end Tableaux
