import Tableaux.Arena.Closure
import Tableaux.Tableau.Removal

/-!
Removal of a node in the arena. First the climbs from the leaves below the node collect what was developed from it, and
the siblings that go with all that is below them. Then these are deleted one by one, the dependents are removed in the
same way, and the children of the node are linked to its parent in its place.
-/

namespace Tableaux

/-- What a removal has collected so far, in the order in which it was met. -/
structure Haul where
  dependents : List Nat := []
  doomed : List Nat := []
deriving DecidableEq

namespace Haul

/-- Enters the second of two siblings among the doomed. -/
def doom (h : Haul) : List Nat → Haul
  | [_, second] => if h.doomed.contains second then h else { h with doomed := h.doomed ++ [second] }
  | _ => h

end Haul

/-- Puts `new` in the place of `id`, or at the end if `id` is not there. -/
def replaceBy (id : Nat) (new : List Nat) : List Nat → List Nat
  | [] => new
  | c :: cs => if c = id then new ++ cs else c :: replaceBy id new cs

namespace Arena

/-- Collects a node that was developed from `id`, unless it was met before. -/
def collect (a : Arena) (id current : Nat) (s : Slot) (haul : Haul) : Option Haul :=
  if s.node.origin = some id ∧ current ∉ haul.dependents then
    let haul := { haul with dependents := haul.dependents ++ [current] }
    match s.parent with
    | some up => do return haul.doom (← a.slot up).children
    | none => some haul
  else some haul

/-- Collects from the given node upward as far as `id`. -/
def collectUpward (a : Arena) (id : Nat) : (rounds : Nat) → (current : Nat) → Haul → Option Haul
  | 0, _, _ => none
  | rounds + 1, current, haul =>
      if current = id then some haul
      else do
        let s ← a.slot current
        let haul ← a.collect id current s haul
        match s.parent with
        | some up => a.collectUpward id rounds up haul
        | none => return haul

/-- Collects from each of the given leaves upward as far as `id`. -/
def collectAll (a : Arena) (id : Nat) : List Nat → Haul → Option Haul
  | [], haul => some haul
  | leaf :: leaves, haul => do
      let haul ← a.collectUpward id (a.slots.length + 1) leaf haul
      a.collectAll id leaves haul

/-- Collects what goes with a node: nothing for a literal, which has no rule. -/
def haul (a : Arena) (id : Nat) : Option Haul := do
  if (← a.slot id).node.kind.isLiteral then return {}
  else a.collectAll id (← a.leavesBelow id false) {}

/-- Marks a slot as removed, drops its links, and counts one node less. -/
def tombstone (a : Arena) (id : Nat) : Option Arena := do
  let a ← a.alter id fun s =>
    { s with removed := true, node.branchClosed := true, parent := none, children := [] }
  let a := a.dequeue id
  if a.nodeCount = 0 then none else return { a with nodeCount := a.nodeCount - 1 }

/-- Removes the nodes on a stack, the topmost first, with everything below them. -/
def bury (a : Arena) : (rounds : Nat) → (stack : List Nat) → Option Arena
  | _, [] => some a
  | 0, _ :: _ => none
  | rounds + 1, id :: stack => do
      let s ← a.slot id
      let a ← a.tombstone id
      a.bury rounds (s.children.reverse ++ stack)

/-- Takes a node off the children of its parent. -/
def unlink (a : Arena) (head : Nat) : (parent : Option Nat) → Option Arena
  | some up => a.alter up fun p => { p with children := p.children.filter (· != head) }
  | none => some a

/-- Deletes a node with everything below it, unless it is gone already. -/
def deleteBranch (a : Arena) (head : Nat) : Option Arena := do
  let s ← a.slot head
  if s.removed then return a
  else
    let a ← a.unlink head s.parent
    a.bury a.slots.length [head]

/-- Deletes the given nodes one after the other, each with everything below it. -/
def deleteBranches (a : Arena) : List Nat → Option Arena
  | [] => some a
  | head :: heads => do
      let a ← a.deleteBranch head
      a.deleteBranches heads

/-- Links the given nodes to another parent. -/
def adopt (a : Arena) (parent : Nat) : List Nat → Option Arena
  | [] => some a
  | child :: children => do
      let a ← a.alter child fun s => { s with parent := some parent }
      a.adopt parent children

/-- Puts the children of a node in its place and removes it. -/
def splice (a : Arena) (id : Nat) : Option Arena := do
  let s ← a.slot id
  match s.parent with
  | none => return a
  | some up =>
      let a ← a.alter id fun s => { s with children := [] }
      let a ← a.adopt up s.children
      let a ← a.alter up fun p => { p with children := replaceBy id s.children p.children }
      a.tombstone id

/-- Applies an operation at each of the given nodes in turn. -/
def each (op : Nat → Arena → Option Arena) : List Nat → Arena → Option Arena
  | [], a => some a
  | id :: ids, a => do each op ids (← op id a)

/-- Removes a node with everything developed from it, down to the given number of generations. -/
def removeNode : (generations : Nat) → (id : Nat) → Arena → Option Arena
  | 0, _, _ => none
  | generations + 1, id, a => do
      let s ← a.slot id
      if s.removed then return a
      else
        let haul ← a.haul id
        let a ← a.deleteBranches haul.doomed
        let a ← each (removeNode generations) haul.dependents a
        a.splice id

/-- Whether a node is left and needs development. -/
def eligible (a : Arena) (id : Nat) : Option Bool := do
  let s ← a.slot id
  return !s.removed && !s.node.ticked

/-- Those of the given nodes that are left and need development. -/
def keepEligible (a : Arena) : List Nat → Option (List Nat)
  | [] => some []
  | id :: ids => do
      let keep ← a.eligible id
      let kept ← a.keepEligible ids
      return if keep then id :: kept else kept

/-- Adds those of the given nodes to a worklist that are left, need development and do not wait there yet. -/
def addEligible (a : Arena) : (ids worklist : List Nat) → Option (List Nat)
  | [], worklist => some worklist
  | id :: ids, worklist => do
      if (← a.eligible id) && !worklist.contains id then a.addEligible ids (worklist ++ [id])
      else a.addEligible ids worklist

/-- Drops the marks that closing branches has left on the nodes that are not removed. -/
def clearMarks (a : Arena) : Arena :=
  { a with slots := a.slots.map fun s => if s.removed then s else { s with node := Tableau.clearMarks s.node } }

/-- Works out closed branches, the number of open branches and the worklist anew. -/
def refresh (a : Arena) : Option Arena := do
  let a := a.clearMarks
  let leaves ← a.leavesBelow a.root false
  let a := { a with openBranches := leaves.length }
  let worklist ← a.addEligible (List.range a.slots.length) (← a.keepEligible a.worklist)
  let a := { a with worklist }
  return (← a.closeBranches a.root).1

/-- Removes a node and everything developed from it. The answer is `false` for the root, which stays. -/
def remove (a : Arena) (id : Nat) : Option (Except Refusal Bool × Arena) :=
  match a.live id with
  | .error e => some (.error e, a)
  | .ok _ =>
      if id = a.root then some (.ok false, a)
      else do
        let b ← removeNode a.slots.length id a
        return (.ok true, ← b.refresh)

end Arena

end Tableaux
