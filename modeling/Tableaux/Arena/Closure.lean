import Tableaux.Arena.Basic

/-!
Closing of branches in the arena. The climb from an open leaf holds each node not yet compared against all nodes above
it. From a leaf that is closed a second climb marks the nodes as closed and takes them off the worklist, up to the
first that still has an open child.
-/

namespace Tableaux

namespace Arena

/-- The nearest node that contradicts `n`, from the given one upward. -/
def findContradiction (a : Arena) (n : Node) : (rounds : Nat) → Option Nat → Option (Option Nat)
  | _, none => some none
  | 0, some _ => none
  | rounds + 1, some up => do
      let s ← a.slot up
      if n.contradicts s.node then return some up
      else a.findContradiction n rounds s.parent

/-- Whether every one of the given nodes is closed. -/
def allClosed (a : Arena) : List Nat → Option Bool
  | [] => some true
  | id :: ids => do
      if (← a.slot id).node.branchClosed then a.allClosed ids else return false

/-- Marks a node as closed, and then those above it for as long as nothing below them is open. -/
def closeUpward (a : Arena) : (rounds : Nat) → (id : Nat) → Option Arena
  | 0, _ => none
  | rounds + 1, id => do
      let a ← a.mark id fun n => { n with branchClosed := true }
      let s ← a.slot id
      let a := if s.node.ticked then a else a.dequeue id
      match s.parent with
      | none => return a
      | some up =>
          if ← a.allClosed (← a.slot up).children then a.closeUpward rounds up else return a

/-- Closes the branch that ends at a leaf, and counts one open branch less, though never less than none. -/
def markClosed (a : Arena) (leaf : Nat) : Option Arena := do
  let a ← a.mark leaf fun n => { n with closed := true }
  { a with openBranches := a.openBranches - 1 }.closeUpward a.slots.length leaf

/-- Looks for a contradiction from the given node upward, and closes the branch of the leaf if there is one. -/
def lookUpward (a : Arena) (leaf : Nat) : (rounds : Nat) → Option Nat → Option (Arena × Bool)
  | _, none => some (a, false)
  | 0, some _ => none
  | rounds + 1, some id => do
      let s ← a.slot id
      if s.node.compared then a.lookUpward leaf rounds s.parent
      else match ← a.findContradiction s.node a.slots.length s.parent with
        | some other =>
            let a ← a.mark id fun n => { n with contradictory := true }
            let a ← a.mark other fun n => { n with contradictory := true }
            return (← a.markClosed leaf, true)
        | none =>
            let a ← a.mark id fun n => { n with compared := true }
            a.lookUpward leaf rounds s.parent

/-- Looks at the branches that end at the given leaves; also counts those that were closed. -/
def closeLeaves (a : Arena) (closed : Nat) : List Nat → Option (Arena × Nat)
  | [] => some (a, closed)
  | leaf :: leaves => do
      let (a, found) ← a.lookUpward leaf a.slots.length (some leaf)
      a.closeLeaves (if found then closed + 1 else closed) leaves

/-- Looks at each open branch through a node, from left to right; also gives how many were closed. -/
def closeBranches (a : Arena) (id : Nat) : Option (Arena × Nat) := do
  a.closeLeaves 0 (← a.leavesBelow id true)

/-- Closes the branches through a node that hold a contradiction, and gives their number. -/
def checkClosed (a : Arena) (id : Nat) : Option (Except Refusal Nat × Arena) :=
  match a.live id with
  | .error e => some (.error e, a)
  | .ok _ => do
      let (b, closed) ← a.closeBranches id
      return (.ok closed, b)

end Arena

end Tableaux
