import Tableaux.Arena.Development
import Tableaux.Arena.Removal
import Tableaux.Session
import Tableaux.Tableau.Snapshot

/-!
Search, snapshots and sessions in the arena. The search asks the arena the questions that it asks a tableau, and every
step of a session is one operation of the arena.
-/

namespace Tableaux

namespace Arena

/-- The snapshot of what is below a node, itself included. -/
def snapshotFrom (a : Arena) : (rounds : Nat) → (id : Nat) → Option Snapshot
  | 0, _ => none
  | rounds + 1, id => do
      let s ← a.slot id
      let below ← s.children.mapM (a.snapshotFrom rounds)
      return ⟨s.node.snapshot, .ofTrees below⟩

def snapshot (a : Arena) : Option Snapshot :=
  a.snapshotFrom a.slots.length a.root

/-- The first of the given nodes that satisfies `p`. -/
def firstWhere (a : Arena) (p : Node → Bool) : List Nat → Except Refusal (Option Nat)
  | [] => .ok none
  | id :: ids => match a.live id with
      | .error e => .error e
      | .ok s => if p s.node then .ok (some id) else a.firstWhere p ids

/-- Whether a reusable node may and can have another instance. -/
def isInstantiable (a : Arena) (limits : Limits) (n : Node) : Bool :=
  n.instances.length < limits.instances && !a.saturates n

/-- The waiting node to develop next. -/
def select (a : Arena) (limits : Limits) : Except Refusal (Option Nat) :=
  match a.firstWhere (fun n => !n.kind.isReusable) a.worklist with
  | .ok none => a.firstWhere (a.isInstantiable limits) a.worklist
  | found => found

/-- The verdict on an arena with nothing left to select. -/
def conclude (a : Arena) (limits : Limits) (steps : Nat) : Except Refusal Verdict :=
  match a.firstWhere (fun n => !a.saturates n) a.worklist with
  | .error e => .error e
  | .ok (some id) => .ok (.unknown steps (.instances limits.instances id))
  | .ok none => .ok (.saturated steps a.openBranches)

/-- Develops a selected node, which goes to the back of the worklist if it is reusable. The answer is `false` if
the node could not be developed. -/
def advance (a : Arena) (id : Nat) : Option (Except Refusal Bool × Arena) :=
  match a.live id with
  | .error e => some (.error e, a)
  | .ok s => do
      match ← a.develop id none with
      | (.ok true, b) =>
          if s.node.kind.isReusable then
            match b.defer id with
            | (.error e, c) => return (.error e, c)
            | (.ok _, c) => return (.ok true, c)
          else return (.ok true, b)
      | (answer, b) => return (answer, b)

/-- Searches on after `steps` developments, with `left` more allowed. -/
def searchFrom (limits : Limits) : (left steps : Nat) → Arena → Option (Except Refusal Verdict × Arena)
  | 0, steps, a =>
      if a.openBranches = 0 then some (.ok (.closed steps a.nodeCount), a)
      else some (.ok (.unknown steps (.steps limits.steps)), a)
  | left + 1, steps, a =>
      if a.openBranches = 0 then some (.ok (.closed steps a.nodeCount), a)
      else if limits.nodes ≤ a.nodeCount then some (.ok (.unknown steps (.nodes limits.nodes)), a)
      else match a.select limits with
        | .error e => some (.error e, a)
        | .ok none => some (a.conclude limits steps, a)
        | .ok (some id) => do
            match ← a.advance id with
            | (.error e, b) => return (.error e, b)
            | (.ok false, b) => return (.ok (.unknown steps (.stuck id)), b)
            | (.ok true, b) => searchFrom limits left (steps + 1) b

/-- Develops the arena until every branch is closed, nothing is left to be done, or a limit is reached. -/
def search (a : Arena) (limits : Limits) : Option (Except Refusal Verdict × Arena) := do
  match ← a.checkClosed a.root with
  | (.error e, b) => return (.error e, b)
  | (.ok _, b) => searchFrom limits limits.steps 0 b

/-- Takes a step. -/
def perform (a : Arena) : Step → Option (Except Refusal Answer × Arena)
  | .assume s => do let (answer, a) ← a.assume s
                    return (answer.map .added, a)
  | .develop id term => do let (answer, a) ← a.develop id term
                           return (answer.map .developed, a)
  | .remove id => do let (answer, a) ← a.remove id
                     return (answer.map .removed, a)
  | .checkClosed id => do let (answer, a) ← a.checkClosed id
                          return (answer.map .closed, a)
  | .defer id => let (answer, a) := a.defer id
      some (answer.map fun _ => .deferred, a)
  | .search limits => do let (answer, a) ← a.search limits
                         return (answer.map .verdict, a)

/-- The arena after the given steps. -/
def run (a : Arena) : List Step → Option Arena
  | [] => some a
  | step :: steps => do
      let (_, a) ← a.perform step
      a.run steps

end Arena

end Tableaux
