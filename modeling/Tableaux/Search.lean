import Tableaux.Tableau.Removal

/-!
The search for a closed tableau. Nodes that need one development are developed first, in the order of the worklist.
When only reusable nodes wait, the first that can still have a new instance is developed and sent to the back of
the worklist, so that each has its turn. The search ends when every branch is closed, when nothing is left to be
done, or at a limit.
-/

namespace Tableaux

/-- Limits of a search. -/
structure Limits where
  /-- Most developments. -/
  steps : Nat := 10000
  /-- Number of nodes at which the search stops. -/
  nodes : Nat := 10000
  /-- Most instances of one reusable node. -/
  instances : Nat := 5
deriving DecidableEq

/-- Why a search stopped without an answer. -/
inductive Limitation where
  | steps (limit : Nat)
  | nodes (limit : Nat)
  | instances (limit id : Nat)
  | stuck (id : Nat)
deriving DecidableEq

def Limitation.text : Limitation → String
  | steps limit => s!"Step limit {limit} reached"
  | nodes limit => s!"Node limit {limit} reached"
  | instances limit id => s!"Instance limit {limit} reached for node {id}"
  | stuck id => s!"Node {id} could not be developed"

/-- The answer of a search, with the number of developments it took. -/
inductive Verdict where
  | closed (steps nodes : Nat)
  | saturated (steps openBranches : Nat)
  | unknown (steps : Nat) (reason : Limitation)
deriving DecidableEq

def Verdict.steps : Verdict → Nat
  | closed steps _ => steps
  | saturated steps _ => steps
  | unknown steps _ => steps

namespace Tableau

/-- The first of the given nodes that satisfies `p`. -/
def firstWhere (t : Tableau) (p : Node → Bool) : List Nat → Except Refusal (Option Nat)
  | [] => .ok none
  | id :: ids => match t.node id with
      | .error e => .error e
      | .ok n => if p n then .ok (some id) else t.firstWhere p ids

/-- Whether a reusable node may and can have another instance. -/
def isInstantiable (t : Tableau) (limits : Limits) (n : Node) : Bool :=
  n.instances.length < limits.instances && !t.saturates n

/-- The waiting node to develop next. -/
def select (t : Tableau) (limits : Limits) : Except Refusal (Option Nat) :=
  match t.firstWhere (fun n => !n.kind.isReusable) t.worklist with
  | .ok none => t.firstWhere (t.isInstantiable limits) t.worklist
  | found => found

/-- The verdict on a tableau with nothing left to select. -/
def conclude (t : Tableau) (limits : Limits) (steps : Nat) : Except Refusal Verdict :=
  match t.firstWhere (fun n => !t.saturates n) t.worklist with
  | .error e => .error e
  | .ok (some id) => .ok (.unknown steps (.instances limits.instances id))
  | .ok none => .ok (.saturated steps t.openBranches)

/-- Develops a selected node, which goes to the back of the worklist if it is reusable. The answer is `false` if
the node could not be developed. -/
def advance (t : Tableau) (id : Nat) : Except Refusal Bool × Tableau :=
  match t.node id with
  | .error e => (.error e, t)
  | .ok n => match t.develop id none with
      | (.ok true, t) =>
          if n.kind.isReusable then
            match t.defer id with
            | (.error e, t) => (.error e, t)
            | (.ok _, t) => (.ok true, t)
          else (.ok true, t)
      | (answer, t) => (answer, t)

/-- Searches on after `steps` developments, with `left` more allowed. -/
def searchFrom (limits : Limits) : (left steps : Nat) → Tableau → Except Refusal Verdict × Tableau
  | 0, steps, t =>
      if t.openBranches = 0 then (.ok (.closed steps t.nodeCount), t)
      else (.ok (.unknown steps (.steps limits.steps)), t)
  | left + 1, steps, t =>
      if t.openBranches = 0 then (.ok (.closed steps t.nodeCount), t)
      else if limits.nodes ≤ t.nodeCount then (.ok (.unknown steps (.nodes limits.nodes)), t)
      else match t.select limits with
        | .error e => (.error e, t)
        | .ok none => (t.conclude limits steps, t)
        | .ok (some id) => match t.advance id with
            | (.error e, t) => (.error e, t)
            | (.ok false, t) => (.ok (.unknown steps (.stuck id)), t)
            | (.ok true, t) => searchFrom limits left (steps + 1) t

/-- Develops the tableau until every branch is closed, nothing is left to be done, or a limit is reached. -/
def search (t : Tableau) (limits : Limits) : Except Refusal Verdict × Tableau :=
  match t.checkClosed t.tree.root.id with
  | (.error e, t) => (.error e, t)
  | (.ok _, t) => searchFrom limits limits.steps 0 t

end Tableau

end Tableaux
