import Tableaux.Tableau.Basic

/-!
Snapshots: the tree as others see it, each node with its formula and marks and the nodes below it.
-/

namespace Tableaux

/-- What a snapshot tells of a node. -/
structure SnapshotEntry where
  id : Nat
  signed : Signed
  kind : Kind
  ticked : Bool
  closed : Bool
  branchClosed : Bool
  contradictory : Bool
  origin : Option Nat
  instances : List Term
deriving DecidableEq

abbrev Snapshot := Tree SnapshotEntry

namespace Snapshot

/-- The number of leaves whose branch is open. -/
def openLeaves (s : Snapshot) : Nat :=
  (s.toForest.leavesOutside SnapshotEntry.branchClosed).length

end Snapshot

def Node.snapshot (n : Node) : SnapshotEntry :=
  { id := n.id, signed := n.signed, kind := n.kind, ticked := n.ticked, closed := n.closed,
    branchClosed := n.branchClosed, contradictory := n.contradictory, origin := n.origin, instances := n.instances }

def Tableau.snapshot (t : Tableau) : Snapshot :=
  t.tree.map Node.snapshot

end Tableaux
