import Tableaux.Document.Formula
import Tableaux.Tableau.Snapshot

/-!
Snapshots as JSON documents. What there is nothing to tell of is left out: the node that a premise was developed
from, the terms of a node that has none, the nodes below a leaf.
-/

namespace Tableaux

open Json

/-- The document of a node with the documents of its children. -/
def SnapshotEntry.toJson (e : SnapshotEntry) (children : List Json) : Json :=
  .obj ([("id", .nat e.id), ("formula", e.signed.formula.toJson), ("truth_value", .bool e.signed.value),
      ("node_type", .str e.kind.name), ("ticked", .bool e.ticked), ("closed", .bool e.closed),
      ("branch_closed", .bool e.branchClosed), ("contradictory", .bool e.contradictory)] ++
    ((e.origin.map fun id => ("developed_from", .nat id)).toList ++
      ((if e.instances.isEmpty then [] else [("used_terms", .arr (e.instances.map Term.toJson))]) ++
        (if children.isEmpty then [] else [("children", .arr children)]))))

namespace Snapshot

/-- The documents of the trees of a forest. -/
def forestToJson : Forest SnapshotEntry → List Json
  | .nil => []
  | .cons e below beside => e.toJson (forestToJson below) :: forestToJson beside

def toJson (s : Snapshot) : Json :=
  s.root.toJson (forestToJson s.below)

/-- A snapshot as far as it has been read. -/
structure Draft where
  id : Option Nat := none
  formula : Option Formula := none
  value : Option Bool := none
  kind : Option Kind := none
  ticked : Option Bool := none
  closed : Option Bool := none
  branchClosed : Option Bool := none
  contradictory : Option Bool := none
  origin : Option (Option Nat) := none
  instances : Option (List Term) := none
  children : Option (List Snapshot) := none

/-- The snapshot of a draft that lacks nothing. -/
def Draft.finish (d : Draft) : Option Snapshot := do
  some ⟨{ id := ← d.id, signed := ⟨← d.formula, ← d.value⟩, kind := ← d.kind, ticked := ← d.ticked,
          closed := ← d.closed, branchClosed := ← d.branchClosed, contradictory := ← d.contradictory,
          origin := d.origin.getD none, instances := d.instances.getD [] },
    .ofTrees (d.children.getD [])⟩

def read (budget : Nat) : Reader Snapshot :=
  readRecord budget (fun inner _ =>
    [.of "id" Draft.id (fun d v => { d with id := some v }) readNat,
      .of "formula" Draft.formula (fun d v => { d with formula := some v }) (Formula.read inner),
      .of "truth_value" Draft.value (fun d v => { d with value := some v }) readBool,
      .of "node_type" Draft.kind (fun d v => { d with kind := some v }) (readName inner Kind.ofName?),
      .of "ticked" Draft.ticked (fun d v => { d with ticked := some v }) readBool,
      .of "closed" Draft.closed (fun d v => { d with closed := some v }) readBool,
      .of "branch_closed" Draft.branchClosed (fun d v => { d with branchClosed := some v }) readBool,
      .of "contradictory" Draft.contradictory (fun d v => { d with contradictory := some v }) readBool,
      .of "developed_from" Draft.origin (fun d v => { d with origin := some v }) (readOption readNat),
      .of "used_terms" Draft.instances (fun d v => { d with instances := some v })
        (readList inner fun _ _ => Term.read),
      .of "children" Draft.children (fun d v => { d with children := some v })
        (readList inner fun deeper _ => read deeper)]) {} Draft.finish
termination_by budget
decreasing_by omega

/-- Reads a snapshot from the text of a document. -/
def ofText (text : String) : Except ReadError Snapshot :=
  readAll (read nestingLimit) text.toList

end Snapshot

end Tableaux
