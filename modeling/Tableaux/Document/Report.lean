import Tableaux.Document.Snapshot
import Tableaux.Search

/-!
The outcome of a search as a JSON document or as a line of text.
-/

namespace Tableaux

def Verdict.toJson : Verdict → Json
  | closed steps nodes => .obj [("status", .str "closed"), ("steps", .nat steps), ("nodes", .nat nodes)]
  | saturated steps openBranches =>
      .obj [("status", .str "open"), ("steps", .nat steps), ("open_branches", .nat openBranches)]
  | unknown steps reason =>
      .obj [("status", .str "unknown"), ("steps", .nat steps), ("reason", .str reason.text)]

/-- A verdict on one line, with the number of nodes of the tableau. -/
def Verdict.summary (v : Verdict) (nodes : Nat) : String :=
  match v with
  | closed steps _ => s!"closed: every branch closed after {steps} steps ({nodes} nodes)"
  | saturated steps openBranches =>
      s!"open: {openBranches} open branch(es) after {steps} steps ({nodes} nodes)"
  | unknown steps reason =>
      "unknown: " ++ reason.text ++ s!" after {steps} steps ({nodes} nodes)"

/-- The verdict with the tableau that it was reached on. -/
def Tableau.report (t : Tableau) (v : Verdict) : Json :=
  .obj [("result", v.toJson), ("nodes", .nat t.nodeCount), ("open_branches", .nat t.openBranches),
    ("terms", .arr (t.terms.map Term.toJson)), ("tree", t.snapshot.toJson)]

end Tableaux
