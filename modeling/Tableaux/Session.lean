import Tableaux.Search

/-!
Sessions: a tableau is changed only by the steps listed here, each with its own answer. A refused step leaves the
tableau as it was.
-/

namespace Tableaux

/-- A step that may change a tableau. -/
inductive Step where
  | assume (s : Signed)
  | develop (id : Nat) (term : Option Term)
  | remove (id : Nat)
  | checkClosed (id : Nat)
  | defer (id : Nat)
  | search (limits : Limits)
deriving DecidableEq

/-- The answer to a step. -/
inductive Answer where
  | added (id : Nat)
  | developed (done : Bool)
  | removed (done : Bool)
  | closed (branches : Nat)
  | deferred
  | verdict (v : Verdict)
deriving DecidableEq

/-- Takes a step. -/
def Tableau.perform (t : Tableau) : Step → Except Refusal Answer × Tableau
  | .assume s => let (answer, t) := t.assume s
      (answer.map .added, t)
  | .develop id term => let (answer, t) := t.develop id term
      (answer.map .developed, t)
  | .remove id => let (answer, t) := t.remove id
      (answer.map .removed, t)
  | .checkClosed id => let (answer, t) := t.checkClosed id
      (answer.map .closed, t)
  | .defer id => let (answer, t) := t.defer id
      (answer.map fun _ => .deferred, t)
  | .search limits => let (answer, t) := t.search limits
      (answer.map .verdict, t)

end Tableaux
