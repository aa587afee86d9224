import Tableaux.Document.Formula
import Tableaux.Problem

/-!
Problems as JSON documents. A premise without a value is assumed true; premises and conclusion may be left out.
-/

namespace Tableaux

open Json

/-- A premise of a problem document. -/
def Signed.toJson (s : Signed) : Json :=
  .obj [("formula", s.formula.toJson), ("value", .bool s.value)]

def Problem.toJson (p : Problem) : Json :=
  .obj (("premises", .arr (p.premises.map Signed.toJson)) ::
    (p.conclusion.map fun f => ("conclusion", f.toJson)).toList)

/-- A premise as far as it has been read. -/
structure Signed.Draft where
  formula : Option Formula := none
  value : Option Bool := none

def Signed.read (budget : Nat) : Reader Signed :=
  readRecord budget (fun inner _ =>
    [.of "formula" Draft.formula (fun d v => { d with formula := some v }) (Formula.read inner),
      .of "value" Draft.value (fun d v => { d with value := some v }) readBool]) {}
    fun d => do some ⟨← d.formula, d.value.getD true⟩

namespace Problem

/-- A problem as far as it has been read. -/
structure Draft where
  premises : Option (List Signed) := none
  conclusion : Option (Option Formula) := none

def read (budget : Nat) : Reader Problem :=
  readRecord budget (fun inner _ =>
    [.of "premises" Draft.premises (fun d v => { d with premises := some v })
        (readList inner fun deeper _ => Signed.read deeper),
      .of "conclusion" Draft.conclusion (fun d v => { d with conclusion := some v })
        (readOption (Formula.read inner))]) {}
    fun d => some ⟨d.premises.getD [], d.conclusion.getD none⟩

/-- Reads a problem from the text of a document, without a look at whether it is valid. -/
def ofRawText (text : String) : Except ReadError Problem :=
  readAll (read nestingLimit) text.toList

/-- Reads a valid problem from the text of a document; `tell` gives the library's account of a trouble with the text,
where it is known. -/
def ofText (text : String) (tell : ReadError → Option Account := fun _ => none) : Except Obstacle Problem :=
  if text.toList.all Text.isBlank then .error .emptyText
  else match ofRawText text with
    | .error e => .error (.unreadable e.trouble (e.line text.toList) (tell e))
    | .ok p => match p.validate with
        | .error obstacle => .error obstacle
        | .ok () => .ok p

end Problem

end Tableaux
