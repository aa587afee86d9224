import Tableaux.Fault.Basic
import Tableaux.Json.Structure
import Tableaux.Json.Value

/-!
Faults as JSON documents. What there is nothing to tell of is left out.
-/

namespace Tableaux

open Json

def FaultContext.toJson (c : FaultContext) : Json :=
  .obj ((if c.fields.isEmpty then []
      else [("fields", .obj (c.fields.entries.map fun entry => (entry.1, .str entry.2)))]) ++
    (if c.causes.isEmpty then [] else [("causes", .arr (c.causes.map .str))]))

/-- A context as far as it has been read. -/
structure FaultContext.Draft where
  fields : Option FieldMap := none
  causes : Option (List String) := none

def FaultContext.read (budget : Nat) : Reader FaultContext :=
  readRecord budget (fun inner _ =>
    [.of "fields" Draft.fields (fun d v => { d with fields := some v }) (fun s => do
        let (entries, s) ← readStringMap inner s
        .ok (.ofList entries, s)),
      .of "causes" Draft.causes (fun d v => { d with causes := some v }) (readList inner fun _ _ => readStr)]) {}
    fun d => some ⟨d.fields.getD .empty, d.causes.getD []⟩

namespace Fault

def toJson (f : Fault) : Json :=
  .obj ([("code", .str f.code.name), ("message", .str f.message)] ++
    ((f.context.map fun c => ("context", c.toJson)).toList ++ (f.hint.map fun h => ("hint", .str h)).toList))

/-- A fault as far as it has been read. -/
structure Draft where
  code : Option FaultCode := none
  message : Option String := none
  context : Option (Option FaultContext) := none
  hint : Option (Option String) := none

def read (budget : Nat) : Reader Fault :=
  readRecord budget (fun inner _ =>
    [.of "code" Draft.code (fun d v => { d with code := some v }) (readName inner FaultCode.ofName?),
      .of "message" Draft.message (fun d v => { d with message := some v }) readStr,
      .of "context" Draft.context (fun d v => { d with context := some v })
        (readOption (FaultContext.read inner)),
      .of "hint" Draft.hint (fun d v => { d with hint := some v }) (readOption readStr)]) {}
    fun d => do some ⟨← d.code, ← d.message, d.context.getD none, d.hint.getD none⟩

/-- Reads a fault from the text of a document. -/
def ofText (text : String) : Except ReadError Fault :=
  readAll (read nestingLimit) text.toList

end Fault

end Tableaux
