import Tableaux.Json.Reader

/-!
Reading JSON text into values of a known form: numbers, strings, lists, records and tagged alternatives. A record is
an object, in which unknown keys are passed over, or an array of its fields in order. Readers that open a bracket
have a budget of brackets that may still be open inside; what they call for the inside gets a smaller one.
-/

namespace Tableaux.Json

variable {α σ : Type}

/-- How many brackets may be open at once. -/
def nestingLimit : Nat := 127

def readNat : Reader Nat := fun s =>
  match skipBlank s with
  | [] => truncated
  | c :: s =>
      if c.isDigit then
        match readUnsigned (c :: s) with
        | .ok (some n, s) => .ok (n, s)
        | .ok (none, s) => unsuitable s
        | .error e => .error e
      else refuse (c :: s)

def readBool : Reader Bool := fun s =>
  match skipBlank s with
  | 't' :: s => do .ok (true, ← expect ['r', 'u', 'e'] s)
  | 'f' :: s => do .ok (false, ← expect ['a', 'l', 's', 'e'] s)
  | s => refuse s

def readStr : Reader String := fun s =>
  match skipBlank s with
  | '"' :: s => readString s
  | s => refuse s

def readNull : Reader Unit := fun s =>
  match skipBlank s with
  | 'n' :: s => do .ok ((), ← expect ['u', 'l', 'l'] s)
  | s => refuse s

/-- Reads `null`, or whatever `read` reads. -/
def readOption (read : Reader α) : Reader (Option α) := fun s =>
  match skipBlank s with
  | 'n' :: s => do .ok (none, ← expect ['u', 'l', 'l'] s)
  | s => do
      let (a, s) ← read s
      .ok (some a, s)

/-- Reads the colon between a key and its value. -/
def readColon (s : List Char) : Except ReadError (List Char) :=
  match skipBlank s with
  | [] => truncated
  | ':' :: s => .ok s
  | _ :: s => malformed s

/-! Arrays. -/

/-- What comes next in an array: its end, or an item. -/
inductive Next where
  | done (rest : List Char)
  | item (rest : List Char)

/-- Reads up to the next item of an array, or through its end. -/
def nextItem (first : Bool) (s : List Char) : Except ReadError Next :=
  match skipBlank s with
  | [] => truncated
  | ']' :: s => .ok (.done s)
  | c :: s =>
      if first then .ok (.item (c :: s))
      else if c = ',' then
        match skipBlank s with
        | [] => truncated
        | ']' :: s => malformed s
        | s => .ok (.item s)
      else malformed s

/-- Reads the items of an array and its end, given more units of `fuel` than there are characters left. -/
def readItems (read : Reader α) : (fuel : Nat) → (first : Bool) → Reader (List α)
  | 0, _, _ => truncated
  | fuel + 1, first, s => do
      match ← nextItem first s with
      | .done s => .ok ([], s)
      | .item s =>
          let (a, s) ← read s
          let (as, s) ← readItems read fuel false s
          .ok (a :: as, s)

/-- Reads the end of an array that holds no more items. -/
def readEnd (s : List Char) : Except ReadError (List Char) :=
  match skipBlank s with
  | [] => truncated
  | ']' :: s => .ok s
  | ',' :: s => malformed (skipBlank s).tail
  | _ :: s => malformed s

/-- Reads an array of any length. -/
def readList (budget : Nat) (read : (inner : Nat) → inner < budget → Reader α) : Reader (List α) := fun s =>
  match skipBlank s with
  | '[' :: s => match budget with
      | 0 => malformed s
      | inner + 1 => readItems (read inner (Nat.lt_succ_self inner)) (s.length + 1) true s
  | s => refuse s

/-- Reads an item of an array of known length. -/
def readItem (read : Reader α) (first : Bool) : Reader α := fun s => do
  match ← nextItem first s with
  | .done s => unsuitable s
  | .item s => read s

/-- Reads an array of exactly two items. -/
def readPair {β : Type} (budget : Nat) (readLeft : (inner : Nat) → inner < budget → Reader α)
    (readRight : (inner : Nat) → inner < budget → Reader β) : Reader (α × β) := fun s =>
  match skipBlank s with
  | '[' :: s => match budget with
      | 0 => malformed s
      | inner + 1 => do
          let (a, s) ← readItem (readLeft inner (Nat.lt_succ_self inner)) true s
          let (b, s) ← readItem (readRight inner (Nat.lt_succ_self inner)) false s
          .ok ((a, b), ← readEnd s)
  | s => refuse s

/-! Records. -/

/-- A field of a record that is read into drafts of type `σ`. -/
structure Field (σ : Type) where
  key : String
  /-- Whether the draft has the field. -/
  isSet : σ → Bool
  /-- Reads the field's value into the draft. -/
  read : σ → Reader σ

/-- The field with the given key, found in a draft by `get` and put there by `set`. -/
def Field.of {β : Type} (key : String) (get : σ → Option β) (set : σ → β → σ) (read : Reader β) : Field σ where
  key := key
  isSet draft := (get draft).isSome
  read draft s := do
    let (value, s) ← read s
    .ok (set draft value, s)

/-- Reads the key of the next member of an object up to its colon, or through the end of the object. -/
def nextKey (first : Bool) (s : List Char) : Except ReadError (Option String × List Char) :=
  match skipBlank s with
  | [] => truncated
  | '\x7d' :: s => .ok (none, s)
  | c :: s => do
      let s ← if first then .ok (c :: s) else if c = ',' then .ok (skipBlank s) else malformed s
      match s with
      | [] => truncated
      | '"' :: s =>
          let (key, s) ← readString s
          .ok (some key, s)
      | _ :: s => malformed s

/-- Reads the members of an object and its end, given more units of `fuel` than there are characters left. -/
def readMembers (fields : List (Field σ)) : (fuel : Nat) → (first : Bool) → σ → Reader σ
  | 0, _, _, _ => truncated
  | fuel + 1, first, draft, s => do
      match ← nextKey first s with
      | (none, s) => .ok (draft, s)
      | (some key, s) =>
          match fields.find? (·.key == key) with
          | none => readMembers fields fuel false draft (← skipValue (← readColon s))
          | some field =>
              if field.isSet draft then unsuitable s
              else
                let (draft, s) ← field.read draft (← readColon s)
                readMembers fields fuel false draft s

/-- Reads the fields of a record in order from an array and the end of the array; later fields may be missing. -/
def readPositions : List (Field σ) → (first : Bool) → σ → Reader σ
  | [], _, draft, s => do .ok (draft, ← readEnd s)
  | field :: fields, first, draft, s => do
      match ← nextItem first s with
      | .done s => .ok (draft, s)
      | .item s =>
          let (draft, s) ← field.read draft s
          readPositions fields false draft s

/-- Reads a record into a draft that starts as `empty`; `finish` tells whether every field it needs is there. -/
def readRecord (budget : Nat) (fields : (inner : Nat) → inner < budget → List (Field σ)) (empty : σ)
    (finish : σ → Option α) : Reader α := fun s =>
  match skipBlank s, budget with
  | '\x7b' :: s, 0 => malformed s
  | '[' :: s, 0 => malformed s
  | '\x7b' :: s, inner + 1 => do
      let (draft, s) ← readMembers (fields inner (Nat.lt_succ_self inner)) (s.length + 1) true empty s
      match finish draft with
      | some a => .ok (a, s)
      | none => unsuitable s
  | '[' :: s, inner + 1 => do
      let (draft, s) ← readPositions (fields inner (Nat.lt_succ_self inner)) true empty s
      match finish draft with
      | some a => .ok (a, s)
      | none => unsuitable s
  | s, _ => refuse s

/-- Reads the members of an object of strings and its end, given more units of `fuel` than there are characters
left. -/
def readEntries : (fuel : Nat) → (first : Bool) → Reader (List (String × String))
  | 0, _, _ => truncated
  | fuel + 1, first, s => do
      match ← nextKey first s with
      | (none, s) => .ok ([], s)
      | (some key, s) =>
          let (value, s) ← readStr (← readColon s)
          let (entries, s) ← readEntries fuel false s
          .ok ((key, value) :: entries, s)

/-- Reads an object whose values are strings, in order of appearance. -/
def readStringMap (budget : Nat) : Reader (List (String × String)) := fun s =>
  match skipBlank s, budget with
  | '\x7b' :: s, 0 => malformed s
  | '\x7b' :: s, _ + 1 => readEntries (s.length + 1) true s
  | s, _ => refuse s

/-! Tagged alternatives. -/

/-- Reads an object with a single member, whose key selects how to read its value. A lone string `name` is read by
`plain`. Where `payload` and `plain` have nothing for a name, it does not suit. -/
def readTagged (budget : Nat) (payload : String → (inner : Nat) → inner < budget → Option (Reader α))
    (plain : String → Option α) : Reader α := fun s =>
  match skipBlank s, budget with
  | [], _ => truncated
  | '\x7b' :: s, 0 => malformed s
  | '\x7b' :: s, inner + 1 => do
      let (tag, s) ← readStr s
      match payload tag inner (Nat.lt_succ_self inner) with
      | none => unsuitable s
      | some read =>
          let (a, s) ← read (← readColon s)
          match skipBlank s with
          | [] => truncated
          | '\x7d' :: s => .ok (a, s)
          | s => malformed s
  | '"' :: s, _ => do
      let (tag, s) ← readString s
      match plain tag with
      | some a => .ok (a, s)
      | none => unsuitable s
  | _ :: s, _ => malformed s

/-- Reads one of a number of names, given as a string or as the key of an object with the value `null`. -/
def readName (budget : Nat) (ofName? : String → Option α) : Reader α :=
  readTagged budget (fun tag _ _ => (ofName? tag).map fun a s => do
    let (_, s) ← readNull s
    .ok (a, s)) ofName?

/-- Reads a whole text. -/
def readAll (read : Reader α) (s : List Char) : Except ReadError α := do
  let (a, s) ← read s
  match skipBlank s with
  | [] => .ok a
  | _ :: s => malformed s

end Tableaux.Json
