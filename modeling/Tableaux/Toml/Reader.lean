import Tableaux.Toml.Scalar

/-!
Reading TOML text: keys, values, and the lines of a document, which are taken one after another into the table of
the document. Arrays and tables in braces may be nested, and keys have parts, only up to a limit.
-/

namespace Tableaux.Toml

/-- How many brackets may be open at once, and how many parts a key may have. -/
def nestingLimit : Nat := 79

/-! Keys. -/

def isBareKeyChar (c : Char) : Bool :=
  c.isAlphanum || c == '-' || c == '_'

/-- Reads a part of a key. -/
def readKeyPart : Reader String := fun s =>
  match s.span isBareKeyChar with
  | ([], s) => readLineString s
  | (cs, s) => some (String.ofList cs, s)

/-- Reads a key of at most `parts` parts, with blanks around each. -/
def readKeyParts : (parts : Nat) → Reader (List String × String)
  | 0, _ => none
  | parts + 1, s => do
      let (part, s) ← readKeyPart (skipBlank s)
      match skipBlank s with
      | '.' :: s => do
          let ((path, key), s) ← readKeyParts parts s
          some ((part :: path, key), s)
      | s => some (([], part), s)

/-- Reads a key: the path of its parts but the last, and the last. -/
def readKey : Reader (List String × String) :=
  readKeyParts nestingLimit

/-! Values. -/

/-- Passes over blanks, line breaks and comments; the flag tells whether a comment is being passed over. -/
def skipGap : (comment : Bool) → List Char → Option (List Char)
  | comment, [] => if comment then none else some []
  | comment, c :: s =>
      if c = '\n' then skipGap false s
      else if c = '\r' then
        match s with
        | '\n' :: s => skipGap false s
        | _ => none
      else if comment then (if isText c then skipGap true s else none)
      else if isBlank c then skipGap false s
      else if c = '#' then skipGap true s
      else some (c :: s)

/-- Reads the items of an array and its end, given more units of `fuel` than there are characters left. -/
def readItems (read : Reader Toml) : (fuel : Nat) → Reader (List Toml)
  | 0, _ => none
  | fuel + 1, s => do
      match ← skipGap false s with
      | ']' :: s => some ([], s)
      | s =>
          let (item, s) ← read s
          match ← skipGap false s with
          | ',' :: s =>
              let (items, s) ← readItems read fuel s
              some (item :: items, s)
          | ']' :: s => some ([item], s)
          | _ => none

/-- Reads the entries of a table in braces and its end, given more units of `fuel` than there are characters left. -/
def readEntries (read : Reader Toml) : (fuel : Nat) → Entries → Reader Entries
  | 0, _, _ => none
  | fuel + 1, entries, s => do
      let ((path, key), s) ← readKey s
      match s with
      | '=' :: s =>
          let (value, s) ← read (skipBlank s)
          let entries ← assign .inline path key value entries
          match skipBlank s with
          | ',' :: s => readEntries read fuel entries s
          | '\x7d' :: s => some (entries, s)
          | _ => none
      | _ => none

/-- Reads a value with at most `budget` more brackets open at once. -/
def readValue (budget : Nat) : Reader Toml := fun s =>
  match s, budget with
  | '[' :: _, 0 => none
  | '\x7b' :: _, 0 => none
  | '[' :: s, inner + 1 => do
      let (items, s) ← readItems (readValue inner) (s.length + 1) s
      some (array items, s)
  | '\x7b' :: s, inner + 1 =>
      match skipBlank s with
      | '\x7d' :: s => some (table .inline [], s)
      | s => do
          let (entries, s) ← readEntries (readValue inner) (s.length + 1) [] s
          some (table .inline entries, s)
  | '"' :: _, _ => do
      let (text, s) ← readString s
      some (str text, s)
  | '\x27' :: _, _ => do
      let (text, s) ← readString s
      some (str text, s)
  | s, _ => readWord s
termination_by budget

/-! Documents. -/

/-- Reads what may follow on a line: blanks and a comment, up to the end of the line or of the text. -/
def readLineEnd (s : List Char) : Option (List Char) :=
  let rest := match skipBlank s with
    | '#' :: s => s.dropWhile isText
    | s => s
  if rest.isEmpty then some [] else newline? rest

/-- A document as far as it has been read: its table, and the path and last part of the header in force. -/
structure Progress where
  root : Entries := []
  current : Option (List String × String) := none

namespace Progress

/-- Enters a value into the table whose header is in force. -/
def assign (p : Progress) (path : List String) (key : String) (value : Toml) : Option Progress :=
  let place (style : TableStyle) (entries : Entries) := Toml.assign style path key value entries
  match p.current with
  | none => do some { p with root := ← place .header p.root }
  | some (header, last) => do some { p with root := ← alterAt false place (header ++ [last]) .header p.root }

/-- Takes a line that is not empty, up to what may follow on it. -/
def readLine (p : Progress) : Reader Progress
  | '[' :: '[' :: s => do
      let ((path, key), s) ← readKey s
      match s with
      | ']' :: ']' :: s => some (⟨← openElement path key p.root, some (path, key)⟩, s)
      | _ => none
  | '[' :: s => do
      let ((path, key), s) ← readKey s
      match s with
      | ']' :: s => some (⟨← openTable path key p.root, some (path, key)⟩, s)
      | _ => none
  | s => do
      let ((path, key), s) ← readKey s
      match s with
      | '=' :: s =>
          let (value, s) ← readValue nestingLimit (skipBlank s)
          some (← p.assign path key value, s)
      | _ => none

/-- Takes the lines of a text, given more units of `fuel` than there are characters left. -/
def readLines : (fuel : Nat) → Progress → List Char → Option Progress
  | 0, _, _ => none
  | fuel + 1, p, s =>
      match skipBlank s with
      | [] => some p
      | c :: s =>
          if c = '#' || c = '\n' || c = '\r' then do readLines fuel p (← readLineEnd (c :: s))
          else do
            let (p, s) ← p.readLine (c :: s)
            readLines fuel p (← readLineEnd s)

end Progress

/-- The table of a document; a byte order mark in front of the text is ignored. -/
def ofText (text : String) : Option Entries :=
  let s := match text.toList with
    | '\ufeff' :: s => s
    | s => s
  (Progress.readLines (s.length + 1) {} s).map Progress.root

end Tableaux.Toml
