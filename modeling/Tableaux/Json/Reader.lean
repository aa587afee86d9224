/-!
The lexical part of reading JSON text. A reader takes the text that is left and gives a value and the text that is
left after it. The first trouble met ends the reading; it is told apart as malformed text, text that ends too early
and a value that does not suit what is wanted, and it keeps the text left where it was met, which tells the line.
Values that nobody asked for are passed over with looser rules and without a limit on nesting.
-/

namespace Tableaux.Json

/-- What went wrong while reading. -/
inductive Trouble where
  | malformed
  | truncated
  | unsuitable
deriving DecidableEq

/-- A trouble and the text left where it was met. -/
structure ReadError where
  trouble : Trouble
  rest : List Char
deriving DecidableEq

/-- The line of the text, counted from one, on which the trouble was met. -/
def ReadError.line (e : ReadError) (text : List Char) : Nat :=
  1 + (text.count '\n' - e.rest.count '\n')

/-- Gives the value read and the text left after it. -/
abbrev Reader (α : Type) := List Char → Except ReadError (α × List Char)

def malformed {α : Type} (rest : List Char) : Except ReadError α :=
  .error ⟨.malformed, rest⟩

def truncated {α : Type} : Except ReadError α :=
  .error ⟨.truncated, []⟩

def unsuitable {α : Type} (rest : List Char) : Except ReadError α :=
  .error ⟨.unsuitable, rest⟩

def isBlank (c : Char) : Bool :=
  c == ' ' || c == '\n' || c == '\t' || c == '\r'

def skipBlank (s : List Char) : List Char :=
  s.dropWhile isBlank

/-- Reads the given characters one by one. -/
def expect : List Char → List Char → Except ReadError (List Char)
  | [], s => .ok s
  | _ :: _, [] => truncated
  | c :: cs, d :: s => if c = d then expect cs s else malformed s

/-! Strings. -/

/-- The value of a hexadecimal digit. -/
def hexValue? (c : Char) : Option Nat :=
  if '0' ≤ c ∧ c ≤ '9' then some (c.toNat - '0'.toNat)
  else if 'a' ≤ c ∧ c ≤ 'f' then some (c.toNat - 'a'.toNat + 10)
  else if 'A' ≤ c ∧ c ≤ 'F' then some (c.toNat - 'A'.toNat + 10)
  else none

def utf8Length (s : List Char) : Nat :=
  s.foldr (fun c n => c.utf8Size + n) 0

/-- The text without its first `n` bytes; a character cut in two is dropped. -/
def dropBytes : (n : Nat) → List Char → List Char
  | 0, s => s
  | _, [] => []
  | n + 1, c :: s => dropBytes (n + 1 - c.utf8Size) s
termination_by _ s => s.length

/-- Reads the four hexadecimal digits of an escape. -/
def readHex : Reader Nat := fun s =>
  match s with
  | a :: b :: c :: d :: rest =>
      match hexValue? a, hexValue? b, hexValue? c, hexValue? d with
      | some a, some b, some c, some d => .ok (((a * 16 + b) * 16 + c) * 16 + d, rest)
      | _, _, _, _ => malformed (dropBytes 4 s)
  | _ => if utf8Length s < 4 then truncated else malformed (dropBytes 4 s)

/-- The character of a one-letter escape. -/
def plainEscape? (c : Char) : Option Char :=
  if c = '"' then some '"'
  else if c = '\\' then some '\\'
  else if c = '/' then some '/'
  else if c = 'b' then some '\x08'
  else if c = 'f' then some '\x0c'
  else if c = 'n' then some '\n'
  else if c = 'r' then some '\r'
  else if c = 't' then some '\t'
  else none

def isHighSurrogate (n : Nat) : Bool :=
  0xD800 ≤ n && n ≤ 0xDBFF

def isLowSurrogate (n : Nat) : Bool :=
  0xDC00 ≤ n && n ≤ 0xDFFF

/-- Reads the rest of a numeric escape; two of them make up a character beyond the basic plane. -/
def readUnicodeEscape : Reader Char := fun s => do
  let (n, s) ← readHex s
  if isLowSurrogate n then malformed s
  else if isHighSurrogate n then
    match s with
    | [] => truncated
    | '\\' :: [] => truncated
    | '\\' :: 'u' :: s =>
        let (m, s) ← readHex s
        if isLowSurrogate m then .ok (Char.ofNat ((n - 0xD800) * 0x400 + (m - 0xDC00) + 0x10000), s)
        else malformed s
    | '\\' :: _ :: s => malformed s
    | _ :: s => malformed s
  else .ok (Char.ofNat n, s)

/-- Reads an escape after its backslash. -/
def readEscape : Reader Char
  | [] => truncated
  | 'u' :: s => readUnicodeEscape s
  | c :: s => match plainEscape? c with
      | some d => .ok (d, s)
      | none => malformed s

/-- Reads a string after its opening quote, given as many units of `fuel` as there are characters left. -/
def readStringWithin : (fuel : Nat) → Reader (List Char)
  | _, [] => truncated
  | 0, _ => truncated
  | fuel + 1, c :: s =>
      if c = '"' then .ok ([], s)
      else if c = '\\' then do
        let (d, s) ← readEscape s
        let (ds, s) ← readStringWithin fuel s
        .ok (d :: ds, s)
      else if c.toNat < 0x20 then malformed s
      else do
        let (ds, s) ← readStringWithin fuel s
        .ok (c :: ds, s)

/-- Reads a string after its opening quote. -/
def readString : Reader String := fun s => do
  let (cs, s) ← readStringWithin s.length s
  .ok (String.ofList cs, s)

/-! Numbers. -/

/-- The greatest number that can be read. -/
def maxNat : Nat := Nat.pow 2 64 - 1

/-- The nearest number with 53 significant binary digits, a tie going to the even one. -/
def roundTo53Bits (n : Nat) : Nat :=
  let spare := n.log2 + 1 - 53
  let unit := Nat.pow 2 spare
  let low := n % unit
  let kept := n / unit
  if 2 * low < unit || (2 * low == unit && kept % 2 == 0) || spare == 0 then kept * unit else (kept + 1) * unit

/-- Whether a significand scaled by a power of ten is too large for a double-precision number. -/
def overflows (significand : Nat) (exponent : Int) : Bool :=
  significand != 0 && 0 ≤ exponent && (308 < exponent ||
    Nat.pow 2 1024 - Nat.pow 2 970 ≤ roundTo53Bits significand * roundTo53Bits (Nat.pow 10 exponent.toNat))

/-- The significand made of digits as far as it stays within range, and how many digits are left over. -/
def accumulate (significand : Nat) : List Char → Nat × Nat
  | [] => (significand, 0)
  | d :: ds =>
      let next := significand * 10 + (d.toNat - '0'.toNat)
      if maxNat < next then (significand, ds.length + 1) else accumulate next ds

def digits (s : List Char) : List Char × List Char :=
  s.span Char.isDigit

/-- Reads an exponent after its letter, for a significand scaled by `scale`. -/
def readExponent (significand : Nat) (scale : Int) (s : List Char) : Except ReadError (List Char) :=
  let (negative, s) := match s with
    | '+' :: s => (false, s)
    | '-' :: s => (true, s)
    | s => (false, s)
  match s with
  | [] => truncated
  | c :: t =>
      if c.isDigit then
        let (ds, rest) := digits s
        let exponent : Int := Nat.ofDigitChars 10 ds 0
        if overflows significand (if negative then scale - exponent else scale + exponent) then malformed rest
        else .ok rest
      else malformed t

/-- Reads a fraction after its point, for a significand scaled by `scale`. -/
def readFraction (significand : Nat) (scale : Int) (s : List Char) : Except ReadError (List Char) :=
  match digits s with
  | ([], []) => truncated
  | ([], _ :: s) => malformed s
  | (ds, s) =>
      let (significand, spare) := accumulate significand ds
      let scale := scale - (ds.length - spare)
      match s with
      | 'e' :: s => readExponent significand scale s
      | 'E' :: s => readExponent significand scale s
      | s => if overflows significand scale then malformed s else .ok s

/-- Reads a number without its sign. The value is missing if the number has a fraction or an exponent or is beyond
the range. -/
def readUnsigned : Reader (Option Nat)
  | [] => truncated
  | c :: s =>
      if !c.isDigit then malformed s
      else
        let (ds, rest) := digits (c :: s)
        if c = '0' && 1 < ds.length then malformed s
        else
          let (significand, spare) := accumulate 0 ds
          match rest with
          | '.' :: rest => (readFraction significand spare rest).map fun rest => (none, rest)
          | 'e' :: rest => (readExponent significand spare rest).map fun rest => (none, rest)
          | 'E' :: rest => (readExponent significand spare rest).map fun rest => (none, rest)
          | rest =>
              if spare = 0 then .ok (some significand, rest)
              else if overflows significand spare then malformed rest
              else .ok (none, rest)

/-! Values that do not suit. -/

/-- Reads a value that does not suit: its own trouble comes first. The text must not start with a blank. -/
def refuse {α : Type} : Reader α
  | [] => truncated
  | c :: s =>
      if c = 'n' then do unsuitable (← expect ['u', 'l', 'l'] s)
      else if c = 't' then do unsuitable (← expect ['r', 'u', 'e'] s)
      else if c = 'f' then do unsuitable (← expect ['a', 'l', 's', 'e'] s)
      else if c = '-' then do unsuitable (← readUnsigned s).2
      else if c.isDigit then do unsuitable (← readUnsigned (c :: s)).2
      else if c = '"' then do unsuitable (← readString s).2
      else if c = '[' || c = '\x7b' then unsuitable (c :: s)
      else malformed s

/-! Values passed over. -/

/-- Passes over a string after its opening quote, given as many units of `fuel` as there are characters left. -/
def skipStringWithin : (fuel : Nat) → List Char → Except ReadError (List Char)
  | _, [] => truncated
  | 0, _ => truncated
  | fuel + 1, c :: s =>
      if c = '"' then .ok s
      else if c = '\\' then
        match s with
        | [] => truncated
        | 'u' :: s => do skipStringWithin fuel (← readHex s).2
        | d :: s => if (plainEscape? d).isSome then skipStringWithin fuel s else malformed s
      else if c.toNat < 0x20 then malformed (c :: s)
      else skipStringWithin fuel s

def skipString (s : List Char) : Except ReadError (List Char) :=
  skipStringWithin s.length s

/-- Passes over an exponent after its letter. -/
def skipExponent (s : List Char) : Except ReadError (List Char) :=
  let s := match s with
    | '+' :: s => s
    | '-' :: s => s
    | s => s
  match digits s with
  | ([], s) => malformed s.tail
  | (_, s) => .ok s

/-- Passes over a number without its sign. -/
def skipUnsigned : List Char → Except ReadError (List Char)
  | [] => malformed []
  | c :: s =>
      if !c.isDigit then malformed s
      else
        let (ds, rest) := digits (c :: s)
        if c = '0' && 1 < ds.length then malformed s
        else match rest with
          | '.' :: rest => match digits rest with
              | ([], rest) => malformed rest.tail
              | (_, 'e' :: rest) => skipExponent rest
              | (_, 'E' :: rest) => skipExponent rest
              | (_, rest) => .ok rest
          | 'e' :: rest => skipExponent rest
          | 'E' :: rest => skipExponent rest
          | rest => .ok rest

/-- An array or object that is being passed over. -/
inductive Frame where
  | arr
  | obj
deriving DecidableEq

/-- Passes over the key of a member of an object and its colon. -/
def skipKey (s : List Char) : Except ReadError (List Char) :=
  match skipBlank s with
  | [] => truncated
  | '"' :: s => do
      match skipBlank (← skipString s) with
      | [] => truncated
      | ':' :: s => .ok s
      | _ :: s => malformed s
  | _ :: s => malformed s

/-- Passes over what comes before the next value in a frame: nothing in an array, a key in an object. -/
def skipLead : Frame → List Char → Except ReadError (List Char)
  | .arr, s => .ok s
  | .obj, s => skipKey s

mutual

/-- Passes over a value inside the given frames, innermost first, and over what follows it up to their end. -/
def skipWithin : (fuel : Nat) → List Frame → List Char → Except ReadError (List Char)
  | 0, _, _ => truncated
  | fuel + 1, frames, s =>
      match skipBlank s with
      | [] => truncated
      | 'n' :: s => do skipAfter fuel frames (← expect ['u', 'l', 'l'] s)
      | 't' :: s => do skipAfter fuel frames (← expect ['r', 'u', 'e'] s)
      | 'f' :: s => do skipAfter fuel frames (← expect ['a', 'l', 's', 'e'] s)
      | '-' :: s => do skipAfter fuel frames (← skipUnsigned s)
      | '"' :: s => do skipAfter fuel frames (← skipString s)
      | '[' :: s => skipOpened fuel .arr frames s
      | '\x7b' :: s => skipOpened fuel .obj frames s
      | c :: s => if c.isDigit then do skipAfter fuel frames (← skipUnsigned (c :: s)) else malformed s

/-- Passes over the rest of a frame that has just been opened. -/
def skipOpened : (fuel : Nat) → Frame → List Frame → List Char → Except ReadError (List Char)
  | 0, _, _, _ => truncated
  | fuel + 1, frame, frames, s =>
      match frame, skipBlank s with
      | _, [] => truncated
      | .arr, ']' :: s => skipAfter fuel frames s
      | .obj, '\x7d' :: s => skipAfter fuel frames s
      | _, s => do skipWithin fuel (frame :: frames) (← skipLead frame s)

/-- Passes over the rest of the frames after a value. -/
def skipAfter : (fuel : Nat) → List Frame → List Char → Except ReadError (List Char)
  | _, [], s => .ok s
  | 0, _, _ => truncated
  | fuel + 1, frame :: frames, s =>
      match frame, skipBlank s with
      | _, [] => truncated
      | _, ',' :: s => do skipWithin fuel (frame :: frames) (← skipLead frame s)
      | .arr, ']' :: s => skipAfter fuel frames s
      | .obj, '\x7d' :: s => skipAfter fuel frames s
      | _, _ :: s => malformed s

end

/-- Passes over a value. Each step of the passage takes a character away, and two steps go with each. -/
def skipValue (s : List Char) : Except ReadError (List Char) :=
  skipWithin (2 * s.length + 2) [] s

end Tableaux.Json
