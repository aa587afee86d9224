import Tableaux.Toml.Value

/-!
Strings, numbers and dates of TOML. A reader takes the text that is left and gives a value and the text left after
it, or nothing if the text is not TOML; there is nothing to tell about what was wrong.
-/

namespace Tableaux.Toml

abbrev Reader (α : Type) := List Char → Option (α × List Char)

def isBlank (c : Char) : Bool :=
  c == ' ' || c == '\t'

def skipBlank (s : List Char) : List Char :=
  s.dropWhile isBlank

/-- Whether a character may stand in a comment or, quotes and backslashes apart, in a string. -/
def isText (c : Char) : Bool :=
  c == '\t' || (0x20 ≤ c.toNat && c.toNat != 0x7F)

/-- Reads the end of a line. -/
def newline? : List Char → Option (List Char)
  | '\n' :: s => some s
  | '\r' :: '\n' :: s => some s
  | _ => none

/-! Strings. -/

def hexValue? (c : Char) : Option Nat :=
  if '0' ≤ c ∧ c ≤ '9' then some (c.toNat - '0'.toNat)
  else if 'a' ≤ c ∧ c ≤ 'f' then some (c.toNat - 'a'.toNat + 10)
  else if 'A' ≤ c ∧ c ≤ 'F' then some (c.toNat - 'A'.toNat + 10)
  else none

/-- Reads `count` hexadecimal digits behind the number `n`. -/
def readHex : (count n : Nat) → Reader Nat
  | 0, n, s => some (n, s)
  | _ + 1, _, [] => none
  | count + 1, n, c :: s => do readHex count (n * 16 + (← hexValue? c)) s

/-- The character with the given number, if there is one. -/
def charOf? (n : Nat) : Option Char :=
  if n.isValidChar then some (Char.ofNat n) else none

/-- Reads an escape after its backslash. -/
def readEscape : Reader Char
  | 'b' :: s => some ('\x08', s)
  | 't' :: s => some ('\t', s)
  | 'n' :: s => some ('\n', s)
  | 'f' :: s => some ('\x0c', s)
  | 'r' :: s => some ('\r', s)
  | '"' :: s => some ('"', s)
  | '\\' :: s => some ('\\', s)
  | 'u' :: s => do
      let (n, s) ← readHex 4 0 s
      some (← charOf? n, s)
  | 'U' :: s => do
      let (n, s) ← readHex 8 0 s
      some (← charOf? n, s)
  | _ => none

/-- Reads a string with escapes after its quote, given as many units of `fuel` as there are characters left. -/
def readBasicWithin : (fuel : Nat) → Reader (List Char)
  | _, [] => none
  | 0, _ => none
  | fuel + 1, c :: s =>
      if c = '"' then some ([], s)
      else if c = '\\' then do
        let (d, s) ← readEscape s
        let (ds, s) ← readBasicWithin fuel s
        some (d :: ds, s)
      else if isText c then do
        let (ds, s) ← readBasicWithin fuel s
        some (c :: ds, s)
      else none

/-- Reads a string without escapes after its quote. -/
def readLiteral : Reader (List Char)
  | [] => none
  | c :: s =>
      if c = '\x27' then some ([], s)
      else if isText c then do
        let (ds, s) ← readLiteral s
        some (c :: ds, s)
      else none

/-- Drops a line break at the start of a string of several lines. -/
def dropNewline (s : List Char) : List Char :=
  (newline? s).getD s

/-- Passes over the blanks and line breaks behind a backslash at the end of a line, the first line break included. -/
def skipLineEnd : (broken : Bool) → List Char → Option (List Char)
  | broken, c :: s =>
      if c = ' ' || c = '\t' then skipLineEnd broken s
      else if c = '\n' then skipLineEnd true s
      else if c = '\r' then
        match s with
        | '\n' :: s => skipLineEnd true s
        | _ => none
      else if broken then some (c :: s) else none
  | broken, [] => if broken then some [] else none

/-- The end of a string of several lines, if its quotes stand here: up to two more quotes belong to the string. -/
def closing? (quote : Char) (s : List Char) : Option (List Char × List Char) :=
  let run := (s.takeWhile (· == quote)).length
  if run < 3 then none
  else
    let own := min (run - 3) 2
    some (List.replicate own quote, s.drop (own + 3))

/-- Reads a string with escapes over several lines after its quotes, given as many units of `fuel` as there are
characters left. -/
def readBasicLinesWithin : (fuel : Nat) → Reader (List Char)
  | _, [] => none
  | 0, _ => none
  | fuel + 1, c :: s =>
      if c = '"' then
        match closing? '"' (c :: s) with
        | some done => some done
        | none => do
            let (ds, s) ← readBasicLinesWithin fuel s
            some (c :: ds, s)
      else if c = '\\' then
        match readEscape s with
        | some (d, s) => do
            let (ds, s) ← readBasicLinesWithin fuel s
            some (d :: ds, s)
        | none => do readBasicLinesWithin fuel (← skipLineEnd false s)
      else if isText c then do
        let (ds, s) ← readBasicLinesWithin fuel s
        some (c :: ds, s)
      else do
        let (ds, s) ← readBasicLinesWithin fuel (← newline? (c :: s))
        some ('\n' :: ds, s)

/-- Reads a string without escapes over several lines after its quotes, given as many units of `fuel` as there are
characters left. -/
def readLiteralLinesWithin : (fuel : Nat) → Reader (List Char)
  | _, [] => none
  | 0, _ => none
  | fuel + 1, c :: s =>
      if c = '\x27' then
        match closing? '\x27' (c :: s) with
        | some done => some done
        | none => do
            let (ds, s) ← readLiteralLinesWithin fuel s
            some (c :: ds, s)
      else if isText c then do
        let (ds, s) ← readLiteralLinesWithin fuel s
        some (c :: ds, s)
      else do
        let (ds, s) ← readLiteralLinesWithin fuel (← newline? (c :: s))
        some ('\n' :: ds, s)

/-- Reads a string on one line. -/
def readLineString : Reader String
  | '"' :: s => do
      let (cs, s) ← readBasicWithin s.length s
      some (String.ofList cs, s)
  | '\x27' :: s => do
      let (cs, s) ← readLiteral s
      some (String.ofList cs, s)
  | _ => none

/-- Reads a string of any form. -/
def readString : Reader String
  | '"' :: '"' :: '"' :: s => do
      let (cs, s) ← readBasicLinesWithin s.length (dropNewline s)
      some (String.ofList cs, s)
  | '\x27' :: '\x27' :: '\x27' :: s => do
      let (cs, s) ← readLiteralLinesWithin s.length (dropNewline s)
      some (String.ofList cs, s)
  | s => readLineString s

/-! Numbers and dates, given as a word: a run of letters, digits and the marks `+ - _ . :`. -/

def isWordChar (c : Char) : Bool :=
  c.isAlphanum || c == '+' || c == '-' || c == '_' || c == '.' || c == ':'

/-- The digits of a run in which single underscores may stand between digits. -/
def digitRun? (isDigit : Char → Bool) : List Char → Option (List Char)
  | [] => none
  | [c] => if isDigit c then some [c] else none
  | c :: '_' :: s => if isDigit c then do some (c :: (← digitRun? isDigit s)) else none
  | c :: s => if isDigit c then do some (c :: (← digitRun? isDigit s)) else none

/-- The value of digits in a base. -/
def ofDigits (base : Nat) (ds : List Char) : Nat :=
  ds.foldl (fun n c => n * base + (hexValue? c).getD 0) 0

/-- The digits of an unsigned decimal integer, which has no leading zeros. -/
def decimal? (w : List Char) : Option (List Char) := do
  let ds ← digitRun? Char.isDigit w
  if 1 < ds.length && ds.head? == some '0' then none else some ds

/-- Splits off a sign; the flag tells whether it is a minus. -/
def splitSign : List Char → Bool × List Char
  | '+' :: w => (false, w)
  | '-' :: w => (true, w)
  | w => (false, w)

/-- The value of an integer that a signed number of 64 bits can hold. -/
def integer? (w : List Char) : Option Int := do
  let i : Int ← match w with
    | '0' :: 'x' :: w => do
        let ds ← digitRun? (fun c => (hexValue? c).isSome) w
        some (ofDigits 16 ds : Int)
    | '0' :: 'o' :: w => do
        let ds ← digitRun? (fun c => '0' ≤ c && c ≤ '7') w
        some (ofDigits 8 ds : Int)
    | '0' :: 'b' :: w => do
        let ds ← digitRun? (fun c => c == '0' || c == '1') w
        some (ofDigits 2 ds : Int)
    | w =>
        let (negative, w) := splitSign w
        do
          let ds ← decimal? w
          some (if negative then -(ofDigits 10 ds : Int) else ofDigits 10 ds)
  if -Int.pow 2 63 ≤ i && i < Int.pow 2 63 then some i else none

/-- Whether a decimal number, given by its digits and a power of ten, is too large for a double-precision number. -/
def overflows (ds : List Char) (exponent : Int) : Bool :=
  let n := ofDigits 10 ds
  let magnitude : Int := (Nat.toDigits 10 n).length + exponent
  n != 0 && 300 < magnitude &&
    (310 < magnitude ||
      (if exponent < 0 then (Nat.pow 2 1024 - Nat.pow 2 970) * Nat.pow 10 exponent.natAbs ≤ n
        else Nat.pow 2 1024 - Nat.pow 2 970 ≤ n * Nat.pow 10 exponent.toNat))

/-- The exponent behind its letter. -/
def exponent? (w : List Char) : Option Int := do
  let (negative, w) := splitSign w
  let ds ← digitRun? Char.isDigit w
  some (if negative then -(ofDigits 10 ds : Int) else ofDigits 10 ds)

def isExponentMark (c : Char) : Bool :=
  c == 'e' || c == 'E'

/-- Whether a word is a number with a fraction or an exponent; a positive one must not be too large. -/
def isFloat (w : List Char) : Bool :=
  let (negative, w) := splitSign w
  let result : Option Bool := do
    if w == ['i', 'n', 'f'] || w == ['n', 'a', 'n'] then some true
    else
      let (mantissa, tail) := w.span (!isExponentMark ·)
      let (whole, fraction) := mantissa.span (· != '.')
      let ds ← decimal? whole
      let fs ← match fraction with
        | [] => some []
        | _ :: fs => digitRun? Char.isDigit fs
      let exponent : Int ← match tail with
        | [] => some 0
        | _ :: es => exponent? es
      if fraction.isEmpty && tail.isEmpty then none
      else some (negative || !overflows (ds ++ fs) (exponent - fs.length))
  result == some true

/-- The value of two digits. -/
def twoDigits? (a b : Char) : Option Nat :=
  if a.isDigit && b.isDigit then some (ofDigits 10 [a, b]) else none

def isLeapYear (year : Nat) : Bool :=
  (year % 4 == 0 && year % 100 != 0) || year % 400 == 0

def daysIn (year month : Nat) : Nat :=
  if month == 2 then (if isLeapYear year then 29 else 28)
  else if month == 4 || month == 6 || month == 9 || month == 11 then 30
  else 31

/-- What follows the date at the start of a word. -/
def afterDate? : List Char → Option (List Char)
  | a :: b :: c :: d :: '-' :: e :: f :: '-' :: g :: h :: w => do
      let year := (← twoDigits? a b) * 100 + (← twoDigits? c d)
      let month ← twoDigits? e f
      let day ← twoDigits? g h
      if 1 ≤ month && month ≤ 12 && 1 ≤ day && day ≤ daysIn year month then some w else none
  | _ => none

/-- What follows the time at the start of a word. -/
def afterTime? : List Char → Option (List Char)
  | a :: b :: ':' :: c :: d :: ':' :: e :: f :: w => do
      let hour ← twoDigits? a b
      let minute ← twoDigits? c d
      let second ← twoDigits? e f
      if hour ≤ 23 && minute ≤ 59 && second ≤ 60 then
        match w with
        | '.' :: w => match w.span Char.isDigit with
            | ([], _) => none
            | (_, w) => some w
        | w => some w
      else none
  | _ => none

/-- Whether a word is empty or the distance of a time zone. -/
def isOffset : List Char → Bool
  | [] => true
  | ['Z'] => true
  | ['z'] => true
  | [sign, a, b, ':', c, d] =>
      (sign == '+' || sign == '-') && ((twoDigits? a b).any (· ≤ 23)) && ((twoDigits? c d).any (· ≤ 59))
  | _ => false

/-- Whether a word is a time with the distance of a time zone or without. -/
def isZonedTime (w : List Char) : Bool :=
  (afterTime? w).any isOffset

/-- Whether a word is a time, a date or both. -/
def isDate (w : List Char) : Bool :=
  match afterDate? w with
  | some [] => true
  | some ('T' :: w) => isZonedTime w
  | some ('t' :: w) => isZonedTime w
  | some _ => false
  | none => afterTime? w == some []

/-- Reads the word at the start of the text. -/
def word (s : List Char) : List Char × List Char :=
  s.span isWordChar

/-- Reads a truth value, a number or a date; a space may stand between a date and a time. -/
def readWord : Reader Toml := fun s =>
  let (w, rest) := word s
  if w == ['t', 'r', 'u', 'e'] then some (bool true, rest)
  else if w == ['f', 'a', 'l', 's', 'e'] then some (bool false, rest)
  else if afterDate? w == some [] then
    match rest with
    | ' ' :: c :: s =>
        if c.isDigit then
          let (time, rest) := word (c :: s)
          if isZonedTime time then some (date, rest) else none
        else some (date, rest)
    | _ => some (date, rest)
  else if isDate w then some (date, rest)
  else if isFloat w then some (float, rest)
  else do some (int (← integer? w), rest)

end Tableaux.Toml
