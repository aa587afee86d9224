/-!
The text of TOML strings. Of several ways to write a string the plainest that can hold it is taken: in double quotes
without escapes but for tabs, in single quotes, then both of these over several lines, and last with escapes.
-/

namespace Tableaux.Toml

/-- A control character other than a tab or a line break. -/
def isControl (c : Char) : Bool :=
  (c.toNat < 0x20 && c != '\t' && c != '\n') || c.toNat == 0x7F

/-- Whether a run of three of the given characters occurs. -/
def hasTriple (quote : Char) : List Char → Bool
  | a :: b :: c :: s => (a == quote && b == quote && c == quote) || hasTriple quote (b :: c :: s)
  | _ => false

/-- A hexadecimal digit in upper case. -/
def upperHex (n : Nat) : Char :=
  (Nat.digitChar n).toUpper

/-- The escape of a character that cannot stand for itself between double quotes, other than a quote or a line
break. -/
def escape? (c : Char) : Option (List Char) :=
  if c = '\\' then some ['\\', '\\']
  else if c = '\t' then some ['\\', 't']
  else if c = '\x08' then some ['\\', 'b']
  else if c = '\x0c' then some ['\\', 'f']
  else if c = '\r' then some ['\\', 'r']
  else if isControl c then some ['\\', 'u', '0', '0', upperHex (c.toNat / 16), upperHex (c.toNat % 16)]
  else none

/-- The text between double quotes on one line. -/
def escapeLine : List Char → List Char
  | [] => []
  | c :: s =>
      (if c = '"' then ['\\', '"'] else if c = '\n' then ['\\', 'n'] else (escape? c).getD [c]) ++ escapeLine s

/-- The text between triple double quotes; of a run of quotes each third is escaped. `run` counts the quotes written
just before. -/
def escapeLines : (run : Nat) → List Char → List Char
  | _, [] => []
  | run, c :: s =>
      if c = '"' then
        if run = 2 then '\\' :: '"' :: escapeLines 0 s else '"' :: escapeLines (run + 1) s
      else (escape? c).getD [c] ++ escapeLines 0 s

/-- A line break at the start of a text of several lines. -/
def lead (s : List Char) : List Char :=
  if s.contains '\n' then ['\n'] else []

/-- The text of a string with its quotes. -/
def quote (s : List Char) : List Char :=
  let control := s.any isControl
  let escape := s.contains '\\'
  let lines := s.contains '\n'
  if !control && !escape && !lines && !s.contains '"' then '"' :: (escapeLine s ++ ['"'])
  else if !control && !lines && !s.contains '\x27' then '\x27' :: (s ++ ['\x27'])
  else if !control && !escape && !hasTriple '"' s then
    ['"', '"', '"'] ++ lead s ++ escapeLines 0 s ++ ['"', '"', '"']
  else if !control && !hasTriple '\x27' s then
    ['\x27', '\x27', '\x27'] ++ lead s ++ s ++ ['\x27', '\x27', '\x27']
  else if lines then ['"', '"', '"'] ++ lead s ++ escapeLines 0 s ++ ['"', '"', '"']
  else '"' :: (escapeLine s ++ ['"'])

end Tableaux.Toml
