/-!
JSON values and their text. Text is written either on one line without blanks or over several lines, with two
spaces for each level of nesting; an empty array or object is written as a pair of brackets either way. Of the
characters of a string only those that must be escaped are.
-/

namespace Tableaux

inductive Json where
  | null
  | bool (b : Bool)
  | nat (n : Nat)
  | str (s : String)
  | arr (items : List Json)
  | obj (members : List (String × Json))

namespace Json

/-- The text of a character inside a string. -/
def escape (c : Char) : List Char :=
  if c = '"' then ['\\', '"']
  else if c = '\\' then ['\\', '\\']
  else if c = '\n' then ['\\', 'n']
  else if c = '\r' then ['\\', 'r']
  else if c = '\t' then ['\\', 't']
  else if c = '\x08' then ['\\', 'b']
  else if c = '\x0c' then ['\\', 'f']
  else if c.toNat < 0x20 then
    ['\\', 'u', '0', '0', Nat.digitChar (c.toNat / 16), Nat.digitChar (c.toNat % 16)]
  else [c]

/-- The text of a string, in quotes. -/
def quote (s : String) : List Char :=
  '"' :: (s.toList.flatMap escape ++ ['"'])

/-- How text is laid out: on one line, or over several lines at a level of nesting. -/
inductive Layout where
  | compact
  | indented (level : Nat)

namespace Layout

/-- The layout one level deeper. -/
def inner : Layout → Layout
  | compact => compact
  | indented level => indented (level + 1)

/-- What starts a line. -/
def lineBreak : Layout → List Char
  | compact => []
  | indented level => '\n' :: List.replicate (2 * level) ' '

/-- What stands between a key and its value. -/
def colon : Layout → List Char
  | compact => [':']
  | indented _ => [':', ' ']

end Layout

mutual

/-- The text of a value. -/
def write (l : Layout) : Json → List Char
  | null => ['n', 'u', 'l', 'l']
  | bool true => ['t', 'r', 'u', 'e']
  | bool false => ['f', 'a', 'l', 's', 'e']
  | nat n => Nat.toDigits 10 n
  | str s => quote s
  | arr [] => ['[', ']']
  | arr (item :: items) =>
      '[' :: (l.inner.lineBreak ++ write l.inner item ++ writeItems l.inner items ++ l.lineBreak ++ [']'])
  | obj [] => ['\x7b', '\x7d']
  | obj ((key, value) :: members) =>
      '\x7b' :: (l.inner.lineBreak ++ quote key ++ l.colon ++ write l.inner value ++
        writeMembers l.inner members ++ l.lineBreak ++ ['\x7d'])

/-- The text of the items of an array after the first. -/
def writeItems (l : Layout) : List Json → List Char
  | [] => []
  | item :: items => ',' :: (l.lineBreak ++ write l item ++ writeItems l items)

/-- The text of the members of an object after the first. -/
def writeMembers (l : Layout) : List (String × Json) → List Char
  | [] => []
  | (key, value) :: members =>
      ',' :: (l.lineBreak ++ quote key ++ l.colon ++ write l value ++ writeMembers l members)

end

/-- The text on one line. -/
def compact (j : Json) : String :=
  String.ofList (j.write .compact)

/-- The text over several lines. -/
def pretty (j : Json) : String :=
  String.ofList (j.write (.indented 0))

end Json

end Tableaux
