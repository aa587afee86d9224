/-!
TOML documents as tables of values. A table remembers how it came about, since that decides whether it may still be
extended: a table written in braces never, a table with a header of its own only by the lines under the header, a
table made by dotted keys only by further dotted keys, and a table that merely lies on the way to another also by a
header of its own.
-/

namespace Tableaux

/-- How a table came about. -/
inductive TableStyle where
  | inline
  | header
  | dotted
  | implied
deriving DecidableEq

/-- A value; of numbers that are no integers and of dates nothing is kept. -/
inductive Toml where
  | str (s : String)
  | int (i : Int)
  | float
  | bool (b : Bool)
  | date
  | array (items : List Toml)
  | table (style : TableStyle) (entries : List (String × Toml))
  | tables (elements : List (List (String × Toml)))

namespace Toml

abbrev Entries := List (String × Toml)

/-- Replaces what is under a key, if anything, by the result of `f`; nothing comes of it where `f` refuses. -/
def alter (key : String) (f : Option Toml → Option Toml) : Entries → Option Entries
  | [] => do some [(key, ← f none)]
  | entry :: entries =>
      if entry.1 = key then do some ((key, ← f (some entry.2)) :: entries)
      else do some (entry :: (← alter key f entries))

/-- Puts a value under a key that has none. -/
def insertNew (key : String) (value : Toml) (entries : Entries) : Option Entries :=
  alter key (fun old => if old.isSome then none else some value) entries

/-- Changes the last table of an array of tables. -/
def alterLast (f : Entries → Option Entries) : List Entries → Option (List Entries)
  | [] => none
  | [last] => do some [← f last]
  | element :: elements => do some (element :: (← alterLast f elements))

/-- Changes the table at the end of a path, starting from a table of the given style. Tables that are missing on the
way are made, and by a dotted key only tables made by dotted keys or lying on the way to others are entered. In an
array of tables the path goes on in the last. -/
def alterAt (dotted : Bool) (f : TableStyle → Entries → Option Entries) :
    (path : List String) → TableStyle → Entries → Option Entries
  | [], style, entries => f style entries
  | key :: path, _, entries => alter key (fun
      | none =>
          let style := if dotted then TableStyle.dotted else .implied
          do some (table style (← alterAt dotted f path style []))
      | some (table .inline _) => none
      | some (table style entries) =>
          if dotted && style == .header then none
          else do some (table style (← alterAt dotted f path style entries))
      | some (tables elements) => do some (tables (← alterLast (alterAt dotted f path .header) elements))
      | some _ => none) entries

/-- Enters a value under a dotted key, whose last part is given apart, into a table. -/
def assign (style : TableStyle) (path : List String) (key : String) (value : Toml) (entries : Entries) :
    Option Entries :=
  alterAt true (fun reached entries =>
    if (reached == .dotted) == path.isEmpty then none else insertNew key value entries) path style entries

/-- Gives a table a header of its own. -/
def openTable (path : List String) (key : String) (root : Entries) : Option Entries :=
  alterAt false (fun _ entries => alter key (fun
    | none => some (table .header [])
    | some (table .implied entries) => some (table .header entries)
    | some _ => none) entries) path .header root

/-- Adds an empty table to an array of tables. -/
def openElement (path : List String) (key : String) (root : Entries) : Option Entries :=
  alterAt false (fun _ entries => alter key (fun
    | none => some (tables [[]])
    | some (tables elements) => some (tables (elements ++ [[]]))
    | some _ => none) entries) path .header root

end Toml

end Tableaux
