/-!
# TOML values

The values of a TOML text, with the way in which each table came about: what may be added to a table
later depends on it.
-/

namespace LayoutMarkup.Toml

/-- How a table came about. -/
inductive Form where
  /-- As a part of the path in a header. -/
  | implied
  /-- As a part of a dotted key. -/
  | dotted
  /-- By a header of its own. -/
  | explicit
  /-- In braces; nothing can be added to it. -/
  | inline
  deriving DecidableEq, Repr

/-- A TOML value. Floating-point numbers and dates are kept as written. -/
inductive Value where
  /-- A text. -/
  | string (text : String)
  /-- A whole number. -/
  | integer (number : Int)
  /-- A floating-point number. -/
  | float (written : String)
  /-- A word with the outline of a number that cannot be held: it is too large, or it is not made of
  digits of its base. -/
  | unheld (written : String)
  /-- A truth value. -/
  | boolean (truth : Bool)
  /-- A date, a time, or both. -/
  | datetime (written : String)
  /-- Values in brackets. -/
  | array (items : List Value)
  /-- A table. -/
  | table (form : Form) (entries : List (String × Value))
  /-- Tables that share a header in double brackets. -/
  | tables (items : List (List (String × Value)))
  deriving Repr

/-- The entries of a table in order. -/
abbrev Entries := List (String × Value)

mutual

/-- Whether all numbers in a value can be held. -/
def Value.isHeld : Value → Bool
  | .unheld _ => false
  | .array items => allHeld items
  | .table _ entries => entriesHeld entries
  | .tables items => tablesHeld items
  | .string _ | .integer _ | .float _ | .boolean _ | .datetime _ => true

/-- Whether all numbers in a list of values can be held. -/
def allHeld : List Value → Bool
  | [] => true
  | value :: values => value.isHeld && allHeld values

/-- Whether all numbers in a table can be held. -/
def entriesHeld : List (String × Value) → Bool
  | [] => true
  | (_, value) :: entries => value.isHeld && entriesHeld entries

/-- Whether all numbers in a list of tables can be held. -/
def tablesHeld : List (List (String × Value)) → Bool
  | [] => true
  | entries :: tables => entriesHeld entries && tablesHeld tables

end

namespace Entries

/-- Puts a value in place of the one under a key. -/
def replace (entries : Entries) (key : String) (value : Value) : Entries :=
  entries.map fun e => if e.1 = key then (key, value) else e

/-- Adds a value under a new key. -/
def add? (entries : Entries) (key : String) (value : Value) : Option Entries :=
  if (entries.lookup key).isSome then none else some (entries ++ [(key, value)])

/-- Changes the table at the end of a path. Tables on the way that are missing are made; an inline
table is closed to all changes, and a table with a header of its own is closed to dotted keys. A
table that only headers implied counts as made by dotted keys once one of them leads through it. Of
tables that share a header the last one is meant. -/
def changeAt? (dotted : Bool) (change : Form → Entries → Option Entries) :
    (path : List String) → Form → Entries → Option Entries
  | [], form, entries => change form entries
  | key :: path, _, entries =>
    match entries.lookup key with
    | none => do
      let form := if dotted then Form.dotted else .implied
      let inner ← changeAt? dotted change path form []
      return entries ++ [(key, .table form inner)]
    | some (.table form inner) => do
      guard (form ≠ .inline ∧ ¬ (dotted ∧ form = .explicit))
      let form := if dotted then Form.dotted else form
      return entries.replace key (.table form (← changeAt? dotted change path form inner))
    | some (.tables items) => do
      -- The tables of a shared header are open as long as no further one follows.
      let last ← changeAt? dotted change path .explicit (← items.getLast?)
      return entries.replace key (.tables (items.dropLast ++ [last]))
    | some _ => none

/-- Adds a value under a dotted key. The table that gets it must have come about by dotted keys
too, unless the key has no dots. -/
def addDotted? (entries : Entries) (path : List String) (key : String) (value : Value) :
    Option Entries :=
  entries.changeAt? true (fun form inner => do
    guard (path.isEmpty ∨ form = .dotted)
    inner.add? key value) path .explicit

/-- Opens the table of a header. A table can have one header of its own. -/
def openTable? (entries : Entries) (path : List String) : Option Entries := do
  let key ← path.getLast?
  entries.changeAt? false (fun _ inner =>
    match inner.lookup key with
    | none => some (inner ++ [(key, .table .explicit [])])
    | some (.table .implied below) => some (inner.replace key (.table .explicit below))
    | some _ => none) path.dropLast .explicit

/-- Opens one more table of a header in double brackets. -/
def openNext? (entries : Entries) (path : List String) : Option Entries := do
  let key ← path.getLast?
  entries.changeAt? false (fun _ inner =>
    match inner.lookup key with
    | none => some (inner ++ [(key, .tables [[]])])
    | some (.tables items) => some (inner.replace key (.tables (items ++ [[]])))
    | some _ => none) path.dropLast .explicit

end Entries

end LayoutMarkup.Toml
