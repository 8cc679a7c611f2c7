import LayoutMarkup.Schema.Layout
import LayoutMarkup.Toml.Parse

/-!
# Configuration

A workspace is configured by a TOML text with two sections, `index` and `builder`, and the name of
the root type. Everything may be missing, and keys that mean nothing are passed over.
-/

namespace LayoutMarkup

/-- The settings of a workspace. -/
structure Config where
  /-- How many names are tried for a declaration without one. -/
  nameLimit : Nat := 50
  /-- The deepest level that a hierarchy is expanded to. -/
  maxDepth : Nat := 64
  /-- The name of the type that the top of a document has. -/
  rootType : String := Schema.Layout.fileTypeName
  deriving DecidableEq, Repr

namespace Config

/-- What makes settings useless. -/
inductive Violation where
  /-- No name is tried. -/
  | nameLimit
  /-- No level is expanded. -/
  | maxDepth
  /-- The root type has no name. -/
  | rootType
  deriving DecidableEq, Repr

/-- The wording of a violation. -/
def Violation.message : Violation → String
  | nameLimit => "index.anonymous_name_limit must be at least 1"
  | maxDepth => "builder.max_depth must be at least 1"
  | rootType => "root_type must not be empty"

/-- Why there is no configuration. -/
inductive Error where
  /-- The text is not TOML, or a setting has a value of the wrong kind. -/
  | parse
  /-- There is no file at the path. -/
  | missingFile (path : String)
  /-- The file at the path has no text. -/
  | unreadable (path : String)
  /-- The settings are useless. -/
  | invalid (why : Violation)
  deriving DecidableEq, Repr

/-- The wording of an error. -/
def Error.message : Error → String
  | parse => "Failed to parse TOML configuration"
  | missingFile path => s!"Missing configuration file: {path}"
  | unreadable path => s!"Failed to read configuration file {path}"
  | invalid why => s!"Validation error: {why.message}"

/-- The first violation: of the name limit, of the depth, then of the root type. -/
def violation? (c : Config) : Option Violation :=
  if c.nameLimit = 0 then some .nameLimit
  else if c.maxDepth = 0 then some .maxDepth
  else if c.rootType = "" then some .rootType
  else none

/-- A count is a whole number that fits 64 bits without a sign. -/
def count? : Toml.Value → Option Nat
  | .integer number =>
    if 0 ≤ number ∧ number < (Nat.pow 2 64 : Int) then some number.toNat else none
  | _ => none

/-- Reads the only setting of a section, or its standard value. A section can also be written as an
array, with the setting as first item; nothing is asked of the others. A date is a section without
settings. -/
def section? (key : String) (standard : Nat) : Option Toml.Value → Option Nat
  | none | some (.datetime _) | some (.array []) => some standard
  | some (.array (first :: _)) => count? first
  | some (.table _ entries) => do
    guard (Toml.entriesHeld entries)
    match entries.lookup key with
    | some value => count? value
    | none => return standard
  | some _ => none

/-- Reads the root type, or its standard value. -/
def rootType? (standard : String) : Option Toml.Value → Option String
  | none => some standard
  | some (.string name) => some name
  | some _ => none

/-- Reads the settings from the entries of a TOML text. -/
def ofEntries? (entries : Toml.Entries) : Option Config := do
  let standard : Config := {}
  -- Of the values under other keys it is only asked that their numbers can be held.
  guard (Toml.entriesHeld (entries.filter fun (key, _) => key ∉ ["index", "builder", "root_type"]))
  return {
    nameLimit := ← section? "anonymous_name_limit" standard.nameLimit (entries.lookup "index")
    maxDepth := ← section? "max_depth" standard.maxDepth (entries.lookup "builder")
    rootType := ← rootType? standard.rootType (entries.lookup "root_type") }

/-- Reads a configuration from a TOML text. -/
def parse (text : String) : Except Error Config :=
  match (Toml.parse? text).bind ofEntries? with
  | none => .error .parse
  | some config =>
    match config.violation? with
    | some why => .error (.invalid why)
    | none => .ok config

end Config

end LayoutMarkup
