import LayoutMarkup.Diagnostic.Code
import LayoutMarkup.Text.Span

/-!
# Diagnostics

A diagnostic is a remark on a span of a text. Problems in a text never stop its reading: each one
becomes a diagnostic, and a log keeps them in the order in which they were found.
-/

namespace LayoutMarkup

/-- How grave a diagnostic is. -/
inductive Severity where
  /-- The markup is invalid as written. -/
  | error
  /-- The markup is suspicious and still has a meaning. -/
  | warning
  /-- A remark, mostly on content outside the schema. -/
  | message
  deriving DecidableEq, Repr

/-- The severity as it is shown. -/
def Severity.label : Severity → String
  | error => "error"
  | warning => "warning"
  | message => "message"

/-- A remark on a span of a text. -/
structure Diagnostic where
  /-- How grave it is. -/
  severity : Severity
  /-- The rule it reports, if it has a code. -/
  code : Option Code
  /-- The remark. -/
  message : String
  /-- The part of the text it is about. -/
  span : Span
  /-- Advice on what to do. -/
  help : Option String
  deriving DecidableEq, Repr

/-- The diagnostic on one line: severity, code and remark. -/
def Diagnostic.render (d : Diagnostic) : String :=
  match d.code with
  | some code => s!"{d.severity.label}[{code.label}]: {d.message}"
  | none => s!"{d.severity.label}: {d.message}"

/-- Diagnostics in the order in which they were found. -/
structure Log where
  /-- The diagnostics, first found first. -/
  diagnostics : Array Diagnostic := #[]
  deriving DecidableEq, Repr, Inhabited

namespace Log

/-- Adds one diagnostic. -/
def add (log : Log) (d : Diagnostic) : Log :=
  ⟨log.diagnostics.push d⟩

/-- Adds several diagnostics in order. -/
def addAll (log : Log) (ds : List Diagnostic) : Log :=
  ds.foldl add log

/-- The number of diagnostics. -/
def size (log : Log) : Nat :=
  log.diagnostics.size

/-- Whether one of the diagnostics is an error. -/
def hasErrors (log : Log) : Bool :=
  log.diagnostics.any (·.severity == .error)

/-- The diagnostics as a list. -/
def toList (log : Log) : List Diagnostic :=
  log.diagnostics.toList

end Log

end LayoutMarkup
