import LayoutMarkup.Diagnostic.Cause
import LayoutMarkup.Selector.Basic
import LayoutMarkup.Text.Blank
import LayoutMarkup.Text.Name
import LayoutMarkup.Text.Numeral

/-!
# Reading selectors

No fragment can hold a slash, so a selector is cut at its slashes and each piece is read on its own.
The selector is accepted if every piece is a fragment to its end. Otherwise the diagnostic begins
where the accepted part ends: inside the first piece that is not a whole fragment, or before its
slash if the piece does not even begin with a fragment.
-/

namespace LayoutMarkup.Selector

/-- Whether a character may stand in the name of a child. -/
def isChildChar (c : Char) : Bool :=
  !(Text.isBlank c || c == '/' || c == '$' || c == '[' || c == ']')

/-- Whether a character may stand in the name of a handle. -/
def isHandleChar (c : Char) : Bool :=
  Text.isLetterOrNumeral c || c == '_'

/-- Whether a character may stand in the value of a predicate. -/
def isPredicateChar (c : Char) : Bool :=
  c != ']' && c != '/'

/-- The number that decimal digits write. -/
def ofDigits (digits : List Char) : Nat :=
  digits.foldl (fun value c => 10 * value + (c.toNat - '0'.toNat)) 0

/-- The largest distance of a sibling. -/
def maxOffset : Nat := 2147483647

/-- Reads a sign and digits that write a distance. -/
def readOffset? (cs : List Char) : Option (Int × List Char) :=
  match cs with
  | sign :: rest =>
    let digits := rest.takeWhile Char.isDigit
    if (sign == '+' || sign == '-') && !digits.isEmpty && ofDigits digits ≤ maxOffset then
      some (if sign == '-' then -(ofDigits digits : Int) else ofDigits digits,
        rest.dropWhile Char.isDigit)
    else
      none
  | [] => none

/-- Drops a literal from the front of the text. -/
def dropLiteral? (literal : String) (cs : List Char) : Option (List Char) :=
  if literal.toList.isPrefixOf cs then some (cs.drop literal.toList.length) else none

/-- Reads `@key=value]` of a predicate, from behind the bracket. -/
def readPredicateAs? (key : String) (make : String → Predicate) (cs : List Char) :
    Option (Predicate × List Char) := do
  let rest ← dropLiteral? s!"@{key}=" cs
  let value := rest.takeWhile isPredicateChar
  match value, rest.dropWhile isPredicateChar with
  | _ :: _, ']' :: rest => some (make (String.ofList (Text.trim value)), rest)
  | _, _ => none

/-- Reads a predicate in brackets. -/
def readPredicate? (cs : List Char) : Option (Predicate × List Char) := do
  let rest ← dropLiteral? "[" cs
  readPredicateAs? "name" .name rest <|> readPredicateAs? "type" .type rest <|>
    readPredicateAs? "oftype" .ofType rest

/-- What a handle of a name means, and what is left of the text behind the name. -/
def readHandle (name : String) (cs : List Char) : Fragment × List Char :=
  match name with
  | "this" => (.this, cs)
  | "parent" => (.parent, cs)
  | "root" => (.root, cs)
  | "layer" => (.layer, cs)
  | "sibling" =>
    match readOffset? cs with
    | some (offset, rest) => (.sibling offset, rest)
    | none => (.sibling 0, cs)
  | "ancestor" =>
    match readPredicate? cs with
    | some (predicate, rest) => (.ancestor (some predicate), rest)
    | none => (.ancestor none, cs)
  | handle => (.custom handle, cs)

/-- Reads a fragment from the front of the text. -/
def readFragment? : List Char → Option (Fragment × List Char)
  | '$' :: cs =>
    let name := cs.takeWhile isHandleChar
    if name.isEmpty then none
    else some (readHandle (String.ofList name) (cs.dropWhile isHandleChar))
  | cs =>
    let name := cs.takeWhile isChildChar
    if name.isEmpty then none
    else some (.child (String.ofList name), cs.dropWhile isChildChar)

/-- Reads the pieces of a selector from `start` on. `stop` is where the accepted part ends. The
error is the offset at which it ends for good. -/
def readPieces (stop start : Nat) : List (List Char) → Except Nat (List Fragment)
  | [] => .ok []
  | piece :: pieces =>
    let behind := start + Text.byteLength piece
    match readFragment? piece with
    -- The slash in front of the piece is not accepted either.
    | none => .error stop
    | some (fragment, []) => (readPieces behind (behind + 1) pieces).map (fragment :: ·)
    | some (_, rest) => .error (behind - Text.byteLength rest)

/-- Reads a selector. Blanks around it do not count. -/
def parse (text : String) : Except Diagnostic (List Fragment) :=
  let cs := text.toList
  let body := Text.trim cs
  let leading := Text.byteLength (cs.takeWhile Text.isBlank)
  match readPieces leading leading (Name.pieces body) with
  | .ok fragments => .ok fragments
  | .error offset =>
    .error ((Cause.invalidSelector (String.ofList body)).on ⟨offset, Text.byteLength cs⟩)

end LayoutMarkup.Selector
