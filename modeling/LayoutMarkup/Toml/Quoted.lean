/-!
# Quoted texts

The four ways in which TOML quotes a text: on one line or on several, with escapes between double
quotes and without them between single quotes.
-/

namespace LayoutMarkup.Toml

/-- Whether a character may stand in a text on one line: a tab, or no control character. -/
def isPlain (c : Char) : Bool :=
  c == '\t' || (0x20 ≤ c.toNat && c.toNat != 0x7F)

/-- The number that hexadecimal digits write. -/
def hexNumber? (digits : List Char) : Option Nat :=
  digits.foldlM (fun value c =>
    if c.isDigit then some (16 * value + (c.toNat - '0'.toNat))
    else if 'a' ≤ c.toLower ∧ c.toLower ≤ 'f' then
      some (16 * value + (c.toLower.toNat - 'a'.toNat + 10))
    else none) 0

/-- The character whose code point hexadecimal digits write. -/
def hexChar? (digits : List Char) : Option Char := do
  let code ← hexNumber? digits
  if h : code.isValidChar then return Char.ofNatAux code h else none

/-- The character that a letter behind a backslash stands for. -/
def escaped? : Char → Option Char
  | 'b' => some '\x08'
  | 't' => some '\t'
  | 'n' => some '\n'
  | 'f' => some '\x0C'
  | 'r' => some '\r'
  | 'e' => some '\x1B'
  | '"' => some '"'
  | '\\' => some '\\'
  | _ => none

/-- Puts a character in front of a text that was read. -/
def consTo (c : Option Char) (read : Option (List Char × List Char)) :
    Option (List Char × List Char) := do
  let (text, rest) ← read
  return ((← c) :: text, rest)

/-- Reads a text with escapes on one line, from behind the quote that opens it. -/
def readBasic? : List Char → Option (List Char × List Char)
  | '"' :: rest => some ([], rest)
  | '\\' :: 'x' :: a :: b :: rest => consTo (hexChar? [a, b]) (readBasic? rest)
  | '\\' :: 'u' :: a :: b :: c :: d :: rest => consTo (hexChar? [a, b, c, d]) (readBasic? rest)
  | '\\' :: 'U' :: a :: b :: c :: d :: e :: f :: g :: h :: rest =>
    consTo (hexChar? [a, b, c, d, e, f, g, h]) (readBasic? rest)
  | '\\' :: c :: rest => consTo (escaped? c) (readBasic? rest)
  | c :: rest => if isPlain c ∧ c ≠ '\\' then consTo (some c) (readBasic? rest) else none
  | [] => none

/-- Reads a text without escapes on one line, from behind the quote that opens it. -/
def readLiteral? : List Char → Option (List Char × List Char)
  | '\x27' :: rest => some ([], rest)
  | c :: rest => if isPlain c then consTo (some c) (readLiteral? rest) else none
  | [] => none

/-- What a backslash at the end of a line does to the text behind it. -/
inductive Joining where
  /-- There was none. -/
  | none
  /-- The end of its line is still to come. -/
  | expected
  /-- Blanks and ends of lines are passed over. -/
  | active
  deriving DecidableEq, Repr

/-- Reads a text with escapes on several lines, from behind the quotes that open it. Up to two
quotes may stand before the three that close it. -/
def readMultiBasic? : Joining → List Char → Option (List Char × List Char)
  | .expected, '\n' :: rest => readMultiBasic? .active rest
  | .expected, '\r' :: '\n' :: rest => readMultiBasic? .active rest
  | .expected, ' ' :: rest => readMultiBasic? .expected rest
  | .expected, '\t' :: rest => readMultiBasic? .expected rest
  | .expected, _ => none
  | .active, '\n' :: rest => readMultiBasic? .active rest
  | .active, '\r' :: '\n' :: rest => readMultiBasic? .active rest
  | .active, ' ' :: rest => readMultiBasic? .active rest
  | .active, '\t' :: rest => readMultiBasic? .active rest
  | _, '"' :: '"' :: '"' :: '"' :: '"' :: rest => some (['"', '"'], rest)
  | _, '"' :: '"' :: '"' :: '"' :: rest => some (['"'], rest)
  | _, '"' :: '"' :: '"' :: rest => some ([], rest)
  | _, '\\' :: '\n' :: rest => readMultiBasic? .active rest
  | _, '\\' :: '\r' :: '\n' :: rest => readMultiBasic? .active rest
  | _, '\\' :: ' ' :: rest => readMultiBasic? .expected rest
  | _, '\\' :: '\t' :: rest => readMultiBasic? .expected rest
  | _, '\\' :: 'x' :: a :: b :: rest => consTo (hexChar? [a, b]) (readMultiBasic? .none rest)
  | _, '\\' :: 'u' :: a :: b :: c :: d :: rest =>
    consTo (hexChar? [a, b, c, d]) (readMultiBasic? .none rest)
  | _, '\\' :: 'U' :: a :: b :: c :: d :: e :: f :: g :: h :: rest =>
    consTo (hexChar? [a, b, c, d, e, f, g, h]) (readMultiBasic? .none rest)
  | _, '\\' :: c :: rest => consTo (escaped? c) (readMultiBasic? .none rest)
  | _, '\r' :: '\n' :: rest =>
    consTo (some '\r') (consTo (some '\n') (readMultiBasic? .none rest))
  | _, c :: rest =>
    if (isPlain c ∨ c = '\n') ∧ c ≠ '\\' then consTo (some c) (readMultiBasic? .none rest)
    else none
  | _, [] => none

/-- Reads a text without escapes on several lines, from behind the quotes that open it. -/
def readMultiLiteral? : List Char → Option (List Char × List Char)
  | '\x27' :: '\x27' :: '\x27' :: '\x27' :: '\x27' :: rest => some (['\x27', '\x27'], rest)
  | '\x27' :: '\x27' :: '\x27' :: '\x27' :: rest => some (['\x27'], rest)
  | '\x27' :: '\x27' :: '\x27' :: rest => some ([], rest)
  | '\r' :: '\n' :: rest => consTo (some '\r') (consTo (some '\n') (readMultiLiteral? rest))
  | c :: rest =>
    if isPlain c ∨ c = '\n' then consTo (some c) (readMultiLiteral? rest) else none
  | [] => none

/-- Drops the end of a line that stands in front. -/
def dropNewline : List Char → List Char
  | '\n' :: rest => rest
  | '\r' :: '\n' :: rest => rest
  | cs => cs

/-- Reads a quoted text on one line. -/
def readLine? : List Char → Option (List Char × List Char)
  | '"' :: rest => readBasic? rest
  | '\x27' :: rest => readLiteral? rest
  | _ => none

/-- Reads a quoted text. The end of a line right behind the quotes that open a text on several lines
does not belong to it. -/
def readQuoted? : List Char → Option (List Char × List Char)
  | '"' :: '"' :: '"' :: rest => readMultiBasic? .none (dropNewline rest)
  | '\x27' :: '\x27' :: '\x27' :: rest => readMultiLiteral? (dropNewline rest)
  | cs => readLine? cs

end LayoutMarkup.Toml
