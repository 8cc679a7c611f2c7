import LayoutMarkup.Toml.Quoted
import LayoutMarkup.Toml.Scalar

/-!
# Reading TOML

A TOML text is a list of lines: key and value pairs, headers that say which table the following
pairs belong to, comments and empty lines. Values in brackets and braces may go over several lines.
Each step of a reader takes at least one character or hands over to one that does, so twice the
length of the text bounds the number of steps.
-/

namespace LayoutMarkup.Toml

/-- Whether a character is a blank within a line. -/
def isSpace (c : Char) : Bool :=
  c == ' ' || c == '\t'

/-- Drops the blanks in front of a text. -/
def dropSpaces (cs : List Char) : List Char :=
  cs.dropWhile isSpace

/-- Drops a comment that begins the text. Its characters must be plain; what follows is the end of
the line or of the text. -/
def dropComment? : List Char → Option (List Char)
  | '#' :: rest =>
    match rest.dropWhile isPlain with
    | [] => some []
    | '\n' :: rest => some ('\n' :: rest)
    | '\r' :: '\n' :: rest => some ('\r' :: '\n' :: rest)
    | _ => none
  | cs => some cs

/-- Drops what may stand behind a value or a header on its line, and the end of the line. -/
def endLine? (cs : List Char) : Option (List Char) := do
  match ← dropComment? (dropSpaces cs) with
  | [] => some []
  | '\n' :: rest => some rest
  | '\r' :: '\n' :: rest => some rest
  | _ => none

/-- Drops blanks, comments and ends of lines, from inside a comment or from outside. -/
def dropGap? : (inComment : Bool) → List Char → Option (List Char)
  | _, '\n' :: rest => dropGap? false rest
  | _, '\r' :: '\n' :: rest => dropGap? false rest
  | true, c :: rest => if isPlain c then dropGap? true rest else none
  | false, ' ' :: rest => dropGap? false rest
  | false, '\t' :: rest => dropGap? false rest
  | false, '#' :: rest => dropGap? true rest
  | _, rest => some rest

/-- Drops blanks, comments and ends of lines. -/
def skipGap? (cs : List Char) : Option (List Char) :=
  dropGap? false cs

/-- Whether a character may stand in a key without quotes. -/
def isBareKeyChar (c : Char) : Bool :=
  c.isAlphanum || c == '_' || c == '-'

/-- Reads one part of a key. -/
def readKeyPart? (cs : List Char) : Option (String × List Char) :=
  match cs.takeWhile isBareKeyChar with
  | [] => (readLine? cs).map fun (text, rest) => (String.ofList text, rest)
  | part => some (String.ofList part, cs.dropWhile isBareKeyChar)

/-- Reads the parts of a key between dots, of which there may be so many. -/
def readKeyParts? : (most : Nat) → List Char → Option (List String × List Char)
  | 0, _ => none
  | most + 1, cs => do
    let (part, rest) ← readKeyPart? (dropSpaces cs)
    match dropSpaces rest with
    | '.' :: rest =>
      let (parts, rest) ← readKeyParts? most rest
      return (part :: parts, rest)
    | rest => return ([part], rest)

/-- How many parts a key may have, and how deep brackets and braces may be nested. -/
def maxNesting : Nat := 80

/-- Reads a key with the blanks around it. -/
def readKey? (cs : List Char) : Option (List String × List Char) :=
  readKeyParts? maxNesting cs

mutual

/-- Reads a value, with at most so many steps. Below it brackets and braces may be nested as deep as
`depth`. -/
def readValue? : (steps depth : Nat) → List Char → Option (Value × List Char)
  | 0, _, _ => none
  | _ + 1, 0, '[' :: _ => none
  | _ + 1, 0, '\x7b' :: _ => none
  | steps + 1, depth + 1, '[' :: rest => do
    let (items, rest) ← readItems? steps depth rest
    return (.array items, rest)
  | steps + 1, depth + 1, '\x7b' :: rest => do
    let (entries, rest) ← readEntries? steps depth [] rest
    return (.table .inline entries, rest)
  | _ + 1, _, '"' :: rest => (readQuoted? ('"' :: rest)).map fun (text, rest) =>
    (.string (String.ofList text), rest)
  | _ + 1, _, '\x27' :: rest => (readQuoted? ('\x27' :: rest)).map fun (text, rest) =>
    (.string (String.ofList text), rest)
  | _ + 1, _, cs => do
    let (word, rest) := splitWord cs
    return (← scalar? word, rest)

/-- Reads the items of an array, from behind its bracket or a comma to its end. -/
def readItems? : (steps depth : Nat) → List Char → Option (List Value × List Char)
  | 0, _, _ => none
  | steps + 1, depth, cs => do
    match ← skipGap? cs with
    | ']' :: rest => return ([], rest)
    | cs =>
      let (value, rest) ← readValue? steps depth cs
      match ← skipGap? rest with
      | ',' :: rest =>
        let (values, rest) ← readItems? steps depth rest
        return (value :: values, rest)
      | ']' :: rest => return ([value], rest)
      | _ => none

/-- Reads the pairs of an inline table, from behind its brace or a comma to its end. -/
def readEntries? : (steps depth : Nat) → Entries → List Char → Option (Entries × List Char)
  | 0, _, _, _ => none
  | steps + 1, depth, entries, cs => do
    match ← skipGap? cs with
    | '\x7d' :: rest => return (entries, rest)
    | cs =>
      -- Lines may end anywhere but inside the key.
      let (key, rest) ← readKey? cs
      let rest ← dropChar? '=' (← skipGap? rest)
      let (value, rest) ← readValue? steps depth (← skipGap? rest)
      let entries ← entries.addDotted? key.dropLast (← key.getLast?) value
      match ← skipGap? rest with
      | ',' :: rest => readEntries? steps depth entries rest
      | '\x7d' :: rest => return (entries, rest)
      | _ => none

end

/-- Reads a line with a key and a value, and adds them to the table of the last header. Reading the
value takes at most so many steps. -/
def readPair? (steps : Nat) (header : List String) (root : Entries) (cs : List Char) :
    Option (Entries × List Char) := do
  let (key, rest) ← readKey? cs
  let rest := dropSpaces (← dropChar? '=' rest)
  let (value, rest) ← readValue? steps maxNesting rest
  let last ← key.getLast?
  let root ← root.changeAt? false (fun _ table => table.addDotted? key.dropLast last value)
    header .explicit
  return (root, ← endLine? rest)

/-- Reads lines to the end of the text, with at most so many steps. Each line takes a character, so
the steps that are left are at least as many as the characters. -/
def readLines? : (steps : Nat) → (header : List String) → Entries → List Char → Option Entries
  | 0, _, _, _ => none
  | steps + 1, header, root, cs => do
    match dropSpaces cs with
    | [] => return root
    | '[' :: '[' :: rest =>
      let (path, rest) ← readKey? rest
      let rest ← endLine? (← dropChar? ']' (← dropChar? ']' rest))
      readLines? steps path (← root.openNext? path) rest
    | '[' :: rest =>
      let (path, rest) ← readKey? rest
      let rest ← endLine? (← dropChar? ']' rest)
      readLines? steps path (← root.openTable? path) rest
    | c :: rest =>
      if c = '#' ∨ c = '\n' ∨ c = '\r' then
        readLines? steps header root (← endLine? (c :: rest))
      else
        let (root, rest) ← readPair? (2 * (steps + 1)) header root (c :: rest)
        readLines? steps header root rest

/-- The entries of a TOML text, if it is one. A byte order mark in front does not count. -/
def parse? (text : String) : Option Entries :=
  let cs := match text.toList with
    | '\uFEFF' :: rest => rest
    | cs => cs
  readLines? (cs.length + 1) [] [] cs

end LayoutMarkup.Toml
