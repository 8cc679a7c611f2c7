/-!
# Diagnostic codes

Every rule that a diagnostic can report has a code. The first digit tells the phase: `E0` reading
tokens, `E1` building the element tree, `E2` checking against the schema, `E3` reading selectors.
-/

namespace LayoutMarkup

/-- The rule that a diagnostic reports. -/
inductive Code where
  /-- A blank between `<` and the tag name. -/
  | detachedTagName
  /-- A blank between `</` and the tag name. -/
  | detachedEndTagName
  /-- Something other than a name inside an end tag. -/
  | strayEndTagContent
  /-- A character that cannot stand inside a start tag. -/
  | strayCharacter
  /-- A tag interrupted by the next `<`. -/
  | missingBracket
  /-- A quoted value that runs to the end of the text. -/
  | openValue
  /-- A comment that runs to the end of the text. -/
  | openComment
  /-- A header that runs to the end of the text. -/
  | openHeader
  /-- An end tag that matches neither the current element nor its parent. -/
  | endTagMismatch
  /-- An element closed by the end tag of its parent. -/
  | missingEndTag
  /-- An element open at the end of the text. -/
  | expectedEndTag
  /-- An end tag that was begun and not finished. -/
  | unfinishedEndTag
  /-- A second top-level element. -/
  | manyTopLevel
  /-- An attribute that the element has already. -/
  | repeatedAttribute
  /-- A tag that the type of the parent does not expect. -/
  | unknownElement
  /-- A `type` value that names no alternative. -/
  | unknownType
  /-- A required attribute that is not there. -/
  | missingAttribute
  /-- An attribute that the type of the element does not declare. -/
  | unknownAttribute
  /-- A selector that cannot be read. -/
  | invalidSelector
  deriving DecidableEq, Repr

namespace Code

/-- All codes in the order of their numbers. -/
def all : List Code :=
  [detachedTagName, detachedEndTagName, strayEndTagContent, strayCharacter, missingBracket,
   openValue, openComment, openHeader, endTagMismatch, missingEndTag, expectedEndTag,
   unfinishedEndTag, manyTopLevel, repeatedAttribute, unknownElement, unknownType,
   missingAttribute, unknownAttribute, invalidSelector]

/-- The code as it is shown. -/
def label : Code → String
  | detachedTagName => "E001"
  | detachedEndTagName => "E002"
  | strayEndTagContent => "E003"
  | strayCharacter => "E004"
  | missingBracket => "E005"
  | openValue => "E006"
  | openComment => "E007"
  | openHeader => "E008"
  | endTagMismatch => "E100"
  | missingEndTag => "E101"
  | expectedEndTag => "E102"
  | unfinishedEndTag => "E103"
  | manyTopLevel => "E104"
  | repeatedAttribute => "E105"
  | unknownElement => "E200"
  | unknownType => "E201"
  | missingAttribute => "E202"
  | unknownAttribute => "E203"
  | invalidSelector => "E300"

/-- What the code stands for, in a few words. -/
def description : Code → String
  | detachedTagName => "tag name must directly follow the open bracket"
  | detachedEndTagName => "end tag name must directly follow the open bracket"
  | strayEndTagContent => "end tag name expected"
  | strayCharacter => "unexpected character in tag"
  | missingBracket => "closing bracket missing"
  | openValue => "unterminated attribute value"
  | openComment => "unterminated comment"
  | openHeader => "unterminated header"
  | endTagMismatch => "end tag mismatch"
  | missingEndTag => "missing end tag"
  | expectedEndTag => "expected end tag"
  | unfinishedEndTag => "end tag not appropriately closed"
  | manyTopLevel => "multiple top-level elements"
  | repeatedAttribute => "duplicate attribute"
  | unknownElement => "unknown element"
  | unknownType => "unknown type alternative"
  | missingAttribute => "missing required attribute"
  | unknownAttribute => "unknown attribute"
  | invalidSelector => "invalid selector"

/-- The code with a given label. -/
def ofLabel? (s : String) : Option Code :=
  all.find? (·.label == s)

/-- Whether the code belongs to the reading of tokens. -/
def isLexical : Code → Bool
  | detachedTagName | detachedEndTagName | strayEndTagContent | strayCharacter | missingBracket
  | openValue | openComment | openHeader => true
  | _ => false

end Code

end LayoutMarkup
