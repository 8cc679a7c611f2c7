import LayoutMarkup.Diagnostic.Basic

/-!
# Causes

What went wrong, with the names that the remark needs. Severity, code, wording and advice of a
diagnostic follow from its cause.
-/

namespace LayoutMarkup

/-- What a diagnostic of this library is about. -/
inductive Cause where
  /-- A blank between `<` and the tag name. -/
  | detachedTagName
  /-- A blank between `</` and the tag name. -/
  | detachedEndTagName
  /-- Something other than a name inside an end tag. -/
  | strayEndTagContent
  /-- A character that cannot stand inside a start tag. -/
  | strayCharacter
  /-- A tag interrupted by the next `<`. -/
  | missingBracket
  /-- A value opened by a quote that does not come again. -/
  | openValue (quote : Char)
  /-- A comment without end. -/
  | openComment
  /-- A header without end. -/
  | openHeader
  /-- The end tag of another element than the one expected. -/
  | endTagMismatch (expected found : String)
  /-- An element closed by the end tag of its parent. -/
  | missingEndTag (tag : String)
  /-- An element open at the end of the text. -/
  | expectedEndTag (tag : String)
  /-- An element whose end tag was begun and not finished. -/
  | unfinishedEndTag (tag : String)
  /-- A second top-level element. -/
  | manyTopLevel
  /-- An attribute that the element has already. -/
  | repeatedAttribute (name : String)
  /-- A tag that the type of the parent does not expect. -/
  | unknownElement (tag parentType : String)
  /-- A `type` value that names no alternative of the element's definition. -/
  | unknownType (value definition : String)
  /-- A required attribute that is not there. -/
  | missingAttribute (name tag : String)
  /-- An attribute that the type of the element does not declare. -/
  | unknownAttribute (name tag : String)
  /-- A selector that cannot be read. -/
  | invalidSelector (selector : String)
  deriving DecidableEq, Repr

namespace Cause

/-- The code of a cause. -/
def code : Cause → Code
  | detachedTagName => .detachedTagName
  | detachedEndTagName => .detachedEndTagName
  | strayEndTagContent => .strayEndTagContent
  | strayCharacter => .strayCharacter
  | missingBracket => .missingBracket
  | openValue _ => .openValue
  | openComment => .openComment
  | openHeader => .openHeader
  | endTagMismatch _ _ => .endTagMismatch
  | missingEndTag _ => .missingEndTag
  | expectedEndTag _ => .expectedEndTag
  | unfinishedEndTag _ => .unfinishedEndTag
  | manyTopLevel => .manyTopLevel
  | repeatedAttribute _ => .repeatedAttribute
  | unknownElement _ _ => .unknownElement
  | unknownType _ _ => .unknownType
  | missingAttribute _ _ => .missingAttribute
  | unknownAttribute _ _ => .unknownAttribute
  | invalidSelector _ => .invalidSelector

/-- An element outside the schema is a remark; attributes and types that can be passed over are
warnings; all else is an error. -/
def severity : Cause → Severity
  | unknownElement _ _ => .message
  | repeatedAttribute _ | unknownType _ _ | unknownAttribute _ _ => .warning
  | _ => .error

/-- The wording of a cause. -/
def message : Cause → String
  | detachedTagName => "tag name must directly follow the open bracket"
  | detachedEndTagName => "end tag name must directly follow the open bracket"
  | strayEndTagContent => "end tag name expected"
  | strayCharacter => "unexpected character in tag"
  | missingBracket => "closing bracket missing"
  | openValue _ => "unterminated attribute value"
  | openComment => "unterminated comment"
  | openHeader => "unterminated header"
  | endTagMismatch expected found =>
    s!"end tag mismatch: expected `</{expected}>`, found `</{found}>`"
  | missingEndTag tag => s!"missing end tag for `{tag}`"
  | expectedEndTag tag => s!"expected end tag `</{tag}>`"
  | unfinishedEndTag tag => s!"end tag for `{tag}` not appropriately closed"
  | manyTopLevel => "a document must have a single top-level element"
  | repeatedAttribute name => s!"duplicate attribute `{name}`"
  | unknownElement tag parentType => s!"unknown element `{tag}` in `{parentType}`"
  | unknownType value definition => s!"unknown type `{value}` for `{definition}`"
  | missingAttribute name tag => s!"missing required attribute `{name}` on `{tag}`"
  | unknownAttribute name tag => s!"unknown attribute `{name}` on `{tag}`"
  | invalidSelector selector => s!"invalid selector `{selector}`"

/-- The advice that goes with a cause. -/
def help : Cause → Option String
  | missingBracket => some "add `>` before the next tag"
  | openValue quote => some s!"close the value with `{quote}`"
  | openComment => some "close the comment with `-->`"
  | openHeader => some "close the header with `?>`"
  | unfinishedEndTag _ => some "add `>` to finish the end tag"
  | manyTopLevel => some "only the first top-level element is indexed"
  | repeatedAttribute _ => some "the first occurrence is used"
  | invalidSelector _ => some "fragments are `$handle` or child names separated by `/`"
  | _ => none

/-- The diagnostic that reports the cause on a span. -/
def on (cause : Cause) (span : Span) : Diagnostic where
  severity := cause.severity
  code := some cause.code
  message := cause.message
  span := span
  help := cause.help

end Cause

end LayoutMarkup
