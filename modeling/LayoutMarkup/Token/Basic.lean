import LayoutMarkup.Text.Span

/-!
# Tokens

The pieces that the scanner cuts a text into. Every character of the text belongs to one token.
-/

namespace LayoutMarkup

/-- The part that a token plays in the markup. -/
inductive TokenKind where
  /-- `<` -/
  | tagOpen
  /-- The name behind `<`. -/
  | tagName
  /-- `>` of a start tag. -/
  | tagClose
  /-- `/>` -/
  | tagSelfClose
  /-- `</` -/
  | endTagOpen
  /-- The name behind `</`. -/
  | endTagName
  /-- `>` of an end tag. -/
  | endTagClose
  /-- The name of an attribute. -/
  | attributeName
  /-- `=` between an attribute and its value. -/
  | assign
  /-- The value of an attribute with the quotes it has. -/
  | attributeValue
  /-- Text between tags. -/
  | content
  /-- `<!--` -/
  | commentOpen
  /-- The body of a comment. -/
  | comment
  /-- `-->` -/
  | commentClose
  /-- `<?` -/
  | headerOpen
  /-- The body of a header. -/
  | header
  /-- `?>` -/
  | headerClose
  /-- Blanks inside a tag. -/
  | blank
  /-- The end of the text. -/
  | endOfText
  /-- Characters that have no place where they stand. -/
  | unknown
  deriving DecidableEq, Repr

/-- The kind as it is shown. -/
def TokenKind.label : TokenKind → String
  | tagOpen => "`<`"
  | tagName => "tag name"
  | tagClose => "`>`"
  | tagSelfClose => "`/>`"
  | endTagOpen => "`</`"
  | endTagName => "end tag name"
  | endTagClose => "`>`"
  | attributeName => "attribute name"
  | assign => "`=`"
  | attributeValue => "attribute value"
  | content => "content"
  | commentOpen => "`<!--`"
  | comment => "comment"
  | commentClose => "`-->`"
  | headerOpen => "`<?`"
  | header => "header"
  | headerClose => "`?>`"
  | blank => "whitespace"
  | endOfText => "end of input"
  | unknown => "unknown"

/-- A piece of a text. -/
structure Token where
  /-- The part it plays. -/
  kind : TokenKind
  /-- Where it stands. -/
  span : Span
  /-- Its characters. -/
  text : String
  deriving DecidableEq, Repr

end LayoutMarkup
