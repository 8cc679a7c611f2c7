import LayoutMarkup.Diagnostic.Cause
import LayoutMarkup.Document.Basic
import LayoutMarkup.Token.Scanner

/-!
# Drafts

A draft is the element tree while the tokens of a text come in. It has a current element; a `<`
begins a child of it, and an end tag that fits leads back to its parent. An element gets its type as
soon as its tag is known, and an element whose type depends on its `type` attribute gets it when the
start tag is closed.

Nothing in a text stops the draft:
* an end tag outside of all elements is passed over;
* an end tag of the parent closes the current element before `</`, and then the parent;
* any other end tag that does not fit is reported and changes nothing;
* elements open at the end of the text end there;
* a second top-level element is reported once.
-/

namespace LayoutMarkup

/-- The text of a value token without its quotes. A value that is not closed loses only the quote
that opens it. -/
def unquote (raw : String) : String :=
  match raw.toList with
  | quote :: inner =>
    if isQuote quote then
      String.ofList (if inner.getLast? == some quote then inner.dropLast else inner)
    else
      raw
  | [] => raw

/-- An element tree under construction. -/
structure Draft where
  /-- The elements so far. -/
  elements : Array Element
  /-- The element that a `<` would begin a child of. -/
  current : ElementId := .root
  /-- The attribute that waits for its value, by its name in small letters. -/
  pending : Option String := none
  /-- The offset of the latest `</`. -/
  endTagOpen : Nat := 0
  /-- The element that the next `>` of an end tag closes. -/
  endTagTarget : Option ElementId := none
  /-- Whether a second top-level element was reported. -/
  manyReported : Bool := false
  /-- What was found so far. -/
  log : Log := {}
  deriving DecidableEq

namespace Draft

/-- The draft before the first token: the root alone. -/
def start (length : Nat) (rootType : Option TypeId) : Draft :=
  { elements := #[{ start := 0, stop := length, startTagEnd := some 0, closed := true,
                    type := rootType }] }

/-- The element with a number. -/
def get? (d : Draft) (id : ElementId) : Option Element :=
  d.elements[id]?

/-- Changes the element with a number. -/
def adjust (d : Draft) (id : ElementId) (f : Element → Element) : Draft :=
  { d with elements := d.elements.modify id f }

/-- Reports a cause on a span. -/
def report (d : Draft) (cause : Cause) (span : Span) : Draft :=
  { d with log := d.log.add (cause.on span) }

/-- The parent of an element; the root where there is none. -/
def parentOf (d : Draft) (id : ElementId) : ElementId :=
  ((d.get? id).bind (·.parent)).getD .root

/-- Whether the current element is a real one whose start tag is not closed yet. -/
def inStartTag (d : Draft) : Bool :=
  d.current != .root && (d.get? d.current).any (·.startTagEnd.isNone)

/-- Gives an element the type that its `type` attribute chooses. Without the attribute the type of
the definition stays; a value that names no alternative is reported. -/
def resolveAlternation (schema : Schema) (d : Draft) (id : ElementId) : Draft :=
  match d.get? id with
  | none => d
  | some e =>
    match e.definition.bind schema.definition?, e.attribute? "type" with
    | some definition, some choice =>
      if e.alternationFailed || definition.alternatives.isNone then d
      else
        -- An attribute without a value chooses the alternative of the empty text.
        let value := choice.value.getD ""
        match definition.alternative? value with
        | some type => d.adjust id fun e => { e with type := some type }
        | none =>
          (d.adjust id fun e => { e with alternationFailed := true }).report
            (.unknownType value definition.name) (choice.valueSpan.getD choice.nameSpan)
    | _, _ => d

/-- Closes the start tag of the current element at an offset. -/
def closeStartTag (schema : Schema) (d : Draft) (offset : Nat) : Draft :=
  resolveAlternation schema
    ({ d with pending := none }.adjust d.current fun e => { e with startTagEnd := some offset })
    d.current

/-- Closes the start tag of the current element at an offset, if it is open. -/
def endStartTag (schema : Schema) (d : Draft) (offset : Nat) : Draft :=
  if d.inStartTag then d.closeStartTag schema offset else d

/-- Closes an element behind an offset and goes back to its parent. -/
def close (d : Draft) (id : ElementId) (offset : Nat) (selfClosed : Bool) : Draft :=
  { d.adjust id fun e =>
      { e with stop := offset, closed := true, selfClosed := selfClosed } with
    current := d.parentOf id }

/-- Reports a second top-level element, the first time that one begins. -/
def noteTopLevel (d : Draft) (span : Span) : Draft :=
  if d.current = .root ∧ (d.get? .root).any (!·.children.isEmpty) ∧ ¬ d.manyReported then
    { d.report .manyTopLevel span with manyReported := true }
  else
    d

/-- Begins a child of the current element. -/
def addChild (length : Nat) (d : Draft) (offset : Nat) : Draft :=
  let id := d.elements.size
  let linked := d.adjust d.current fun e => { e with children := e.children ++ [id] }
  { linked with
    elements := linked.elements.push
      { start := offset, stop := length, parent := some d.current }
    current := id }

/-- Takes a `<`: the start tag before it is closed, and an element begins. -/
def openElement (schema : Schema) (length : Nat) (d : Draft) (span : Span) : Draft :=
  let d := { d with endTagTarget := none, pending := none }.endStartTag schema span.start
  (d.noteTopLevel span).addChild length span.start

/-- Gives the current element its tag and the type that the tag has below the parent. A tag that
the type of the parent neither expects nor welcomes is remarked on. -/
def nameElement (schema : Schema) (d : Draft) (token : Token) : Draft :=
  if d.current = .root then d
  else
    let named := d.adjust d.current fun e =>
      { e with tag := some token.text, tagSpan := some token.span }
    match ((d.get? d.current).bind (·.parent)).bind fun p =>
        ((d.get? p).bind (·.type)).bind schema.type? with
    | none => named
    | some parentType =>
      match parentType.children.get? token.text with
      | some id =>
        named.adjust d.current fun e =>
          { e with definition := some id, type := (schema.definition? id).map (·.type) }
      | none =>
        if parentType.extraChildren then named
        else named.report (.unknownElement token.text parentType.name) token.span

/-- Adds an attribute to the current element and waits for its value. The first attribute of a
name counts; a later one is reported and its value is passed over. -/
def addAttribute (d : Draft) (token : Token) : Draft :=
  let d := { d with pending := none }
  if !d.inStartTag then d
  else
    let key := Text.lower token.text
    -- Nothing waits for the value of a repeated attribute.
    if (d.get? d.current).any (·.attributes.contains key) then
      d.report (.repeatedAttribute token.text) token.span
    else
      { d.adjust d.current fun e =>
          { e with attributes := e.attributes.insert key ⟨token.text, token.span, none, none⟩ } with
        pending := some key }

/-- Gives the waiting attribute its value. -/
def setValue (d : Draft) (token : Token) : Draft :=
  match d.pending with
  | none => d
  | some key =>
    { d with pending := none }.adjust d.current fun e =>
      { e with attributes := e.attributes.adjust key fun a =>
          { a with value := some (unquote token.text), valueSpan := some token.span } }

/-- Takes the name of an end tag: it fits the current element, or closes it for the sake of the
parent, or does not fit. -/
def matchEndTag (d : Draft) (token : Token) : Draft :=
  if d.current = .root then d
  else match d.get? d.current with
    | none => d
    | some e =>
      let expect (d : Draft) (id : ElementId) : Draft :=
        { d.adjust id fun e => { e with endTagStart := some d.endTagOpen } with
          current := id, endTagTarget := some id }
      if e.tag = some token.text then expect d d.current
      else match e.parent with
        | some parent =>
          -- The end tag of the parent: the current element ends in front of it.
          if parent ≠ .root ∧ (d.get? parent).any (·.tag == some token.text) then
            expect ((d.report (.missingEndTag e.tagText) e.markSpan).adjust d.current fun e =>
              { e with stop := d.endTagOpen, closed := false }) parent
          else
            d.report (.endTagMismatch e.tagText token.text) token.span
        | none => d.report (.endTagMismatch e.tagText token.text) token.span

/-- Takes one token. -/
def step (schema : Schema) (length : Nat) (d : Draft) (token : Token) : Draft :=
  match token.kind with
  | .tagOpen => d.openElement schema length token.span
  | .tagName => d.nameElement schema token
  | .attributeName => d.addAttribute token
  | .attributeValue => d.setValue token
  | .tagClose => d.endStartTag schema token.span.stop
  | .tagSelfClose =>
    if d.inStartTag then
      (d.closeStartTag schema token.span.stop).close d.current token.span.stop true
    else d
  | .endTagOpen =>
    { { d with endTagTarget := none }.endStartTag schema token.span.start with
      endTagOpen := token.span.start }
  | .endTagName => d.matchEndTag token
  | .endTagClose =>
    match d.endTagTarget with
    | some target => { d with endTagTarget := none }.close target token.span.stop false
    | none => d
  | .assign | .content | .commentOpen | .comment | .commentClose | .headerOpen | .header
  | .headerClose | .blank | .endOfText | .unknown => d

/-- The element with a number and the elements it stands in, without the root. -/
def openChain (d : Draft) (id : ElementId) : List ElementId :=
  if id = .root then []
  else if d.parentOf id < id then id :: d.openChain (d.parentOf id) else [id]
termination_by id

/-- Ends an element that is open at the end of the text. -/
def endOpen (schema : Schema) (length : Nat) (d : Draft) (id : ElementId) : Draft :=
  -- A start tag that is still open ends with the text.
  let d := if (d.get? id).any (·.startTagEnd.isNone) then
      resolveAlternation schema (d.adjust id fun e => { e with startTagEnd := some length }) id
    else d
  match d.get? id with
  | none => d
  | some e =>
    let cause := if e.endTagStart.isSome then Cause.unfinishedEndTag e.tagText
      else .expectedEndTag e.tagText
    (d.report cause e.markSpan).adjust id fun e => { e with stop := length, closed := false }

/-- Ends all elements that are open at the end of the text, the innermost first. -/
def finish (schema : Schema) (length : Nat) (d : Draft) : Draft :=
  { (d.openChain d.current).foldl (endOpen schema length) d with current := .root }

/-- Takes one step of the scanner: what it found, then its token. -/
def take (schema : Schema) (length : Nat) (d : Draft) (s : Scanned) : Draft :=
  step schema length { d with log := s.diagnostic.elim d.log d.log.add } s.token

/-- The draft of a whole text. -/
def ofText (schema : Schema) (rootType : Option TypeId) (text : String) : Draft :=
  let length := Text.byteLength text.toList
  finish schema length ((tokenize text).foldl (take schema length) (start length rootType))

end Draft

end LayoutMarkup
