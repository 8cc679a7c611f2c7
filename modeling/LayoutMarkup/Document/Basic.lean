import LayoutMarkup.Diagnostic.Basic
import LayoutMarkup.Schema.Basic

/-!
# Documents

A document is a text with its elements and the diagnostics found in it. Elements are numbered in
the order in which they begin. Number 0 is the root, which stands for the whole text and has no tag;
every other element comes after its parent.
-/

namespace LayoutMarkup

/-- The number of an element in its document. -/
abbrev ElementId := Nat

/-- The number of the element that stands for the whole text. -/
def ElementId.root : ElementId := 0

/-- An attribute as written in the text. -/
structure Attribute where
  /-- Its name. -/
  name : String
  /-- Where the name stands. -/
  nameSpan : Span
  /-- Its value without quotes, if it has one. -/
  value : Option String := none
  /-- Where the value stands, quotes included. -/
  valueSpan : Option Span := none
  deriving DecidableEq, Repr

/-- An element of a document. -/
structure Element where
  /-- The tag, unless `<` stands without a name. -/
  tag : Option String := none
  /-- Where the tag stands. -/
  tagSpan : Option Span := none
  /-- The offset at which the element begins. -/
  start : Nat
  /-- The offset behind the element. -/
  stop : Nat
  /-- The offset behind the start tag, once that is closed. -/
  startTagEnd : Option Nat := none
  /-- The offset of the `</` of an end tag that fits. -/
  endTagStart : Option Nat := none
  /-- Whether the element is closed as it should be. -/
  closed : Bool := false
  /-- Whether it is closed by `/>`. -/
  selfClosed : Bool := false
  /-- The element it stands in. -/
  parent : Option ElementId := none
  /-- The elements that stand in it, in order. -/
  children : List ElementId := []
  /-- Its attributes under their names in small letters, in order. -/
  attributes : OrderedMap String Attribute := ∅
  /-- Its type, if the schema gives it one. -/
  type : Option TypeId := none
  /-- The definition that its tag has below the type of the parent. -/
  definition : Option DefinitionId := none
  /-- Whether its `type` attribute names no alternative of the definition. -/
  alternationFailed : Bool := false
  deriving DecidableEq

namespace Element

/-- The part of the text that the element covers. -/
def span (e : Element) : Span :=
  ⟨e.start, e.stop⟩

/-- The offset at which the content of the element begins. -/
def contentStart (e : Element) : Nat :=
  e.startTagEnd.getD e.stop

/-- The part of the text to point at when the element is meant: its tag, or the point where it
begins. -/
def markSpan (e : Element) : Span :=
  e.tagSpan.getD (.point e.start)

/-- The tag for a remark; an element without a tag has the empty one. -/
def tagText (e : Element) : String :=
  e.tag.getD ""

/-- Whether an offset lies in the element. -/
def covers (e : Element) (offset : Nat) : Bool :=
  e.start ≤ offset && offset < e.stop

/-- The attribute with a name, whatever the case of its letters. -/
def attribute? (e : Element) (name : String) : Option Attribute :=
  e.attributes.get? (Text.lower name)

/-- The value of an attribute that has one. -/
def attributeValue? (e : Element) (name : String) : Option String :=
  (e.attribute? name).bind (·.value)

/-- Whether there is an attribute with a name. -/
def hasAttribute (e : Element) (name : String) : Bool :=
  (e.attribute? name).isSome

/-- The role of the element by its definition. -/
def kind (e : Element) (schema : Schema) : NodeKind :=
  match e.definition.bind schema.definition? with
  | some d => d.kind
  | none => .other

end Element

/-- A text with its elements and diagnostics. -/
structure Document where
  /-- The name that the declarations of the document are found under. -/
  name : String
  /-- The text. -/
  text : String
  /-- The elements by number. -/
  elements : Array Element
  /-- What was found on reading the text. -/
  diagnostics : List Diagnostic
  deriving DecidableEq

namespace Document

/-- The number of elements, the root included. -/
def size (doc : Document) : Nat :=
  doc.elements.size

/-- The element with a number. -/
def get? (doc : Document) (id : ElementId) : Option Element :=
  doc.elements[id]?

/-- The children of the element with a number. -/
def childrenOf (doc : Document) (id : ElementId) : List ElementId :=
  ((doc.get? id).map (·.children)).getD []

/-- The parent of the element with a number. -/
def parent? (doc : Document) (id : ElementId) : Option ElementId :=
  (doc.get? id).bind (·.parent)

/-- The first top-level element, whose declarations count. -/
def declared? (doc : Document) : Option ElementId :=
  (doc.childrenOf .root).head?

/-- An element followed by the elements it stands in, the root last. -/
def ancestors (doc : Document) (id : ElementId) : List ElementId :=
  match doc.parent? id with
  | some parent => if parent < id then id :: doc.ancestors parent else [id]
  | none => [id]
termination_by id

/-- The first child of an element that covers an offset. -/
def childAt? (doc : Document) (offset : Nat) (id : ElementId) : Option ElementId :=
  (doc.childrenOf id).find? fun child => (doc.get? child).any (·.covers offset)

/-- The deepest element below `id` that is reached through elements that cover the offset. -/
def descend (doc : Document) (offset : Nat) (id : ElementId) : ElementId :=
  match doc.childAt? offset id with
  | some child => if id < child ∧ child < doc.size then doc.descend offset child else id
  | none => id
termination_by doc.size - id
decreasing_by lia

/-- The deepest element other than the root that covers an offset. -/
def elementAt? (doc : Document) (offset : Nat) : Option ElementId :=
  let id := doc.descend offset .root
  if id = .root then none else some id

end Document

end LayoutMarkup
