import LayoutMarkup.OrderedMap
import LayoutMarkup.Text.Span

/-!
# Schemas

A schema says which child elements a complex type accepts and what role each of them plays, which
attributes the type declares, and which frame classes a frame type belongs to. Types and element
definitions are numbered, so that a type can accept elements of its own kind.
-/

namespace LayoutMarkup

/-- The number of a complex type in its schema. -/
abbrev TypeId := Nat

/-- The number of an element definition in its schema. -/
abbrev DefinitionId := Nat

/-- The class of an attribute's values. -/
inductive ValueKind where
  /-- Any text. -/
  | string
  /-- One of a few words. -/
  | enumeration
  /-- The name of a handle. -/
  | handle
  /-- A colour. -/
  | color
  /-- A number. -/
  | number
  /-- Yes or no. -/
  | boolean
  /-- A path to a declaration or a file. -/
  | path
  /-- Anything else. -/
  | other
  deriving DecidableEq, Repr

/-- A named class of values. -/
structure ValueType where
  /-- Its name. -/
  name : String
  /-- The class it belongs to. -/
  kind : ValueKind
  deriving DecidableEq, Repr

/-- An attribute that a complex type declares. -/
structure AttributeDef where
  /-- Its name. -/
  name : String
  /-- The values it takes. -/
  valueType : ValueType
  /-- Whether an element must have it. -/
  required : Bool := false
  /-- The value that stands in for a missing one. -/
  fallback : Option String := none
  deriving DecidableEq, Repr

/-- The role of an element for declarations and nesting. -/
inductive NodeKind where
  /-- A frame, which declares a name and may hold further declarations. -/
  | frame
  /-- An animation, which declares a name. -/
  | animation
  /-- A group of states, which declares a name. -/
  | stateGroup
  /-- A constant. -/
  | constant
  /-- A property of a frame. -/
  | frameProperty
  /-- Anything else. -/
  | other
  deriving DecidableEq, Repr

/-- Whether elements of the kind declare a name. -/
def NodeKind.isDeclaration : NodeKind → Bool
  | frame | animation | stateGroup => true
  | constant | frameProperty | other => false

/-- What a tag means below a parent type. -/
structure ElementDef where
  /-- The tag. -/
  name : String
  /-- The type of the element when its `type` attribute decides nothing. -/
  type : TypeId
  /-- The role of the element. -/
  kind : NodeKind
  /-- The types to choose from by the `type` attribute, under its values in small letters. -/
  alternatives : Option (OrderedMap String TypeId) := none
  deriving DecidableEq

/-- Lets the `type` attribute choose between types, whatever the case of its letters. -/
def ElementDef.withAlternatives (d : ElementDef) (types : List (String × TypeId)) : ElementDef :=
  { d with
    alternatives := some (.ofList (types.map fun (value, type) => (Text.lower value, type))) }

/-- The type that a value of the `type` attribute chooses. -/
def ElementDef.alternative? (d : ElementDef) (value : String) : Option TypeId :=
  d.alternatives.bind (·.get? (Text.lower value))

/-- A complex type: its attributes and the child elements it expects. -/
structure ComplexType where
  /-- Its name. -/
  name : String
  /-- Its attributes under their names in small letters. -/
  attributes : OrderedMap String AttributeDef := ∅
  /-- The definitions of its child elements under their tags. -/
  children : OrderedMap String DefinitionId := ∅
  /-- Whether other attributes are welcome. -/
  extraAttributes : Bool := false
  /-- Whether other child elements are welcome. -/
  extraChildren : Bool := false
  /-- Places for attributes without a declaration, filled in the order of the source. -/
  indeterminate : OrderedMap String ValueType := ∅
  deriving DecidableEq

/-- The declaration of an attribute, whatever the case of its letters. -/
def ComplexType.attribute? (t : ComplexType) (name : String) : Option AttributeDef :=
  t.attributes.get? (Text.lower name)

/-- A frame type and the classes it belongs to, the most derived first. -/
structure FrameType where
  /-- Its name. -/
  name : String
  /-- Its classes. -/
  classes : List String
  deriving DecidableEq, Repr

/-- The most derived class; a frame type without classes is its own. -/
def FrameType.className (t : FrameType) : String :=
  t.classes.headD t.name

/-- Whether the frame type belongs to a class. -/
def FrameType.hasClass (t : FrameType) (name : String) : Bool :=
  t.classes.contains name

/-- The types, definitions and frame types that a text is read against. -/
structure Schema where
  /-- The complex types by number. -/
  types : Array ComplexType := #[]
  /-- The numbers of the complex types under their names. -/
  typeIds : OrderedMap String TypeId := ∅
  /-- The element definitions by number. -/
  definitions : Array ElementDef := #[]
  /-- The frame types under their names. -/
  frameTypes : OrderedMap String FrameType := ∅
  deriving DecidableEq

namespace Schema

/-- The complex type with a number. -/
def type? (s : Schema) (id : TypeId) : Option ComplexType :=
  s.types[id]?

/-- The number of the complex type with a name. -/
def typeId? (s : Schema) (name : String) : Option TypeId :=
  s.typeIds.get? name

/-- The element definition with a number. -/
def definition? (s : Schema) (id : DefinitionId) : Option ElementDef :=
  s.definitions[id]?

/-- The frame type with a name. -/
def frameType? (s : Schema) (name : String) : Option FrameType :=
  s.frameTypes.get? name

end Schema

end LayoutMarkup
