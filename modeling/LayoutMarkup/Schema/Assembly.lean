import LayoutMarkup.Schema.Basic

/-!
# Assembling a schema

A schema is put together step by step: types are declared, then their tables are filled. A step
that would give a name twice is refused and changes nothing; putting something under a key that is
there already replaces it in its place.
-/

namespace LayoutMarkup.Schema

/-- One step of assembling a schema. -/
inductive Step where
  /-- Declare a complex type without attributes and children. -/
  | declareType (name : String)
  /-- Declare an attribute of a type. -/
  | declareAttribute (type : TypeId) (declared : AttributeDef)
  /-- Add a place for an attribute without a declaration. -/
  | indeterminate (type : TypeId) (key : String) (valueType : ValueType)
  /-- Welcome other attributes. -/
  | extraAttributes (type : TypeId)
  /-- Welcome other child elements. -/
  | extraChildren (type : TypeId)
  /-- Define a child element of a type. -/
  | child (parent : TypeId) (definition : ElementDef)
  /-- Expect an element that is defined already below another type. -/
  | shareChild (parent : TypeId) (definition : DefinitionId)
  /-- Declare a frame type. -/
  | declareFrameType (declared : FrameType)
  deriving DecidableEq

/-- Why a step is refused. -/
inductive Refusal where
  /-- There is a complex type of this name. -/
  | duplicateType (name : String)
  /-- There is a frame type of this name. -/
  | duplicateFrameType (name : String)
  deriving DecidableEq, Repr

/-- The wording of a refusal. -/
def Refusal.message : Refusal → String
  | duplicateType name => s!"complex type `{name}` is declared twice"
  | duplicateFrameType name => s!"frame type `{name}` is declared twice"

/-- What a step answers. -/
inductive Outcome where
  /-- The number of the type declared. -/
  | type (id : TypeId)
  /-- The number of the element defined. -/
  | definition (id : DefinitionId)
  /-- Nothing to tell. -/
  | done
  /-- The step was refused. -/
  | refused (why : Refusal)
  deriving DecidableEq, Repr

/-- Changes the complex type with a number. -/
def adjustType (s : Schema) (id : TypeId) (f : ComplexType → ComplexType) : Schema :=
  { s with types := s.types.modify id f }

/-- A schema with one more complex type, which is empty so far. Its number is the number of types
before it. -/
def withType (s : Schema) (name : String) : Schema :=
  { s with
    types := s.types.push { name }
    typeIds := s.typeIds.insert name s.types.size }

/-- Declares a complex type of a new name. -/
def declareType (s : Schema) (name : String) : Except Refusal (Schema × TypeId) :=
  if s.typeIds.contains name then .error (.duplicateType name)
  else .ok (s.withType name, s.types.size)

/-- Declares an attribute of a type. -/
def addAttribute (s : Schema) (type : TypeId) (a : AttributeDef) : Schema :=
  s.adjustType type fun t => { t with attributes := t.attributes.insert (Text.lower a.name) a }

/-- Adds a place for an attribute without a declaration. -/
def addIndeterminate (s : Schema) (type : TypeId) (key : String) (v : ValueType) : Schema :=
  s.adjustType type fun t => { t with indeterminate := t.indeterminate.insert key v }

/-- Welcomes other attributes on elements of a type. -/
def allowExtraAttributes (s : Schema) (type : TypeId) : Schema :=
  s.adjustType type fun t => { t with extraAttributes := true }

/-- Welcomes other child elements below elements of a type. -/
def allowExtraChildren (s : Schema) (type : TypeId) : Schema :=
  s.adjustType type fun t => { t with extraChildren := true }

/-- Expects an element with a number below a type, under a tag. -/
def expectChild (s : Schema) (parent : TypeId) (tag : String) (id : DefinitionId) : Schema :=
  s.adjustType parent fun t => { t with children := t.children.insert tag id }

/-- Defines a child element of a type; its number is the number of elements defined before it. -/
def addChild (s : Schema) (parent : TypeId) (d : ElementDef) : Schema × DefinitionId :=
  ({ s with definitions := s.definitions.push d }.expectChild parent d.name s.definitions.size,
    s.definitions.size)

/-- Expects an element that is defined already below another type. -/
def shareChild (s : Schema) (parent : TypeId) (id : DefinitionId) : Schema :=
  match s.definition? id with
  | some d => s.expectChild parent d.name id
  | none => s

/-- Declares a frame type. -/
def addFrameType (s : Schema) (t : FrameType) : Except Refusal Schema :=
  if s.frameTypes.contains t.name then .error (.duplicateFrameType t.name)
  else .ok { s with frameTypes := s.frameTypes.insert t.name t }

/-- Carries out one step. -/
def apply (s : Schema) : Step → Schema × Outcome
  | .declareType name =>
    match s.declareType name with
    | .ok (s, id) => (s, .type id)
    | .error why => (s, .refused why)
  | .declareAttribute type a => (s.addAttribute type a, .done)
  | .indeterminate type key v => (s.addIndeterminate type key v, .done)
  | .extraAttributes type => (s.allowExtraAttributes type, .done)
  | .extraChildren type => (s.allowExtraChildren type, .done)
  | .child parent d => let (s, id) := s.addChild parent d; (s, .definition id)
  | .shareChild parent id => (s.shareChild parent id, .done)
  | .declareFrameType t =>
    match s.addFrameType t with
    | .ok s => (s, .done)
    | .error why => (s, .refused why)

/-- Carries out steps one after another, refused ones included, and collects what they answer. -/
def applyAll (s : Schema) : List Step → Schema × List Outcome
  | [] => (s, [])
  | step :: steps =>
    let (s, outcome) := s.apply step
    let (s, outcomes) := s.applyAll steps
    (s, outcome :: outcomes)

/-- The schema that steps make out of nothing. -/
def assemble (steps : List Step) : Schema :=
  (applyAll {} steps).1

end LayoutMarkup.Schema
