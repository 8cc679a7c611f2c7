import LayoutMarkup.Schema.Assembly

/-!
# The layout schema

The schema of the layout dialect: frames with their variants, animations, groups of states,
constants, anchors and the plain properties of frames. All variants of a frame have the same
content; which one a `Frame` element is follows from its `type` attribute.
-/

namespace LayoutMarkup.Schema.Layout

/-- The name of the type that the top of a document has. -/
def fileTypeName : String := "LayoutFile"

/-- The type of the top of a document. -/
def file : TypeId := 0

/-- The type of a list of descriptions. -/
def desc : TypeId := 1

/-- The type of a constant. -/
def constant : TypeId := 2

/-- The type of an anchor. -/
def anchor : TypeId := 3

/-- The type of an animation. -/
def animation : TypeId := 4

/-- The type of an event of an animation. -/
def event : TypeId := 5

/-- The type of a controller of an animation. -/
def controller : TypeId := 6

/-- The type of a group of states. -/
def stateGroup : TypeId := 7

/-- The type of a state. -/
def state : TypeId := 8

/-- The type of a plain frame, the first of the frame variants. -/
def frame : TypeId := 9

/-- The frame types with their classes, the most derived first. -/
def frameTypes : List FrameType :=
  [⟨"Frame", ["CFrame"]⟩,
   ⟨"Control", ["CControl", "CFrame"]⟩,
   ⟨"Button", ["CButton", "CControl", "CFrame"]⟩,
   ⟨"CheckBox", ["CCheckBox", "CButton", "CControl", "CFrame"]⟩,
   ⟨"Label", ["CLabel", "CFrame"]⟩,
   ⟨"Image", ["CImage", "CFrame"]⟩]

/-- The type of each frame variant. -/
def variants : List (String × TypeId) :=
  frameTypes.zipIdx.map fun (t, i) => (t.name, frame + i)

/-- The plain properties of a frame with the values that their attribute `val` takes. -/
def properties : List (String × ValueKind) :=
  [("Width", .number), ("Height", .number), ("Visible", .boolean), ("Alpha", .number),
   ("Texture", .path), ("Text", .string), ("Style", .string), ("Color", .color),
   ("Handle", .handle)]

/-- The type of the first property; the others follow in order. -/
def property : TypeId := frame + frameTypes.length

/-- The names of all types by number. -/
def typeNames : List String :=
  [fileTypeName, "Desc", "CConstant", "CAnchor", "CAnimationDesc", "CAnimationEvent",
   "CAnimationController", "CStateGroupDesc", "CState"] ++
  frameTypes.map (fun t => s!"C{t.name}Desc") ++
  properties.map fun (tag, _) => s!"CFrameProperty{tag}"

/-- An attribute whose values are any text. -/
def ofString (name : String) (required : Bool) : AttributeDef :=
  { name, valueType := ⟨"string", .string⟩, required }

/-- An attribute whose values are paths, and which may be missing. -/
def ofPath (name : String) : AttributeDef :=
  { name, valueType := ⟨"path", .path⟩ }

/-- The attributes of all types but the properties. -/
def attributes : List (TypeId × AttributeDef) :=
  [(constant, ofString "name" true), (constant, ofString "val" true),
   (anchor, { name := "side", valueType := ⟨"anchorSide", .enumeration⟩, required := true }),
   (anchor, ofPath "relative"),
   (anchor, { name := "pos", valueType := ⟨"anchorSide", .enumeration⟩ }),
   (anchor, { name := "offset", valueType := ⟨"number", .number⟩ }),
   (animation, ofString "name" false),
   (event, ofString "event" true), (event, ofString "action" false), (event, ofPath "frame"),
   (controller, ofString "type" true), (controller, ofPath "frame"),
   (stateGroup, ofString "name" false),
   (state, ofString "name" true)] ++
  variants.flatMap fun (_, type) =>
    [(type, ofString "name" false), (type, ofString "type" false), (type, ofPath "template"),
     (type, ofString "file" false)]

/-- The attribute `val` of each property. -/
def propertyAttributes : List (TypeId × AttributeDef) :=
  properties.zipIdx.map fun ((tag, kind), i) =>
    (property + i, { name := "val", valueType := ⟨s!"{tag}Value", kind⟩, required := true })

/-- The element definitions by number, each with the type below which it is expected first. -/
def definitions : List (TypeId × ElementDef) :=
  [(file, { name := "Desc", type := desc, kind := .other }),
   (file,
    { name := "Frame", type := frame, kind := .frame : ElementDef }.withAlternatives variants),
   (desc, { name := "Constant", type := constant, kind := .constant }),
   (animation, { name := "Event", type := event, kind := .other }),
   (animation, { name := "Controller", type := controller, kind := .other }),
   (stateGroup, { name := "State", type := state, kind := .other }),
   (stateGroup, { name := "DefaultState", type := state, kind := .other }),
   (frame, { name := "Animation", type := animation, kind := .animation }),
   (frame, { name := "StateGroup", type := stateGroup, kind := .stateGroup }),
   (frame, { name := "Anchor", type := anchor, kind := .frameProperty })] ++
  properties.zipIdx.map fun ((tag, _), i) =>
    (frame, { name := tag, type := property + i, kind := .frameProperty })

/-- The number of the definition of `Frame`. -/
def frameDef : DefinitionId := 1

/-- The number of the definition of `Constant`. -/
def constantDef : DefinitionId := 2

/-- The number of the definition of `Animation`, the first that only frames expect. -/
def animationDef : DefinitionId := 7

/-- The number of the definition of the first property. -/
def propertyDef : DefinitionId := 10

/-- The definitions from a number on. -/
def definitionsFrom (id : DefinitionId) : List DefinitionId :=
  (List.range definitions.length).drop id

/-- Defines the elements with numbers from `low` up to `high`. -/
def define (low high : DefinitionId) : List Step :=
  (definitions.take high |>.drop low).map fun (parent, d) => .child parent d

/-- The steps that make the layout schema. The children of a type are expected in the order in
which the steps name them. -/
def steps : List Step :=
  typeNames.map .declareType ++
  frameTypes.map .declareFrameType ++
  (attributes ++ propertyAttributes).map (fun (type, a) => .declareAttribute type a) ++
  [.extraChildren controller, .extraAttributes controller, .extraChildren state] ++
  define 0 frameDef.succ ++ [.shareChild desc frameDef] ++
  define constantDef animationDef ++
  variants.flatMap (fun (_, type) => [.shareChild type frameDef, .shareChild type constantDef]) ++
  define animationDef definitions.length ++
  variants.tail.flatMap (fun (_, type) =>
    (definitionsFrom animationDef).map fun d => .shareChild type d) ++
  [animation, stateGroup].flatMap fun type =>
    (definitionsFrom propertyDef ++ [constantDef]).map fun d => .shareChild type d

end Layout

/-- The schema of the layout dialect. -/
def layout : Schema :=
  assemble Layout.steps

end LayoutMarkup.Schema
