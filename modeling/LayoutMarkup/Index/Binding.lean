import LayoutMarkup.Index.Basic

/-!
# Binding and unbinding

Binding a document adds its declarations to the index. The elements are visited in their order, so
that each one comes after its parent. Frames, animations and groups of states that stand in a file
or in a frame get an entry; a declaration without a name gets a numbered one, and if none is free it
is left out with everything in it. Below an animation or a group of states only constants and
handles count. Only the first top-level element is looked at.

Unbinding takes out what the record of the document says, the entries last and innermost first.
-/

namespace LayoutMarkup

/-- The name of the handle that a property declares: the value of its attribute `val`, if that is
of the handle kind. -/
def Element.handle? (e : Element) (schema : Schema) : Option String := do
  let type ← e.type.bind schema.type?
  let declared ← type.attribute? "val"
  guard (declared.valueType.kind = .handle)
  let name ← e.attributeValue? "val"
  guard (name ≠ "")
  return name

/-- The stem of the numbered names of an element: its `type`, or else its tag. -/
def Element.nameStem (e : Element) : String :=
  (e.attributeValue? "type").getD e.tagText

namespace Index

/-- Why a document cannot be bound or unbound. -/
inductive Error where
  /-- The document is bound with another text. -/
  | alreadyBound (doc : DocumentId)
  /-- The document is not bound. -/
  | notBound (doc : DocumentId)
  /-- A number led nowhere. -/
  | fault (fault : Fault)
  deriving DecidableEq, Repr

/-- The wording of an error. -/
def Error.message : Error → String
  | alreadyBound doc => s!"document #{doc} is already bound with different content"
  | notBound doc => s!"document #{doc} is not bound"
  | fault (.missingEntry id) => s!"no entry in slot {id}"
  | fault (.missingNode id) => s!"no node {id}"

/-- The first of `count` numbered names, from `number` on, that is not taken. -/
def firstFree? (taken : String → Bool) (stem : String) : (count number : Nat) → Option String
  | 0, _ => none
  | count + 1, number =>
    let name := Name.numbered stem number
    if taken name then firstFree? taken stem count (number + 1) else some name

/-- The name that an element declares in a scope: its own, or the first numbered one that is
free. -/
def nameFor? (ix : Index) (scope : EntryId) (e : Element) : Except Fault (Option String) :=
  match e.attributeValue? "name" with
  | some name => .ok (some name)
  | none => do
    let entry ← ix.entry scope
    return firstFree? entry.children.contains e.nameStem ix.nameLimit 0

/-- Where the declarations below an element go. -/
structure Place where
  /-- The entry they belong to. -/
  scope : EntryId
  /-- Whether they get entries of their own. -/
  declares : Bool
  deriving DecidableEq, Repr

/-- A document on its way into the index. -/
structure Walk where
  /-- The index so far. -/
  index : Index
  /-- What was added so far. -/
  record : Record
  /-- For each element visited, where the declarations below it go, if anywhere. -/
  places : Array (Option Place) := #[]

namespace Walk

/-- Notes where the declarations below the element just visited go. -/
def leave (w : Walk) (place : Option Place) : Walk :=
  { w with places := w.places.push place }

/-- Where an element belongs: where its parent says, or in the file if it is the first top-level
one. -/
def placeOf (w : Walk) (doc : Document) (id : ElementId) (e : Element) : Option Place :=
  match e.parent with
  | none => none
  | some parent =>
    -- The root element was visited too, but it is no place for declarations.
    if parent = .root then
      if doc.declared? = some id then some ⟨w.record.file, true⟩ else none
    else
      w.places[parent]?.join

/-- Registers a constant. -/
def addConstant (w : Walk) (d : Declaration) (name : String) : Walk :=
  { w with
    index := { w.index with constants := w.index.constants.add name d }
    record := { w.record with constants := w.record.constants ++ [(name, d.element)] } }

/-- Registers a handle. -/
def addHandle (w : Walk) (d : Declaration) (name : String) : Walk :=
  { w with
    index := { w.index with handles := w.index.handles.add name d }
    record := { w.record with handles := w.record.handles ++ [(name, d.element)] } }

/-- Registers an entry as an extension of what has its name in another file. -/
def addExtension (w : Walk) (id : EntryId) (file : String) : Walk :=
  let relative := w.index.relativeName id
  { w with
    index := { w.index with extensions := w.index.extensions.acquire file relative id }
    record := { w.record with extensions := w.record.extensions ++ [(file, relative, id)] } }

/-- Registers an entry as one that refers to a template. -/
def addTemplate (w : Walk) (id : EntryId) (template : String) : Walk :=
  { w with
    index := { w.index with templates := w.index.templates.acquire template id }
    record := { w.record with templates := w.record.templates ++ [(template, id)] } }

/-- Adds a declaration to the entry of a name in a scope. -/
def addDeclaration (w : Walk) (d : Declaration) (scope : EntryId) (name : String)
    (kind : EntryKind) : Except Fault (Walk × EntryId) := do
  let (index, id) ← w.index.child scope name kind
  let index ← index.adjust id fun e => { e with declarations := e.declarations.insert d }
  return ({ w with
    index
    record := { w.record with bindings := w.record.bindings.insert d.element id } }, id)

/-- Binds an element that declares an entry of a kind, if there is a name for it. -/
def declare (w : Walk) (d : Declaration) (e : Element) (scope : EntryId) (kind : EntryKind) :
    Except Fault (Option (Walk × EntryId)) := do
  match ← w.index.nameFor? scope e with
  | none => return none
  | some name =>
    let (w, id) ← w.addDeclaration d scope name kind
    let w := (e.attributeValue? "file").elim w (w.addExtension id)
    let w := (e.attributeValue? "template").elim w (w.addTemplate id)
    return some (w, id)

/-- Visits an element in its place. -/
def visitIn (w : Walk) (schema : Schema) (d : Declaration) (e : Element) (place : Place) :
    Except Fault Walk :=
  match e.kind schema with
  -- Nothing below a constant or a property is looked at.
  | .constant => return ((e.attributeValue? "name").elim w (w.addConstant d)).leave none
  | .frameProperty => return ((e.handle? schema).elim w (w.addHandle d)).leave none
  | kind =>
    match EntryKind.ofNodeKind? kind with
    | some entryKind =>
      if place.declares then do
        match ← w.declare d e place.scope entryKind with
        | some (w, id) => return w.leave (some ⟨id, kind = .frame⟩)
        | none => return w.leave none
      else
        -- Below an animation or a group of states: what is inside belongs to the same entry.
        return w.leave (some place)
    | none => return w.leave (some place)

/-- Visits the next element. -/
def visit (w : Walk) (schema : Schema) (id : DocumentId) (doc : Document) (e : Element) :
    Except Fault Walk :=
  let element := w.places.size
  match w.placeOf doc element e with
  | some place => w.visitIn schema ⟨id, element⟩ e place
  | none => return w.leave none

end Walk

/-- Begins to bind a document: the entry of its name gets a declaration. -/
def beginBinding (ix : Index) (id : DocumentId) (doc : Document) : Except Fault Walk := do
  let (ix, file) ← ix.child .root doc.name .file
  let ix ← ix.adjust file fun e =>
    { e with declarations := e.declarations.insert ⟨id, .root⟩ }
  return { index := ix, record := { file, text := doc.text } }

/-- Adds the declarations of a document that is not bound. -/
def addDocument (ix : Index) (schema : Schema) (id : DocumentId) (doc : Document) :
    Except Fault (Index × EntryId) := do
  let w ← ix.beginBinding id doc
  let w ← doc.elements.toList.foldlM (fun w e => w.visit schema id doc e) w
  return ({ w.index with records := w.index.records.insert id w.record }, w.record.file)

/-- Binds a document and tells the entry of its name. A document that is bound with the same text
stays as it is. -/
def bind (ix : Index) (schema : Schema) (id : DocumentId) (doc : Document) :
    Except Error (Index × EntryId) :=
  match ix.records.get? id with
  | some record =>
    if record.text = doc.text then .ok (ix, record.file) else .error (.alreadyBound id)
  | none => (ix.addDocument schema id doc).mapError .fault

/-- Takes the registrations in a record out of the tables. -/
def dropReferences (ix : Index) (id : DocumentId) (record : Record) : Index :=
  { ix with
    constants := record.constants.foldl (fun t (name, e) => t.remove name ⟨id, e⟩) ix.constants
    handles := record.handles.foldl (fun t (name, e) => t.remove name ⟨id, e⟩) ix.handles
    templates := record.templates.foldl (fun t (key, entry) => t.release key entry) ix.templates
    extensions := record.extensions.foldl
      (fun t (file, relative, entry) => t.release file relative entry) ix.extensions }

/-- Takes a declaration out of an entry. -/
def dropDeclaration (ix : Index) (id : EntryId) (d : Declaration) : Except Fault Index :=
  ix.adjust id (·.withoutDeclaration d)

/-- Takes the declarations of a document out of the entries, the last bound first. -/
def dropBindings (ix : Index) (id : DocumentId) (bindings : List (ElementId × EntryId)) :
    Except Fault Index :=
  -- Inner declarations were bound later, so they are gone before the outer ones are pruned.
  bindings.reverse.foldlM (fun ix (element, entry) => do
    (← ix.dropDeclaration entry ⟨id, element⟩).prune entry) ix

/-- Takes the declaration of a document out of the entry of its name, and the entry out of the
index if nothing keeps it. -/
def dropFile (ix : Index) (id : DocumentId) (file : EntryId) : Except Fault Index := do
  let ix ← ix.dropDeclaration file ⟨id, .root⟩
  return if (← ix.entry file).isOrphan then ix.release file else ix

/-- Takes a bound document out, given its record. -/
def removeDocument (ix : Index) (id : DocumentId) (record : Record) : Except Fault Index := do
  let ix := { ix with records := ix.records.erase id }.dropReferences id record
  (← ix.dropBindings id record.bindings.entries).dropFile id record.file

/-- Takes a bound document out. -/
def unbind (ix : Index) (id : DocumentId) : Except Error Index :=
  match ix.records.get? id with
  | none => .error (.notBound id)
  | some record => (ix.removeDocument id record).mapError .fault

end Index

end LayoutMarkup
