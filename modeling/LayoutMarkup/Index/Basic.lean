import LayoutMarkup.Fault
import LayoutMarkup.Index.Reference

/-!
# The index

The index holds the entries of all bound documents in slots. A slot that is given back is used again
before a new one is made, the last one given back first. For each bound document a record says what
binding it added, so that it can be taken out again without looking at its text.
-/

namespace LayoutMarkup

/-- What the binding of a document added to the index. -/
structure Record where
  /-- The entry of the document's name. -/
  file : EntryId
  /-- The text that was bound. -/
  text : String
  /-- The entry of each element that declares one, in the order of binding. -/
  bindings : OrderedMap ElementId EntryId := ∅
  /-- The registrations of templates. -/
  templates : List (String × EntryId) := []
  /-- The registrations of extensions: file, name in the file, and entry. -/
  extensions : List (String × String × EntryId) := []
  /-- The constants declared. -/
  constants : List (String × ElementId) := []
  /-- The handles declared. -/
  handles : List (String × ElementId) := []
  deriving DecidableEq

/-- The declarations of all bound documents. -/
structure Index where
  /-- How many names are tried for a declaration without one. -/
  nameLimit : Nat
  /-- The entries; a slot without one is free. -/
  slots : Array (Option Entry)
  /-- The free slots, the last one given back first. -/
  free : List EntryId := []
  /-- The entries that refer to a template. -/
  templates : ReferrerTable := ∅
  /-- The entries that extend one of another file. -/
  extensions : ExtensionTable := ∅
  /-- The constants. -/
  constants : CrossReferences := ∅
  /-- The handles. -/
  handles : CrossReferences := ∅
  /-- The bound documents in the order of binding. -/
  records : OrderedMap DocumentId Record := ∅
  deriving DecidableEq

namespace Index

/-- The index without documents: only the root entry. -/
def empty (nameLimit : Nat) : Index :=
  { nameLimit, slots := #[some { kind := .root, path := [], parent := none }] }

/-- Forgets all documents. -/
def clear (ix : Index) : Index :=
  empty ix.nameLimit

/-! ## Entries -/

/-- The entry in a slot. -/
def entry? (ix : Index) (id : EntryId) : Option Entry :=
  ix.slots[id]?.join

/-- The entry in a slot that should not be free. -/
def entry (ix : Index) (id : EntryId) : Except Fault Entry :=
  match ix.entry? id with
  | some e => .ok e
  | none => .error (.missingEntry id)

/-- Changes the entry in a slot that should not be free. -/
def adjust (ix : Index) (id : EntryId) (f : Entry → Entry) : Except Fault Index := do
  let e ← ix.entry id
  return { ix with slots := ix.slots.setIfInBounds id (some (f e)) }

/-- Puts an entry into the last slot given back, or into a new one. -/
def allocate (ix : Index) (e : Entry) : Index × EntryId :=
  match ix.free with
  | id :: free => ({ ix with slots := ix.slots.setIfInBounds id (some e), free }, id)
  | [] => ({ ix with slots := ix.slots.push (some e) }, ix.slots.size)

/-- The entry of a name in a scope, made if it is missing. -/
def child (ix : Index) (scope : EntryId) (name : String) (kind : EntryKind) :
    Except Fault (Index × EntryId) := do
  let e ← ix.entry scope
  match e.children.get? name with
  | some id =>
    -- A new declaration says what the entry stands for again.
    if (← ix.entry id).kind = .undeclared then
      return (← ix.adjust id fun e => { e with kind }, id)
    else
      return (ix, id)
  | none =>
    let (ix, id) := ix.allocate { kind, path := e.path ++ [name], parent := some scope }
    return (← ix.adjust scope fun e => { e with children := e.children.insert name id }, id)

/-- Gives a slot back and takes its name out of the scope. -/
def release (ix : Index) (id : EntryId) : Index :=
  match ix.entry? id with
  | none => ix
  | some e =>
    let slots := ix.slots.setIfInBounds id none
    let slots := match e.parent with
      | some scope => slots.modify scope fun slot =>
          slot.map fun p => { p with children := p.children.erase e.name }
      | none => slots
    { ix with slots, free := id :: ix.free }

/-- Gives back the slots of an entry and of its scopes, as many as `depth`, while nothing keeps
them. Files and the root stay. -/
def pruneUp : (depth : Nat) → Index → EntryId → Except Fault Index
  | 0, ix, _ => .ok ix
  | depth + 1, ix, id => do
    let e ← ix.entry id
    if e.kind.isScope || !e.isOrphan then return ix
    match e.parent with
    | some scope => pruneUp depth (ix.release id) scope
    | none => return ix.release id

/-- Gives back the slots of an entry and of its scopes while nothing keeps them. -/
def prune (ix : Index) (id : EntryId) : Except Fault Index := do
  let e ← ix.entry id
  pruneUp e.path.length ix id

/-! ## Queries -/

/-- The number of entries, the root included. -/
def size (ix : Index) : Nat :=
  ix.slots.size - ix.free.length

/-- The entry of a name in a scope. -/
def child? (ix : Index) (scope : EntryId) (name : String) : Option EntryId :=
  (ix.entry? scope).bind (·.children.get? name)

/-- The entry that names lead to from a scope. -/
def lookupNames? (ix : Index) (scope : EntryId) (names : List String) : Option EntryId :=
  names.foldlM ix.child? scope

/-- The entry at a path from the root; the first name is that of a file. -/
def lookup? (ix : Index) (path : String) : Option EntryId :=
  ix.lookupNames? .root (Name.splitPath path)

/-- The names from below the root down to an entry. -/
def pathOf (ix : Index) (id : EntryId) : List String :=
  ((ix.entry? id).map (·.path)).getD []

/-- The whole path of an entry. -/
def fullName (ix : Index) (id : EntryId) : String :=
  Name.joinPath (ix.pathOf id)

/-- The path of an entry below its file. -/
def relativeName (ix : Index) (id : EntryId) : String :=
  Name.joinPath ((ix.pathOf id).drop 1)

/-- The file that an entry belongs to: the one that its path begins with. -/
def owningFile? (ix : Index) (id : EntryId) : Option EntryId :=
  (ix.pathOf id).head?.bind (ix.child? .root)

/-- The entries that extend an entry from elsewhere. -/
def extensionsOf (ix : Index) (id : EntryId) : List EntryId :=
  match (ix.pathOf id).head? with
  | none => []
  | some file =>
    -- An entry may name its own file; it does not extend itself.
    let referrers := ix.extensions.referrers? file (ix.relativeName id)
    ((referrers.map (·.keys)).getD []).filter (· ≠ id)

/-- Whether an entry is of a kind; without a kind any entry will do. -/
def isOfKind (ix : Index) (kind : Option EntryKind) (id : EntryId) : Except Fault Bool :=
  match kind with
  | none => .ok true
  | some kind => do return (← ix.entry id).kind = kind

/-- The first entry of a kind that one of the elements is bound to; the root element stands for
the file. -/
def firstBound? (ix : Index) (record : Record) (kind : Option EntryKind) :
    List ElementId → Except Fault (Option EntryId)
  | [] => .ok none
  | id :: rest => do
    if id = .root then
      return if ← ix.isOfKind kind record.file then some record.file else none
    match record.bindings.get? id with
    | some entry =>
      if ← ix.isOfKind kind entry then return some entry
      else ix.firstBound? record kind rest
    | none => ix.firstBound? record kind rest

/-- The nearest entry of a kind that an element of a document or one of its ancestors is bound
to. -/
def entryOfElement? (ix : Index) (id : DocumentId) (doc : Document) (element : ElementId)
    (kind : Option EntryKind) : Except Fault (Option EntryId) :=
  match ix.records.get? id with
  | none => .ok none
  | some record => ix.firstBound? record kind (doc.ancestors element)

end Index

end LayoutMarkup
