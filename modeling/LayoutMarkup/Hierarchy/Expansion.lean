import LayoutMarkup.Hierarchy.Tree

/-!
# Expansion

The contributors of a node are its own entries together with the entries that extend them from other
files and the entries that their first declarations name as templates, and so on. Extensions take
precedence over what they extend, and templates come last. Below a node there is one node for each
name that a contributor has a child of.

Expansion is lazy: a node can be expanded by one level, along a path, or as a whole. A whole
expansion stops at a node that shares a contributor with a node above it, since its template then
leads back to that node.
-/

namespace LayoutMarkup.Hierarchy

/-- What hierarchies are built from. -/
structure Sources where
  /-- The declarations. -/
  index : Index
  /-- The documents they stand in. -/
  documents : OrderedMap DocumentId Document
  /-- The schema. -/
  schema : Schema
  /-- The deepest level that is expanded below a node. -/
  maxDepth : Nat

namespace Sources

/-! ## Elements behind entries -/

/-- The element that a declaration stands for. -/
def element? (src : Sources) (d : Declaration) : Option Element :=
  (src.documents.get? d.document).bind (·.get? d.element)

/-- The element of the first declaration of an entry. -/
def firstElement? (src : Sources) (id : EntryId) : Option Element := do
  let entry ← src.index.entry? id
  guard (entry.kind ≠ .root)
  src.element? (← entry.declarations.first?)

/-- The entry that the first declaration of an entry names as its template. -/
def template? (src : Sources) (id : EntryId) : Option EntryId := do
  let path ← (← src.firstElement? id).attributeValue? "template"
  guard (Name.splitPath path ≠ [])
  src.index.lookup? path

/-! ## Contributors -/

/-- Entries met and entries collected on the way through contributors. -/
structure Gathering where
  /-- The entries met. -/
  visited : OrderedSet EntryId := ∅
  /-- The entries collected, the highest precedence first. -/
  found : OrderedSet EntryId := ∅
  deriving DecidableEq

/-- Collects an entry that was not met before: first what extends it, then itself, then its
template. Every entry met on the way down is a new one, so `depth` need not exceed the number of
entries. -/
def gather (src : Sources) : (depth : Nat) → Gathering → EntryId → Gathering
  | 0, g, _ => g
  | depth + 1, g, id =>
    if (src.index.entry? id).isNone ∨ id ∈ g.visited then g
    else
      let g := { g with visited := g.visited.insert id }
      let g := (src.index.extensionsOf id).foldl (src.gather depth) g
      let g := { g with found := g.found.insert id }
      (src.template? id).elim g (src.gather depth g)

/-- All contributors that come with some entries. -/
def contributors (src : Sources) (ids : List EntryId) : OrderedSet EntryId :=
  (ids.foldl (src.gather (src.index.slots.size + 1)) {}).found

/-- Gives a node all the contributors that come with those it has. -/
def closeContributors (src : Sources) (tree : Tree) (id : NodeId) : Except Fault Tree :=
  tree.adjust id fun node =>
    { node with contributors := src.contributors node.contributors.elements }

/-! ## Nodes -/

/-- Makes nodes for the children of one contributor, or for the one of a given name. -/
def addChildren (src : Sources) (only : Option String) (id : NodeId) (tree : Tree)
    (contributor : EntryId) : Except Fault Tree :=
  match src.index.entry? contributor with
  | none => .ok tree
  | some entry =>
    (entry.children.entries.filter fun (name, _) => only.all (· == name)).foldlM
      (fun tree (name, child) => do
        tree.addChild id child name (.ofEntryKind (← src.index.entry child).kind)) tree

/-- Makes nodes for the children of all contributors, or for those of a given name. The lowest
precedence comes first, so that later contributors are put before it. -/
def materialize (src : Sources) (only : Option String) (tree : Tree) (id : NodeId) :
    Except Fault Tree := do
  (← tree.node id).contributors.elements.reverse.foldlM (src.addChildren only id) tree

/-- Makes all nodes directly below a node that has all its contributors. -/
def buildLevel (src : Sources) (tree : Tree) (id : NodeId) : Except Fault Tree := do
  (← src.materialize none tree id).adjust id fun node => { node with built := true }

/-- Makes all nodes directly below a node, unless they are there. -/
def expandLevel (src : Sources) (tree : Tree) (id : NodeId) : Except Fault Tree := do
  if (← tree.node id).built then return tree
  else src.buildLevel (← src.closeContributors tree id) id

/-- Makes the node of a name below a node, unless all nodes below it are there. -/
def expandName (src : Sources) (tree : Tree) (id : NodeId) (name : String) :
    Except Fault Tree := do
  if (← tree.node id).built then return tree
  else src.materialize (some name) (← src.closeContributors tree id) id

/-- Makes the nodes along a path, on at most `depth` levels, and all nodes directly below its
end. -/
def expandPath (src : Sources) : (depth : Nat) → Tree → NodeId → List String → Except Fault Tree
  | 0, tree, _, _ => .ok tree
  | _ + 1, tree, id, [] => src.expandLevel tree id
  | depth + 1, tree, id, name :: path => do
    let tree ← src.expandName tree id name
    match (← tree.node id).children.get? name with
    | some child => src.expandPath depth tree child path
    | none => return tree

/-- Makes all nodes below a node on at most `depth` levels. `lineage` holds the contributors of the
nodes above it. -/
def expandAll (src : Sources) :
    (depth : Nat) → (lineage : List EntryId) → Tree → NodeId → Except Fault Tree
  | 0, _, tree, _ => .ok tree
  | depth + 1, lineage, tree, id => do
    let below (tree : Tree) : Except Fault Tree := do
      let node ← tree.node id
      node.children.values.foldlM (src.expandAll depth (lineage ++ node.contributors.elements)) tree
    if (← tree.node id).built then below tree
    else
      let closed ← src.closeContributors tree id
      -- A template leads back to a node above: the node stays as it is until it is expanded itself.
      if (← closed.node id).contributors.elements.any (· ∈ lineage) then return closed
      else below (← src.buildLevel closed id)

/-- Expands the hierarchy below a node: along a path, or as a whole. -/
def expand (src : Sources) (tree : Tree) (id : NodeId) (path : Option (List String)) :
    Except Fault Tree :=
  match path with
  | some path => src.expandPath (src.maxDepth + 1) tree id path
  | none => src.expandAll (src.maxDepth + 1) [] tree id

/-! ## Building -/

/-- Adds a node for an entry, if there is one in the slot. -/
def createRoot? (src : Sources) (tree : Tree) (id : EntryId) : Option (Tree × NodeId) :=
  (src.index.entry? id).map fun entry => tree.addRoot id entry.name (.ofEntryKind entry.kind)

/-- The other file that a top-level entry of a file reopens with its `file` attribute. -/
def reopenedFile? (src : Sources) (file : String) (top : EntryId) : Option String :=
  ((src.firstElement? top).bind (·.attributeValue? "file")).filter fun target =>
    target ≠ "" ∧ target ≠ file

/-- Follows top-level entries that reopen those of other files. `rest` is the path below the entry.
Every entry on the way is a new one, so `depth` need not exceed the number of entries. -/
def contextFrom? (src : Sources) :
    (depth : Nat) → (visited : List EntryId) → EntryId → (rest : List String) →
      Option (EntryId × List String)
  | 0, _, _, _ => none
  | depth + 1, visited, id, rest => do
    guard (id ∉ visited)
    match (← src.index.entry? id).path with
    | file :: top :: below =>
      let topEntry ← src.index.lookupNames? .root [file, top]
      match src.reopenedFile? file topEntry with
      | some target =>
        let next ← src.index.lookupNames? .root [target, top]
        src.contextFrom? depth (id :: visited) next (below ++ rest)
      | none => return (topEntry, below ++ rest)
    | _ => return (id, rest)

/-- The entry at the top of the hierarchy that an entry belongs to, and the path from there down to
it. A top-level entry that reopens one of another file belongs to the hierarchy of that one; if it
is missing, or the files reopen each other in a circle, there is no hierarchy. -/
def context? (src : Sources) (id : EntryId) : Option (EntryId × List String) :=
  src.contextFrom? (src.index.slots.size + 1) [] id []

/-- Builds the hierarchy that an entry belongs to, deep enough to reach the entry, and tells its
node. -/
def buildNode (src : Sources) (tree : Tree) (id : EntryId) :
    Except Fault (Tree × Option NodeId) :=
  match src.context? id with
  | none => return (tree, none)
  | some (top, path) =>
    match src.createRoot? tree top with
    | none => return (tree, none)
    | some (tree, root) => do
      let tree ← src.expand tree root (some path)
      return (tree, ← tree.descendant root path)

/-! ## Properties of nodes -/

/-- The elements that stand directly in the declarations of some entries. -/
def elementsIn (src : Sources) (ids : List EntryId) : List Declaration :=
  ids.flatMap fun id =>
    ((src.index.entry? id).map (·.declarations.elements)).getD [] |>.flatMap fun d =>
      ((src.element? d).map (·.children)).getD [] |>.map fun child => ⟨d.document, child⟩

/-- The elements that stand directly in the declarations of a node. They are found once; later
calls tell the same. -/
def rawChildren (src : Sources) (tree : Tree) (id : NodeId) :
    Except Fault (Tree × List Declaration) := do
  let node ← tree.node id
  match node.rawChildren with
  | some found => return (tree, found)
  | none =>
    let found := src.elementsIn node.contributors.elements
    return (← tree.adjust id fun node => { node with rawChildren := some found }, found)

/-- Tag and type of the first contributor that has a `type`, as `tag:type`. -/
def effectiveType? (src : Sources) (tree : Tree) (id : NodeId) : Except Fault (Option String) := do
  return (← tree.node id).contributors.elements.findSome? fun entry => do
    let e ← src.firstElement? entry
    let type ← e.attributeValue? "type"
    let tag ← e.tag
    return s!"{tag}:{type}"

/-- The frame type of a frame node: the first `type` of a contributor, or the plain `Frame`. -/
def frameType? (src : Sources) (tree : Tree) (id : NodeId) :
    Except Fault (Option FrameType) := do
  let node ← tree.node id
  if node.kind ≠ .frame then return none
  let name := node.contributors.elements.findSome? fun entry => do
    (← src.firstElement? entry).attributeValue? "type"
  return src.schema.frameType? (name.getD "Frame")

end Sources

end LayoutMarkup.Hierarchy
