import LayoutMarkup.Index.Basic

/-!
# Hierarchy trees

The index says what each file declares; a hierarchy is what a frame contains once templates and
extensions are merged in. It is built as a tree of nodes. Each node lists the entries that
contribute to it, the highest precedence first. Nodes are numbered in the order in which they are
made, so a node comes after its parent. A tree may have several roots.
-/

namespace LayoutMarkup.Hierarchy

/-- The number of a node in its tree. -/
abbrev NodeId := Nat

/-- What a node stands for. -/
inductive Kind where
  /-- A file or the top of the index. -/
  | root
  /-- A frame. -/
  | frame
  /-- An animation. -/
  | animation
  /-- A group of states. -/
  | stateGroup
  /-- Anything else. -/
  | other
  deriving DecidableEq, Repr

/-- The kind of node that an entry makes. -/
def Kind.ofEntryKind : EntryKind → Kind
  | .root | .file => root
  | .frame => frame
  | .animation => animation
  | .stateGroup => stateGroup
  | .undeclared => other

/-- A node of a hierarchy. -/
structure Node where
  /-- Its name. -/
  name : String
  /-- What it stands for. -/
  kind : Kind
  /-- The node it stands below. -/
  parent : Option NodeId
  /-- The nodes below it under their names, first made first. -/
  children : OrderedMap String NodeId := ∅
  /-- The entries that contribute to it, the highest precedence first. -/
  contributors : OrderedSet EntryId
  /-- Whether all nodes below it are there. -/
  built : Bool := false
  /-- The elements in its declarations, once they were asked for. -/
  rawChildren : Option (List Declaration) := none
  deriving DecidableEq

/-- Nodes of one or several hierarchies. -/
structure Tree where
  /-- The nodes by number. -/
  nodes : Array Node := #[]
  deriving DecidableEq

namespace Tree

/-- The number of nodes. -/
def size (t : Tree) : Nat :=
  t.nodes.size

/-- The node with a number. -/
def node? (t : Tree) (id : NodeId) : Option Node :=
  t.nodes[id]?

/-- The node with a number that should be there. -/
def node (t : Tree) (id : NodeId) : Except Fault Node :=
  match t.node? id with
  | some node => .ok node
  | none => .error (.missingNode id)

/-- Changes a node that should be there. -/
def adjust (t : Tree) (id : NodeId) (f : Node → Node) : Except Fault Tree := do
  let node ← t.node id
  return ⟨t.nodes.setIfInBounds id (f node)⟩

/-- The node of a name below another. -/
def child? (t : Tree) (parent : NodeId) (name : String) : Option NodeId :=
  (t.node? parent).bind (·.children.get? name)

/-- The node that names lead to from another. -/
def descendant? (t : Tree) (id : NodeId) (names : List String) : Option NodeId :=
  names.foldlM t.child? id

/-- The node that names lead to from another, when all nodes on the way should be there. -/
def descendant (t : Tree) : NodeId → List String → Except Fault (Option NodeId)
  | id, [] => .ok (some id)
  | id, name :: names => do
    match (← t.node id).children.get? name with
    | some child => t.descendant child names
    | none => return none

/-- The nodes that a node stands below, the nearest first. -/
def ancestors (t : Tree) (id : NodeId) : List NodeId :=
  match (t.node? id).bind (·.parent) with
  | some parent => if parent < id then parent :: t.ancestors parent else []
  | none => []
termination_by id

/-- The names from the root down to a node. -/
def path (t : Tree) (id : NodeId) : Except Fault (List String) :=
  (id :: t.ancestors id).reverse.mapM fun id => do return (← t.node id).name

/-- Adds a node for an entry without a parent. -/
def addRoot (t : Tree) (entry : EntryId) (name : String) (kind : Kind) : Tree × NodeId :=
  (⟨t.nodes.push { name, kind, parent := none, contributors := .singleton entry }⟩, t.size)

/-- Lets an entry contribute to the node of its name below another, made if it is missing. On a
node that is there the entry takes precedence over the others. -/
def addChild (t : Tree) (parent : NodeId) (entry : EntryId) (name : String) (kind : Kind) :
    Except Fault Tree := do
  match (← t.node parent).children.get? name with
  | some child =>
    t.adjust child fun node => { node with contributors := node.contributors.insertFirst entry }
  | none =>
    let added : Tree := ⟨t.nodes.push
      { name, kind, parent := some parent, contributors := .singleton entry }⟩
    added.adjust parent fun node => { node with children := node.children.insert name t.size }

end Tree

end LayoutMarkup.Hierarchy
