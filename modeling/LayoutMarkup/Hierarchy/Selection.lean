import LayoutMarkup.Hierarchy.Expansion
import LayoutMarkup.Selector.Basic

/-!
# Selection

A selector is followed from a node, one fragment after another. Before the name of a child is looked
up, the node is expanded by one level. A handle of the user's own leads to the hierarchy in which it
is declared. A sibling is stood for by the node itself; layers and roots lead nowhere.
-/

namespace LayoutMarkup.Hierarchy

open Selector (Fragment Predicate)

/-- Where a selector led. -/
structure Selection where
  /-- The nodes that the fragments led to, up to the first fragment that led nowhere. -/
  chain : List NodeId
  /-- The number of fragments. -/
  expected : Nat
  deriving DecidableEq, Repr

namespace Selection

/-- Whether all fragments led somewhere. -/
def isValid (s : Selection) : Bool :=
  s.chain.length == s.expected

/-- The last node that was reached. -/
def deepest? (s : Selection) : Option NodeId :=
  s.chain.getLast?

/-- The node that the whole selector led to. -/
def target? (s : Selection) : Option NodeId :=
  if s.isValid then s.deepest? else none

end Selection

namespace Sources

/-- Whether a node fulfils a predicate on ancestors. A frame type that the schema does not know is
fulfilled by none. -/
def fulfils (src : Sources) (tree : Tree) (predicate : Predicate) (id : NodeId) :
    Except Fault Bool :=
  match predicate with
  | .name value => do return (← tree.node id).name == value
  | .type value => do return (← src.effectiveType? tree id) == some s!"Frame:{value}"
  | .ofType value =>
    match src.schema.frameType? value with
    | some wanted => do return (← src.frameType? tree id).any (·.hasClass wanted.className)
    | none => return false

/-- The nearest ancestor of a node that fulfils a predicate. -/
def ancestor? (src : Sources) (tree : Tree) (id : NodeId) (predicate : Predicate) :
    Except Fault (Option NodeId) := do
  let _ ← tree.node id
  (tree.ancestors id).findM? (src.fulfils tree predicate)

/-- Builds a node for the declaration that holds a handle. -/
def handleNode (src : Sources) (tree : Tree) (handle : String) :
    Except Fault (Tree × Option NodeId) := do
  match (src.index.handles.get? handle).bind (·.first?) with
  | none => return (tree, none)
  | some d =>
    match src.documents.get? d.document with
    | none => return (tree, none)
    | some doc =>
      match ← src.index.entryOfElement? d.document doc d.element none with
      | none => return (tree, none)
      | some entry => src.buildNode tree entry

/-- Follows one fragment from a node. A child is only looked for among the nodes that are there. -/
def followFragment (src : Sources) (tree : Tree) (id : NodeId) :
    Fragment → Except Fault (Tree × Option NodeId)
  | .ancestor none | .parent => do return (tree, (← tree.node id).parent)
  | .ancestor (some predicate) => do return (tree, ← src.ancestor? tree id predicate)
  | .this | .sibling _ => return (tree, some id)
  | .child name => return (tree, tree.child? id name)
  | .custom handle => src.handleNode tree handle
  | .layer | .root => return (tree, none)

/-- Expands a node by one level if the fragment names a child of it. -/
def prepare (src : Sources) (tree : Tree) (id : NodeId) : Fragment → Except Fault Tree
  | .child _ => src.expandLevel tree id
  | _ => return tree

/-- The nodes that fragments lead to from a node, up to the first fragment that leads nowhere. -/
def chain (src : Sources) : Tree → NodeId → List Fragment → Except Fault (Tree × List NodeId)
  | tree, _, [] => .ok (tree, [])
  | tree, id, fragment :: fragments => do
    let tree ← src.prepare tree id fragment
    match ← src.followFragment tree id fragment with
    | (tree, none) => return (tree, [])
    | (tree, some next) =>
      let (tree, rest) ← src.chain tree next fragments
      return (tree, next :: rest)

/-- Follows a selector from a node. -/
def select (src : Sources) (tree : Tree) (id : NodeId) (fragments : List Fragment) :
    Except Fault (Tree × Selection) := do
  let (tree, chain) ← src.chain tree id fragments
  return (tree, ⟨chain, fragments.length⟩)

/-- The child of a name, the node being expanded by one level first. -/
def childNode (src : Sources) (tree : Tree) (id : NodeId) (name : String) :
    Except Fault (Tree × Option NodeId) := do
  let tree ← src.expandLevel tree id
  return (tree, tree.child? id name)

/-- The children of a kind, the node being expanded by one level first. -/
def childrenOfKind (src : Sources) (tree : Tree) (id : NodeId) (kind : Kind) :
    Except Fault (Tree × List NodeId) := do
  let tree ← src.expandLevel tree id
  let children ← (← tree.node id).children.values.filterM fun child => do
    return (← tree.node child).kind = kind
  return (tree, children)

end Sources

end LayoutMarkup.Hierarchy
