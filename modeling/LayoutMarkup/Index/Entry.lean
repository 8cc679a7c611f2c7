import LayoutMarkup.Document.Basic
import LayoutMarkup.Text.Name

/-!
# Entries

The index keeps a tree of names. An entry is one name in one scope, with all the elements that
declare it, whatever document they stand in. It knows its path from the root and the slots of its
parent and of its children.
-/

namespace LayoutMarkup

/-- The number of a document, given by its owner. -/
abbrev DocumentId := Nat

/-- The slot of an entry in its index. -/
abbrev EntryId := Nat

/-- The slot of the root entry. -/
def EntryId.root : EntryId := 0

/-- An element of a document. -/
structure Declaration where
  /-- The document. -/
  document : DocumentId
  /-- The element in it. -/
  element : ElementId
  deriving DecidableEq, Repr

/-- What an entry stands for. -/
inductive EntryKind where
  /-- The top of the tree. -/
  | root
  /-- All documents of a name. -/
  | file
  /-- A frame. -/
  | frame
  /-- An animation. -/
  | animation
  /-- A group of states. -/
  | stateGroup
  /-- Nothing any more: only its children keep the entry. -/
  | undeclared
  deriving DecidableEq, Repr

/-- The kind of entry that elements of a role declare. -/
def EntryKind.ofNodeKind? : NodeKind → Option EntryKind
  | .frame => some .frame
  | .animation => some .animation
  | .stateGroup => some .stateGroup
  | .constant | .frameProperty | .other => none

/-- Whether the entry is the root or a file, which is not pruned with its last declaration. -/
def EntryKind.isScope : EntryKind → Bool
  | root | file => true
  | frame | animation | stateGroup | undeclared => false

/-- A name in a scope. -/
structure Entry where
  /-- What the entry stands for. -/
  kind : EntryKind
  /-- The names from below the root down to the entry. -/
  path : List String
  /-- The slot of the scope. -/
  parent : Option EntryId
  /-- The slots of the names in the entry, first declared first. -/
  children : OrderedMap String EntryId := ∅
  /-- The elements that declare the entry, first bound first. -/
  declarations : OrderedSet Declaration := ∅
  deriving DecidableEq

namespace Entry

/-- The name of the entry; the root has the empty one. -/
def name (e : Entry) : String :=
  e.path.getLastD ""

/-- Whether nothing keeps the entry. -/
def isOrphan (e : Entry) : Bool :=
  e.declarations.isEmpty && e.children.isEmpty

/-- Takes a declaration out. An entry that only its children keep stands for nothing any more. -/
def withoutDeclaration (e : Entry) (d : Declaration) : Entry :=
  let left := { e with declarations := e.declarations.erase d }
  if left.declarations.isEmpty && !left.kind.isScope && !left.children.isEmpty then
    { left with kind := .undeclared }
  else
    left

end Entry

end LayoutMarkup
