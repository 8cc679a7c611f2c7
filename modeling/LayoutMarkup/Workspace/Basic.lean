import LayoutMarkup.Config.Basic
import LayoutMarkup.Document.Parse
import LayoutMarkup.Hierarchy.Selection
import LayoutMarkup.Index.Binding
import LayoutMarkup.Selector.Parse
import LayoutMarkup.Workspace.Folder

/-!
# Workspaces

A workspace holds open documents together with the index of their declarations. Documents are
numbered in the order of opening, and no number is given twice. The documents that are open are
those that are bound in the index, each with its current text.
-/

namespace LayoutMarkup

/-- Open documents and their declarations. -/
structure Workspace where
  /-- The schema that texts are read against. -/
  schema : Schema
  /-- The settings. -/
  config : Config
  /-- The open documents. -/
  documents : OrderedMap DocumentId Document := ∅
  /-- The path of each open document. -/
  paths : OrderedMap DocumentId String := ∅
  /-- The number of the next document to be opened. -/
  nextId : DocumentId := 0
  /-- The declarations of the open documents. -/
  index : Index

namespace Workspace

/-- Why a workspace does not do what it is asked. -/
inductive Error where
  /-- No open document has the number. -/
  | unknownDocument (id : DocumentId)
  /-- The index refuses a document. -/
  | index (error : Index.Error)
  /-- There is no text at the path. -/
  | read (error : ReadError)
  deriving DecidableEq, Repr

/-- The wording of an error. -/
def Error.message : Error → String
  | unknownDocument id => s!"Unknown document: #{id}"
  | index error => s!"Index error: {error.message}"
  | read _ => "I/O error"

/-- Why a selector is not followed. -/
inductive SelectError where
  /-- It cannot be read. -/
  | selector (diagnostic : Diagnostic)
  /-- A number led nowhere. -/
  | fault (fault : Fault)
  deriving DecidableEq, Repr

/-- The workspace without documents. -/
def empty (schema : Schema) (config : Config) : Workspace :=
  { schema, config, index := .empty config.nameLimit }

/-- The type of the top of a document, if the schema knows it. -/
def rootType? (ws : Workspace) : Option TypeId :=
  ws.schema.typeId? ws.config.rootType

/-- Reads a text as a document of this workspace. -/
def parse (ws : Workspace) (name text : String) : Document :=
  Document.parse name text ws.schema ws.rootType?

/-- Opens a text as the document at a path. -/
def openText (ws : Workspace) (path text : String) : Except Error (Workspace × DocumentId) := do
  let id := ws.nextId
  let doc := ws.parse (FilePath.documentName path) text
  let (index, _) ← (ws.index.bind ws.schema id doc).mapError .index
  return ({ ws with
    index
    documents := ws.documents.insert id doc
    paths := ws.paths.insert id path
    nextId := id + 1 }, id)

/-- Opens the file at a path of a folder. -/
def openFile (ws : Workspace) (folder : Folder) (path : String) :
    Except Error (Workspace × DocumentId) := do
  ws.openText path (← (folder.read path).mapError .read)

/-- Gives an open document another text. -/
def update (ws : Workspace) (id : DocumentId) (text : String) : Except Error Workspace :=
  match ws.documents.get? id with
  | none => .error (.unknownDocument id)
  | some old => do
    -- The name stays: only the text is another one.
    let index ← (ws.index.unbind id).mapError .index
    let doc := ws.parse old.name text
    let (index, _) ← (index.bind ws.schema id doc).mapError .index
    return { ws with index, documents := ws.documents.insert id doc }

/-- Closes an open document and gives it back. -/
def close (ws : Workspace) (id : DocumentId) : Except Error (Workspace × Document) :=
  match ws.documents.get? id with
  | none => .error (.unknownDocument id)
  | some doc => do
    let index ← (ws.index.unbind id).mapError .index
    return ({ ws with
      index
      documents := ws.documents.erase id
      paths := ws.paths.erase id }, doc)

/-- What hierarchies are built from in this workspace. -/
def sources (ws : Workspace) : Hierarchy.Sources where
  index := ws.index
  documents := ws.documents
  schema := ws.schema
  maxDepth := ws.config.maxDepth

/-- Builds the node of an entry and follows a selector from there. Without a node nothing is
selected. -/
def resolve (ws : Workspace) (tree : Hierarchy.Tree) (entry : EntryId) (selector : String) :
    Except SelectError (Hierarchy.Tree × Hierarchy.Selection) := do
  let fragments ← (Selector.parse selector).mapError .selector
  match ← (ws.sources.buildNode tree entry).mapError .fault with
  | (tree, some node) => (ws.sources.select tree node fragments).mapError .fault
  | (tree, none) => return (tree, ⟨[], fragments.length⟩)

end Workspace

end LayoutMarkup
