import LayoutMarkup.Text.Name

/-!
# Folders and file names

A folder holds files and other folders under their paths. What a workspace wants from it is the text
at a path, and from the path the name of a document.
-/

namespace LayoutMarkup

/-- What a folder holds under a path. -/
inductive FileContent where
  /-- A file with a text. -/
  | text (content : String)
  /-- A file with any bytes. -/
  | bytes (content : ByteArray)
  /-- A folder. -/
  | folder

/-- Files and folders under their paths. -/
structure Folder where
  /-- The content under each path. -/
  files : List (String × FileContent) := []

/-- Why there is no text at a path. -/
inductive ReadError where
  /-- Nothing is there. -/
  | notFound
  /-- The path goes on behind a file. -/
  | notFolder
  /-- A folder is there. -/
  | isFolder
  /-- The bytes of the file are not UTF-8. -/
  | invalidText
  deriving DecidableEq, Repr

namespace FilePath

/-- The parts of a path that name something: no empty ones, and no `.`. -/
def parts (path : String) : List String :=
  (Name.splitPath path).filter (· ≠ ".")

/-- The last part of a path, unless it leads upwards. -/
def fileName? (path : String) : Option String :=
  (parts path).getLast?.filter (· ≠ "..")

/-- A file name without what follows its last dot. A dot in front does not count. -/
def stem (name : String) : String :=
  let behind := name.toList.reverse.takeWhile (· ≠ '.')
  let before := name.toList.take (name.length - behind.length - 1)
  if before.isEmpty then name else String.ofList before

/-- The name of the document at a path: the stem of its file name, or the whole path if that has
none. -/
def documentName (path : String) : String :=
  ((fileName? path).map stem).getD path

/-- A place that a path leads to. -/
inductive Place where
  /-- The place in the folder under a list of names; without names it is the folder itself. -/
  | inside (names : List String)
  /-- A folder above. -/
  | above
  deriving DecidableEq, Repr

/-- The place one part of a path further. Of the folders above nothing else is known. -/
def Place.enter? : Place → String → Option Place
  | place, "" | place, "." => some place
  | inside [], ".." | above, ".." => some above
  | inside names, ".." => some (inside names.dropLast)
  | inside names, name => some (inside (names ++ [name]))
  | above, _ => none

end FilePath

namespace Folder

open FilePath (Place)

/-- What is at a place. Names that those of a file begin with are a folder. -/
def contentAt? (folder : Folder) : Place → Option FileContent
  | .above | .inside [] => some .folder
  | .inside names =>
    match folder.files.find? fun (file, _) => FilePath.parts file == names with
    | some (_, content) => some content
    | none =>
      if folder.files.any fun (file, _) => names.isPrefixOf (FilePath.parts file) then
        some .folder
      else
        none

/-- Goes one part of a path further, which only a folder allows. -/
def enter (folder : Folder) (place : Place) (part : String) : Except ReadError Place :=
  match folder.contentAt? place, place.enter? part with
  | some .folder, some next => .ok next
  | some .folder, none | none, _ => .error .notFound
  | some _, _ => .error .notFolder

/-- What is at a path. A path with a slash in front begins at the topmost folder. -/
def content (folder : Folder) (path : String) : Except ReadError FileContent := do
  if path = "" then throw .notFound
  let start := if path.toList.head? = some Name.separator then Place.above else .inside []
  let parts := (Name.pieces path.toList).map String.ofList
  let place ← parts.foldlM folder.enter start
  match folder.contentAt? place with
  | some content => return content
  | none => throw .notFound

/-- Whether there is anything at a path. -/
def contains (folder : Folder) (path : String) : Bool :=
  (folder.content path).toOption.isSome

/-- The text at a path. -/
def read (folder : Folder) (path : String) : Except ReadError String := do
  match ← folder.content path with
  | .text content => return content
  | .bytes content =>
    match String.fromUTF8? content with
    | some text => return text
    | none => throw .invalidText
  | .folder => throw .isFolder

end Folder

end LayoutMarkup
