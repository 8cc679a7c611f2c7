import LayoutMarkup.Config.Basic
import LayoutMarkup.Workspace.Folder

/-!
# Loading a configuration

A configuration is loaded from a given path, or else from the file of a fixed name in the working
folder, or else the standard one is taken.
-/

namespace LayoutMarkup.Config

/-- The name of the configuration file in the working folder. -/
def localFile : String := "uidesc.toml"

/-- Loads the configuration at a path. -/
def loadFile (folder : Folder) (path : String) : Except Error Config :=
  match folder.read path with
  | .ok text => parse text
  | .error .notFound | .error .notFolder => .error (.missingFile path)
  | .error _ => .error (.unreadable path)

/-- Loads the configuration at a path, if one is given, or the local or the standard one. -/
def load (folder : Folder) (path : Option String) : Except Error Config :=
  match path with
  | some path => loadFile folder path
  | none => if folder.contains localFile then loadFile folder localFile else .ok {}

end LayoutMarkup.Config
