import LayoutMarkup.Index.Entry

/-!
# References

Beside its tree the index keeps tables that are read backwards: which entries refer to a template or
extend an entry of another file, and which elements declare a constant or a handle. A name that
nothing is registered under is not in a table.
-/

namespace LayoutMarkup

/-- Entries that are registered under a key, each with the number of its registrations. -/
abbrev Referrers := OrderedMap EntryId Nat

namespace Referrers

/-- Registers an entry once more. -/
def acquire (r : Referrers) (id : EntryId) : Referrers :=
  r.upsert id 0 (· + 1)

/-- Takes one registration of an entry back. -/
def release (r : Referrers) (id : EntryId) : Referrers :=
  match r.get? id with
  | none => r
  | some count => if count ≤ 1 then r.erase id else r.insert id (count - 1)

end Referrers

/-- Keys with the entries that are registered under them. -/
abbrev ReferrerTable := OrderedMap String Referrers

namespace ReferrerTable

/-- Registers an entry under a key. -/
def acquire (t : ReferrerTable) (key : String) (id : EntryId) : ReferrerTable :=
  t.upsert key ∅ (·.acquire id)

/-- Takes one registration of an entry under a key back. -/
def release (t : ReferrerTable) (key : String) (id : EntryId) : ReferrerTable :=
  match t.get? key with
  | none => t
  | some r => if (r.release id).isEmpty then t.erase key else t.insert key (r.release id)

end ReferrerTable

/-- Names of files and names in them, with the entries that extend what is there. -/
abbrev ExtensionTable := OrderedMap String ReferrerTable

namespace ExtensionTable

/-- Registers an entry as an extension of a name in a file. -/
def acquire (t : ExtensionTable) (file relative : String) (id : EntryId) : ExtensionTable :=
  t.upsert file ∅ (·.acquire relative id)

/-- Takes one registration of an extension back. -/
def release (t : ExtensionTable) (file relative : String) (id : EntryId) : ExtensionTable :=
  match t.get? file with
  | none => t
  | some names =>
    if (names.release relative id).isEmpty then t.erase file
    else t.insert file (names.release relative id)

/-- The entries that extend a name in a file. -/
def referrers? (t : ExtensionTable) (file relative : String) : Option Referrers :=
  (t.get? file).bind (·.get? relative)

end ExtensionTable

/-- Names with the elements that declare them, first bound first. -/
abbrev CrossReferences := OrderedMap String (OrderedSet Declaration)

namespace CrossReferences

/-- Adds a declaration of a name. -/
def add (t : CrossReferences) (name : String) (d : Declaration) : CrossReferences :=
  t.upsert name ∅ (·.insert d)

/-- Takes a declaration of a name out. -/
def remove (t : CrossReferences) (name : String) (d : Declaration) : CrossReferences :=
  match t.get? name with
  | none => t
  | some set => if (set.erase d).isEmpty then t.erase name else t.insert name (set.erase d)

end CrossReferences

end LayoutMarkup
