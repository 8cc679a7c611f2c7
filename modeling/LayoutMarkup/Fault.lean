/-!
# Faults

Entries of an index and nodes of a tree refer to each other by number, and numbers of entries are
used again. A fault is a number that leads nowhere. The operations that follow numbers return it
instead of a result.
-/

namespace LayoutMarkup

/-- A number that leads nowhere. -/
inductive Fault where
  /-- No entry of the index has the number. -/
  | missingEntry (id : Nat)
  /-- No node of the tree has the number. -/
  | missingNode (id : Nat)
  deriving DecidableEq, Repr

end LayoutMarkup
