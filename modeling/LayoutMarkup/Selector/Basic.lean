/-!
# Selectors

A selector leads from one node of a hierarchy to another. It is a list of fragments; a fragment is
the name of a child or a handle such as `$parent`, written between slashes.
-/

namespace LayoutMarkup.Selector

/-- What an ancestor must fulfil. -/
inductive Predicate where
  /-- `[@name=X]`: its name is `X`. -/
  | name (value : String)
  /-- `[@type=X]`: its frame type is `X`. -/
  | type (value : String)
  /-- `[@oftype=X]`: it belongs to the class of the frame type `X`. -/
  | ofType (value : String)
  deriving DecidableEq, Repr

/-- The predicate in writing. -/
def Predicate.render : Predicate → String
  | name value => s!"[@name={value}]"
  | type value => s!"[@type={value}]"
  | ofType value => s!"[@oftype={value}]"

/-- One step of a selector. -/
inductive Fragment where
  /-- The nearest ancestor, or the nearest one that fulfils a predicate. -/
  | ancestor (predicate : Option Predicate)
  /-- The parent. -/
  | parent
  /-- The node itself. -/
  | this
  /-- A sibling so many places further on. -/
  | sibling (offset : Int)
  /-- The child of a name. -/
  | child (name : String)
  /-- The declaration that holds a handle. -/
  | custom (handle : String)
  /-- The layer. -/
  | layer
  /-- The root. -/
  | root
  deriving DecidableEq, Repr

/-- The fragment in writing. -/
def Fragment.render : Fragment → String
  | ancestor predicate => "$ancestor" ++ predicate.elim "" Predicate.render
  | parent => "$parent"
  | this => "$this"
  | sibling offset =>
    if offset = 0 then "$sibling"
    else if 0 < offset then s!"$sibling+{offset.natAbs}"
    else s!"$sibling-{offset.natAbs}"
  | child name => name
  | custom handle => s!"${handle}"
  | layer => "$layer"
  | root => "$root"

/-- The selector in writing. -/
def render (fragments : List Fragment) : String :=
  "/".intercalate (fragments.map Fragment.render)

end LayoutMarkup.Selector
