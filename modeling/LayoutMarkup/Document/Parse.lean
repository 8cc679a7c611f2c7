import LayoutMarkup.Document.Draft
import LayoutMarkup.Document.Validation

/-!
# Reading a document

A text is cut into tokens, the tokens make the element tree, and the tree is validated. Every text
is a document; what is wrong with it stands in the diagnostics, those of the validation last.
-/

namespace LayoutMarkup.Document

/-- Reads a text as a document. The root type gives types to the top-level elements; without one
the whole tree stays untyped. -/
def parse (name text : String) (schema : Schema) (rootType : Option TypeId) : Document :=
  let draft := Draft.ofText schema rootType text
  { name, text
    elements := draft.elements
    diagnostics := draft.log.toList ++ validateElements schema draft.elements }

end LayoutMarkup.Document
