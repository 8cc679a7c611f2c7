import LayoutMarkup.Diagnostic.Cause
import LayoutMarkup.Document.Basic

/-!
# Validation

The attributes of a typed element are checked against its type: a required attribute that is missing
is an error, an attribute that the type neither declares nor welcomes is a warning. Attributes
without a declaration first fill the indeterminate places of the type, in the order of the source.
-/

namespace LayoutMarkup

namespace Element

/-- The required attributes of a type that an element lacks. -/
def missingAttributes (e : Element) (type : ComplexType) : List AttributeDef :=
  type.attributes.values.filter fun a => a.required && !e.hasAttribute a.name

/-- The attributes of an element that have no place in a type. -/
def unknownAttributes (e : Element) (type : ComplexType) : List Attribute :=
  if type.extraAttributes then []
  else
    -- The first ones fill the indeterminate places.
    let undeclared := e.attributes.entries.filter fun (key, _) => (type.attribute? key).isNone
    (undeclared.drop type.indeterminate.size).map Prod.snd

/-- What there is to say about the attributes of an element of a type. -/
def validate (e : Element) (type : ComplexType) : List Diagnostic :=
  (e.missingAttributes type).map (fun a =>
    (Cause.missingAttribute a.name e.tagText).on e.markSpan) ++
  (e.unknownAttributes type).map fun a =>
    (Cause.unknownAttribute a.name e.tagText).on a.nameSpan

end Element

/-- What there is to say about the attributes of all elements but the root, in their order. -/
def validateElements (schema : Schema) (elements : Array Element) : List Diagnostic :=
  elements.toList.tail.flatMap fun e =>
    match e.type.bind schema.type? with
    | some type => e.validate type
    | none => []

end LayoutMarkup
