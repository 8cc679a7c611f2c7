import LayoutMarkup.Diagnostic.Cause
import LayoutMarkup.Document.Basic
import LayoutMarkup.Token.Basic
import Mathlib.Data.List.Basic

/-!
# Typing

A typing is what the schema has to go by in an element, and what comes of it: its tag, its parent
and its `type` attribute, and its definition and its type. Elements are typed while they come in.
The definition of an element is looked up in the type that its parent has when the tag comes, and
the `type` attribute is looked at when the start tag is closed.

Yet nothing depends on the moment. The start tags in front of an element are closed when it begins,
so only the last typing changes, and no other one depends on it (`Typing.Grown`). Hence every typing
is what the schema makes of the final ones (`Grown.follows`), and there is one remark for each
element that gives cause for it (`Grown.strays_eq`, `Grown.refusals_eq`).
-/

namespace LayoutMarkup

/-! ## The rules -/

/-- The type that the `type` attribute chooses: an alternative, or else the type of the definition.
An attribute without a value chooses the alternative of the empty text. -/
def ElementDef.typeFor (d : ElementDef) (choice : Option Attribute) : TypeId :=
  (choice.bind fun a => d.alternative? (a.value.getD "")).getD d.type

/-- What there is to say about a `type` attribute: nothing, unless there are alternatives and it
chooses none of them. -/
def ElementDef.refusal? (d : ElementDef) (choice : Attribute) : Option Diagnostic :=
  if d.alternatives.isSome ∧ (d.alternative? (choice.value.getD "")).isNone then
    some ((Cause.unknownType (choice.value.getD "") d.name).on
      (choice.valueSpan.getD choice.nameSpan))
  else none

/-- What there is to say about a tag below a type: nothing, unless the type neither expects nor
welcomes it. -/
def ComplexType.stray? (t : ComplexType) (tag : String) (mark : Span) : Option Diagnostic :=
  if (t.children.get? tag).isNone ∧ t.extraChildren = false then
    some ((Cause.unknownElement tag t.name).on mark)
  else none

/-- A `type` attribute that names an alternative chooses it, and nothing is said. -/
theorem ElementDef.typeFor_eq {d : ElementDef} {choice : Attribute} {type : TypeId}
    (h : d.alternative? (choice.value.getD "") = some type) :
    d.typeFor (some choice) = type ∧ d.refusal? choice = none := by
  unfold typeFor refusal?
  rw [Option.bind_some, h]
  exact ⟨rfl, if_neg fun hrefused => Bool.noConfusion hrefused.2⟩

/-- A `type` attribute that names no alternative leaves the type of the definition, and there is
something to say if there are alternatives. -/
theorem ElementDef.typeFor_eq_type {d : ElementDef} {choice : Attribute}
    (h : d.alternative? (choice.value.getD "") = none) :
    d.typeFor (some choice) = d.type ∧ d.refusal? choice =
      if d.alternatives.isSome then
        some ((Cause.unknownType (choice.value.getD "") d.name).on
          (choice.valueSpan.getD choice.nameSpan))
      else none := by
  unfold typeFor refusal?
  rw [Option.bind_some, h]
  exact ⟨rfl, by simp⟩

/-! ## Typings -/

/-- What the schema has to go by in an element, and what comes of it. -/
structure Typing where
  /-- The tag. -/
  tag : Option String
  /-- The part of the text to point at. -/
  mark : Span
  /-- The element it stands in. -/
  parent : Option ElementId
  /-- Whether the start tag is closed. -/
  closed : Bool
  /-- The `type` attribute, once the start tag is closed. -/
  choice : Option Attribute
  /-- The definition. -/
  definition : Option DefinitionId
  /-- The type. -/
  type : Option TypeId
  /-- Whether the `type` attribute names no alternative. -/
  failed : Bool

/-- The typing of an element. -/
def Element.typing (e : Element) : Typing where
  tag := e.tag
  mark := e.markSpan
  parent := e.parent
  closed := e.startTagEnd.isSome
  choice := if e.startTagEnd.isSome then e.attribute? "type" else none
  definition := e.definition
  type := e.type
  failed := e.alternationFailed

namespace Typing

/-- The typing of the root. -/
def root (rootType : Option TypeId) : Typing where
  tag := none
  mark := .point 0
  parent := none
  closed := true
  choice := none
  definition := none
  type := rootType
  failed := false

/-- The type of the parent. -/
def scope? (schema : Schema) (ts : List Typing) (x : Typing) : Option ComplexType :=
  x.parent.bind fun p => (ts[p]?.bind (·.type)).bind schema.type?

/-- What there is to say about the tag. -/
def stray? (schema : Schema) (ts : List Typing) (x : Typing) : Option Diagnostic :=
  (x.scope? schema ts).bind fun scope => x.tag.bind fun tag => scope.stray? tag x.mark

/-- What there is to say about the `type` attribute. -/
def refusal? (schema : Schema) (x : Typing) : Option Diagnostic :=
  (x.definition.bind schema.definition?).bind fun d => x.choice.bind d.refusal?

/-- The typing is what the schema makes of the element among others. -/
structure Follows (schema : Schema) (ts : List Typing) (x : Typing) : Prop where
  /-- The definition is that of the tag below the type of the parent. -/
  definition : x.definition =
    (x.scope? schema ts).bind fun scope => x.tag.bind scope.children.get?
  /-- The type is chosen from the definition. -/
  type : x.type = (x.definition.bind schema.definition?).map (·.typeFor x.choice)
  /-- It fails when there is something to say about the `type` attribute. -/
  failed : x.failed = (x.refusal? schema).isSome

/-- The typing of an element that has just begun. -/
def fresh (mark : Span) (parent : ElementId) : Typing where
  tag := none
  mark
  parent := some parent
  closed := false
  choice := none
  definition := none
  type := none
  failed := false

/-- The typing of an element that gets its tag. -/
def named (schema : Schema) (ts : List Typing) (x : Typing) (token : Token) : Typing :=
  let definition := (x.scope? schema ts).bind (·.children.get? token.text)
  { x with
    tag := some token.text
    mark := token.span
    definition
    type := (definition.bind schema.definition?).map (·.type) }

/-- The typing of an element whose start tag is closed. -/
def settled (schema : Schema) (x : Typing) (choice : Option Attribute) : Typing :=
  let definition := x.definition.bind schema.definition?
  { x with
    closed := true
    choice
    type := definition.map (·.typeFor choice)
    failed := (definition.bind fun d => choice.bind d.refusal?).isSome }

/-! ## The order of events -/

/-- Typings in the order in which the elements begin, with what there is to say about their tags and
about their `type` attributes. An element begins when all start tags before it are closed. -/
inductive Grown (schema : Schema) (rootType : Option TypeId) :
    List Typing → List Diagnostic → List Diagnostic → Prop where
  /-- The root alone. -/
  | root : Grown schema rootType [.root rootType] [] []
  /-- One more element. -/
  | next {ts : List Typing} {strays refusals : List Diagnostic} {x : Typing}
      (h : Grown schema rootType ts strays refusals) (hclosed : ∀ y ∈ ts, y.closed = true)
      (hparent : ∀ {p}, x.parent = some p → p < ts.length) (hx : x.Follows schema ts) :
      Grown schema rootType (ts ++ [x]) (strays ++ (x.stray? schema ts).toList)
        (refusals ++ (x.refusal? schema).toList)

variable {schema : Schema} {rootType : Option TypeId} {ts : List Typing}
  {strays refusals : List Diagnostic} {x : Typing}

/-- The type of a parent stays when elements begin. -/
theorem scope?_append (h : ∀ {p}, x.parent = some p → p < ts.length) (more : List Typing) :
    x.scope? schema (ts ++ more) = x.scope? schema ts := by
  unfold scope?
  cases hparent : x.parent with
  | none => rfl
  | some p => rw [Option.bind_some, Option.bind_some, List.getElem?_append_left (h hparent)]

/-- What there is to say about a tag stays when elements begin. -/
theorem stray?_append (h : ∀ {p}, x.parent = some p → p < ts.length) (more : List Typing) :
    x.stray? schema (ts ++ more) = x.stray? schema ts := by
  unfold stray?
  rw [scope?_append h]

/-- Elements that begin later make no difference to the typing. -/
theorem follows_append (h : ∀ {p}, x.parent = some p → p < ts.length) (more : List Typing) :
    x.Follows schema (ts ++ more) ↔ x.Follows schema ts := by
  have hscope : x.scope? schema (ts ++ more) = x.scope? schema ts := scope?_append h more
  constructor
  · intro hx
    exact ⟨hscope ▸ hx.definition, hx.type, hx.failed⟩
  · intro hx
    exact ⟨hscope.symm ▸ hx.definition, hx.type, hx.failed⟩

/-- Without a `type` attribute there is nothing to say about it. -/
theorem refusal?_eq_none (h : x.choice = none) : x.refusal? schema = none := by
  unfold refusal?
  rw [h]
  cases x.definition.bind schema.definition? <;> rfl

/-- A tag leaves the typing right while there is no `type` attribute. -/
theorem Follows.named (hx : x.Follows schema ts) (hchoice : x.choice = none) (token : Token) :
    (x.named schema ts token).Follows schema ts where
  definition := rfl
  type := by
    have hnone : (x.named schema ts token).choice = none := hchoice
    rw [hnone]
    rfl
  failed := by
    rw [refusal?_eq_none (x := x.named schema ts token) hchoice]
    exact hx.failed.trans (congrArg Option.isSome (refusal?_eq_none hchoice))

/-- Closing the start tag leaves the typing right. -/
theorem Follows.settled (hx : x.Follows schema ts) (choice : Option Attribute) :
    (x.settled schema choice).Follows schema ts :=
  ⟨hx.definition, rfl, rfl⟩

/-- Without a tag there is nothing to say about it. -/
theorem stray?_eq_none (h : x.tag = none) : x.stray? schema ts = none := by
  unfold stray?
  rw [h]
  cases x.scope? schema ts <;> rfl

/-- A typing is the last one or stands before it. -/
theorem getElem?_concat {y : Typing} {i : Nat} (h : (ts ++ [y])[i]? = some x) :
    ts[i]? = some x ∨ i = ts.length ∧ y = x := by
  have hlt := (List.getElem?_eq_some_iff.1 h).1
  rw [List.length_append, List.length_singleton] at hlt
  rcases Nat.lt_succ_iff_lt_or_eq.1 hlt with hlt | rfl
  · rw [List.getElem?_append_left hlt] at h
    exact Or.inl h
  · rw [List.getElem?_concat_length] at h
    exact Or.inr ⟨rfl, Option.some_inj.1 h⟩

namespace Grown

/-- Every parent is there. -/
theorem parent_lt (h : Grown schema rootType ts strays refusals) (hx : x ∈ ts) {p : ElementId}
    (hparent : x.parent = some p) : p < ts.length := by
  induction h with
  | root =>
    rw [List.mem_singleton.1 hx] at hparent
    exact absurd hparent.symm (Option.some_ne_none p)
  | @next ts strays refusals y h hclosed hy hfollows ih =>
    rw [List.length_append]
    rcases List.mem_append.1 hx with hx | hx
    · exact Nat.lt_add_right 1 (ih hx)
    · rw [List.mem_singleton.1 hx] at hparent
      exact Nat.lt_add_right 1 (hy hparent)

/-- The first typing is that of the root. -/
theorem head (h : Grown schema rootType ts strays refusals) :
    ts[0]? = some (.root rootType) := by
  induction h with
  | root => rfl
  | @next ts strays refusals y h hclosed hy hfollows ih =>
    rw [List.getElem?_append_left (List.getElem?_eq_some_iff.1 ih).1]
    exact ih

/-- All other typings are right. -/
theorem follows (h : Grown schema rootType ts strays refusals) {i : Nat} (hx : ts[i]? = some x)
    (hi : i ≠ 0) : x.Follows schema ts := by
  induction h with
  | root =>
    have hlt := (List.getElem?_eq_some_iff.1 hx).1
    exact absurd (Nat.lt_one_iff.1 hlt) hi
  | @next ts strays refusals y h hclosed hy hfollows ih =>
    rcases getElem?_concat hx with hx | ⟨rfl, rfl⟩
    · exact (follows_append (h.parent_lt (List.mem_of_getElem? hx)) [y]).2 (ih hx)
    · exact (follows_append hy [y]).2 hfollows

/-- The remarks on tags are those of the elements, one each. -/
theorem strays_eq (h : Grown schema rootType ts strays refusals) :
    strays = ts.filterMap (stray? schema ts) := by
  induction h with
  | root => rfl
  | @next ts strays refusals y h hclosed hy hfollows ih =>
    have hold : ts.filterMap (stray? schema (ts ++ [y])) = ts.filterMap (stray? schema ts) :=
      List.filterMap_congr fun z hz => stray?_append (h.parent_lt hz) [y]
    rw [List.filterMap_append, hold, ← ih, List.filterMap_cons, stray?_append hy]
    cases y.stray? schema ts <;> rfl

/-- The remarks on `type` attributes are those of the elements, one each. -/
theorem refusals_eq (h : Grown schema rootType ts strays refusals) :
    refusals = ts.filterMap (refusal? schema) := by
  induction h with
  | root => rfl
  | @next ts strays refusals y h hclosed hy hfollows ih =>
    rw [List.filterMap_append, ← ih, List.filterMap_cons]
    cases y.refusal? schema <;> rfl

/-- A typing of an open start tag is right. -/
theorem follows_of_open (h : Grown schema rootType ts strays refusals) {i : Nat}
    (hx : ts[i]? = some x) (hopen : x.closed = false) : x.Follows schema ts := by
  refine h.follows hx ?_
  rintro rfl
  obtain rfl := Option.some_inj.1 (h.head.symm.trans hx)
  exact Bool.noConfusion hopen

/-- The last typing may be amended while its start tag is open. Nothing was said about its `type`
attribute before. -/
theorem amend (h : Grown schema rootType ts strays refusals) {i : Nat} (hx : ts[i]? = some x)
    (hopen : x.closed = false) (hchoice : x.choice = none) {x' : Typing}
    (hx' : x'.Follows schema ts) (hparent : x'.parent = x.parent) :
    ∃ before, strays = before ++ (x.stray? schema ts).toList ∧
      Grown schema rootType (ts.set i x') (before ++ (x'.stray? schema ts).toList)
        (refusals ++ (x'.refusal? schema).toList) := by
  cases h with
  | root =>
    obtain rfl := List.mem_singleton.1 (List.mem_of_getElem? hx)
    exact Bool.noConfusion hopen
  | @next ts strays refusals y h hclosed hy hfollows =>
    rcases getElem?_concat hx with hx | ⟨rfl, rfl⟩
    · -- The start tags before the last one are closed.
      exact absurd (hopen.symm.trans (hclosed x (List.mem_of_getElem? hx))) Bool.false_ne_true
    · have hbelow : ∀ {p}, x'.parent = some p → p < ts.length := fun hp =>
        hy (hparent.symm.trans hp)
      have hset : (ts ++ [y]).set ts.length x' = ts ++ [x'] := by
        rw [List.set_append_right _ _ (Nat.le_refl _), Nat.sub_self]
        rfl
      rw [hset, stray?_append hy, stray?_append hbelow, refusal?_eq_none hchoice,
        Option.toList_none, List.append_nil]
      exact ⟨strays, rfl, .next h hclosed hbelow ((follows_append hbelow [y]).1 hx')⟩

/-- An element may begin once all start tags are closed. -/
theorem begin (h : Grown schema rootType ts strays refusals)
    (hclosed : ∀ y ∈ ts, y.closed = true) (mark : Span) {parent : ElementId}
    (hparent : parent < ts.length) :
    Grown schema rootType (ts ++ [fresh mark parent]) strays refusals := by
  have hfollows : (fresh mark parent).Follows schema ts := by
    refine ⟨?_, rfl, rfl⟩
    cases (fresh mark parent).scope? schema ts <;> rfl
  have hbelow : ∀ {p}, (fresh mark parent).parent = some p → p < ts.length := by
    rintro p ⟨⟩
    exact hparent
  have hnext := h.next hclosed hbelow hfollows
  rw [stray?_eq_none rfl, refusal?_eq_none rfl, Option.toList_none, List.append_nil,
    List.append_nil] at hnext
  exact hnext

/-- The last element may get its tag. -/
theorem name (h : Grown schema rootType ts strays refusals) {i : Nat} (hx : ts[i]? = some x)
    (hopen : x.closed = false) (hchoice : x.choice = none) (htag : x.tag = none) (token : Token) :
    Grown schema rootType (ts.set i (x.named schema ts token))
      (strays ++ ((x.named schema ts token).stray? schema ts).toList) refusals := by
  have hfollows := (h.follows_of_open hx hopen).named hchoice token
  obtain ⟨before, hstrays, hgrown⟩ := h.amend hx hopen hchoice hfollows rfl
  rw [stray?_eq_none htag, Option.toList_none, List.append_nil] at hstrays
  rw [refusal?_eq_none (x := x.named schema ts token) hchoice, Option.toList_none,
    List.append_nil] at hgrown
  exact hstrays ▸ hgrown

/-- The start tag of the last element may be closed. -/
theorem settle (h : Grown schema rootType ts strays refusals) {i : Nat} (hx : ts[i]? = some x)
    (hopen : x.closed = false) (hchoice : x.choice = none) (choice : Option Attribute) :
    Grown schema rootType (ts.set i (x.settled schema choice)) strays
      (refusals ++ ((x.settled schema choice).refusal? schema).toList) := by
  have hfollows := (h.follows_of_open hx hopen).settled choice
  obtain ⟨before, hstrays, hgrown⟩ := h.amend hx hopen hchoice hfollows rfl
  exact hstrays ▸ hgrown

end Grown

end Typing

end LayoutMarkup
