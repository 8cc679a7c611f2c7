import LayoutMarkup.Proofs.Document.Checking
import LayoutMarkup.Proofs.Schema.Issuing

/-!
# Numbers in a document

An element keeps the numbers of its type and its definition, and with them the schema is asked again
later. Where the tables of the schema refer to what is there, these numbers are in range at every
moment of the reading (`Draft.inRange_front`), since they come from the tables or are the root type.
So nothing else is ever looked up: a schema with more types and definitions behind those of this one
gives the same document (`Document.parse_extends`).
-/

namespace LayoutMarkup

/-! ## Schemas with more in them -/

/-- A schema has all that is in another one under the same numbers. -/
structure Schema.Extends (s s' : Schema) : Prop where
  /-- The types. -/
  type : ∀ {id t}, s.type? id = some t → s'.type? id = some t
  /-- The definitions. -/
  definition : ∀ {id d}, s.definition? id = some d → s'.definition? id = some d

/-- The numbers that an element has from a schema are those of what is there. -/
structure Element.InRange (s : Schema) (e : Element) : Prop where
  /-- The type is there. -/
  type : ∀ id ∈ e.type, id < s.types.size
  /-- The definition is there. -/
  definition : ∀ id ∈ e.definition, id < s.definitions.size

namespace Schema.Extends

variable {s s' : Schema}

/-- A type that is there is the same. -/
theorem type?_eq (h : s.Extends s') {id : TypeId} (hid : id < s.types.size) :
    s'.type? id = s.type? id := by
  have ht : s.type? id = some s.types[id] := Array.getElem?_eq_getElem hid
  rw [ht, h.type ht]

/-- A definition that is there is the same. -/
theorem definition?_eq (h : s.Extends s') {id : DefinitionId} (hid : id < s.definitions.size) :
    s'.definition? id = s.definition? id := by
  have hd : s.definition? id = some s.definitions[id] := Array.getElem?_eq_getElem hid
  rw [hd, h.definition hd]

/-- The type of an element is the same. -/
theorem type_bind (h : s.Extends s') {e : Element} (he : e.InRange s) :
    e.type.bind s'.type? = e.type.bind s.type? := by
  cases htype : e.type with
  | none => rfl
  | some id => exact h.type?_eq (he.type id htype)

/-- The definition of an element is the same. -/
theorem definition_bind (h : s.Extends s') {e : Element} (he : e.InRange s) :
    e.definition.bind s'.definition? = e.definition.bind s.definition? := by
  cases hdefinition : e.definition with
  | none => rfl
  | some id => exact h.definition?_eq (he.definition id hdefinition)

end Schema.Extends

/-- A definition chooses one of its types. -/
theorem ElementDef.typeFor_mem_types (d : ElementDef) (choice : Option Attribute) :
    d.typeFor choice ∈ d.types := by
  unfold typeFor types
  cases hchosen : choice.bind fun a => d.alternative? (a.value.getD "") with
  | none => exact List.mem_cons_self
  | some type =>
    obtain ⟨a, -, halternative⟩ := Option.bind_eq_some_iff.1 hchosen
    obtain ⟨types, htypes, hget⟩ := Option.bind_eq_some_iff.1 halternative
    rw [htypes]
    exact List.mem_cons_of_mem _ (List.mem_map_of_mem (OrderedMap.get?_eq_some_iff.1 hget))

/-! ## Drafts -/

namespace Draft

/-- The numbers of all elements are those of what is there. -/
def InRange (s : Schema) (d : Draft) : Prop :=
  ∀ {id e}, d.get? id = some e → e.InRange s

variable {s s' : Schema} {rootType : Option TypeId} {d : Draft} {id : ElementId} {e : Element}

/-- Where the typings are right, the numbers are those of what is there. -/
theorem IsTyped.inRange (h : d.IsTyped s rootType) (hs : s.Ranged)
    (hroot : ∀ id ∈ rootType, id < s.types.size) : d.InRange s := by
  intro id e he
  by_cases hid : id = .root
  · -- The root has the root type, and no definition.
    have hhead := Typing.Grown.head h
    rw [getElem?_typings] at hhead
    obtain ⟨r, hr, htyping⟩ := Option.map_eq_some_iff.1 hhead
    rw [hid] at he
    obtain rfl : r = e := Option.some_inj.1 (hr.symm.trans he)
    have htype : r.type = rootType := congrArg Typing.type htyping
    have hdefinition : r.definition = none := congrArg Typing.definition htyping
    refine ⟨htype ▸ hroot, fun i hi => ?_⟩
    rw [hdefinition] at hi
    exact absurd hi (Option.not_mem_none i)
  · have hfollows := Typing.Grown.follows h (typings_eq he) hid
    refine ⟨fun t ht => ?_, fun i hi => ?_⟩
    · -- The type is one of those of the definition.
      have htype : some t = _ := ht.symm.trans hfollows.type
      obtain ⟨d, hd, rfl⟩ := Option.map_eq_some_iff.1 htype.symm
      obtain ⟨i, -, hi⟩ := Option.bind_eq_some_iff.1 hd
      exact hs.type hi _ (d.typeFor_mem_types _)
    · -- The definition is one of those that a type expects.
      have hdefinition : some i = _ := hi.symm.trans hfollows.definition
      obtain ⟨scope, hscope, hchild⟩ := Option.bind_eq_some_iff.1 hdefinition.symm
      obtain ⟨p, -, hscope⟩ := Option.bind_eq_some_iff.1 hscope
      obtain ⟨t, -, ht⟩ := Option.bind_eq_some_iff.1 hscope
      obtain ⟨tag, -, hget⟩ := Option.bind_eq_some_iff.1 hchild
      exact hs.child ht i (List.mem_map_of_mem (OrderedMap.get?_eq_some_iff.1 hget))

/-! ### The same draft -/

/-- Setting the end of a start tag is not about numbers. -/
theorem InRange.setStartTagEnd (h : d.InRange s) (id : ElementId) (offset : Nat) :
    (d.adjust id fun e => { e with startTagEnd := some offset }).InRange s := by
  intro j e' he'
  rw [get?_adjust] at he'
  split at he'
  next =>
    obtain ⟨e, he, rfl⟩ := Option.map_eq_some_iff.1 he'
    exact ⟨(h he).type, (h he).definition⟩
  next => exact h he'

/-- The same type is chosen. -/
theorem resolveAlternation_extends (hext : s.Extends s') (h : d.InRange s) (id : ElementId) :
    resolveAlternation s' d id = resolveAlternation s d id := by
  unfold resolveAlternation
  cases he : d.get? id with
  | none => rfl
  | some e =>
    dsimp only
    rw [hext.definition_bind (h he)]

/-- The same start tag is closed. -/
theorem closeStartTag_extends (hext : s.Extends s') (h : d.InRange s) (offset : Nat) :
    d.closeStartTag s' offset = d.closeStartTag s offset := by
  have hforgot : { d with pending := none }.InRange s := h
  exact resolveAlternation_extends hext (hforgot.setStartTagEnd d.current offset) d.current

/-- The same start tag is closed, if it is open. -/
theorem endStartTag_extends (hext : s.Extends s') (h : d.InRange s) (offset : Nat) :
    d.endStartTag s' offset = d.endStartTag s offset := by
  unfold endStartTag
  rw [closeStartTag_extends hext h]

/-- The same definition and type go with a tag. -/
theorem nameElement_extends (hext : s.Extends s') (hs : s.Ranged) (h : d.InRange s)
    (token : Token) : d.nameElement s' token = d.nameElement s token := by
  have hscope : (((d.get? d.current).bind (·.parent)).bind fun p =>
      ((d.get? p).bind (·.type)).bind s'.type?) =
      ((d.get? d.current).bind (·.parent)).bind fun p =>
        ((d.get? p).bind (·.type)).bind s.type? := by
    refine congrArg (Option.bind _) (funext fun p => ?_)
    cases hp : d.get? p with
    | none => rfl
    | some f => exact hext.type_bind (h hp)
  unfold nameElement
  dsimp only
  rw [hscope]
  refine if_congr Iff.rfl rfl ?_
  cases hparent : ((d.get? d.current).bind (·.parent)).bind fun p =>
      ((d.get? p).bind (·.type)).bind s.type? with
  | none => rfl
  | some parentType =>
    dsimp only
    cases hget : parentType.children.get? token.text with
    | none => rfl
    | some id =>
      -- The definition is one that a type of the schema expects.
      obtain ⟨p, -, hp⟩ := Option.bind_eq_some_iff.1 hparent
      obtain ⟨t, -, ht⟩ := Option.bind_eq_some_iff.1 hp
      have hid := hs.child ht id (List.mem_map_of_mem (OrderedMap.get?_eq_some_iff.1 hget))
      dsimp only
      rw [hext.definition?_eq hid]

/-- The same comes of a token. -/
theorem step_extends (hext : s.Extends s') (hs : s.Ranged) (h : d.InRange s) (length : Nat)
    (token : Token) : d.step s' length token = d.step s length token := by
  unfold step
  cases token.kind with
  | tagOpen =>
    have hforgot : { d with endTagTarget := none, pending := none }.InRange s := h
    dsimp only
    unfold openElement
    rw [endStartTag_extends hext hforgot]
  | tagName => exact nameElement_extends hext hs h token
  | tagClose => exact endStartTag_extends hext h token.span.stop
  | tagSelfClose =>
    dsimp only
    rw [closeStartTag_extends hext h]
  | endTagOpen =>
    have hforgot : { d with endTagTarget := none }.InRange s := h
    dsimp only
    rw [endStartTag_extends hext hforgot]
  | _ => rfl

/-- The same element is ended with the text. -/
theorem endOpen_extends (hext : s.Extends s') (h : d.InRange s) (length : Nat) (id : ElementId) :
    d.endOpen s' length id = d.endOpen s length id := by
  unfold endOpen
  rw [resolveAlternation_extends hext (h.setStartTagEnd id length)]

/-! ### Every moment -/

/-- After the first steps of a text, and when some elements are ended then, the numbers of all
elements are those of what is there. -/
theorem inRange_front (hs : s.Ranged) (hroot : ∀ id ∈ rootType, id < s.types.size) (text : String)
    {front : List Scanned} (hfront : front <+: tokenize text) (ids : List ElementId) :
    (ids.foldl (endOpen s (Text.byteLength text.toList))
      (front.foldl (take s (Text.byteLength text.toList))
        (start (Text.byteLength text.toList) rootType))).InRange s := by
  obtain ⟨_, hstep⟩ := Scanner.front_induction (fun h => h.take)
    (typedInStep_start s rootType text) hfront
  exact (hstep.typed.foldl_endOpen ids _).inRange hs hroot

/-- The same elements are ended with the text. -/
theorem foldl_endOpen_extends (hext : s.Extends s') (hs : s.Ranged)
    (hroot : ∀ id ∈ rootType, id < s.types.size) (h : d.IsTyped s rootType) (length : Nat)
    (ids : List ElementId) :
    ids.foldl (endOpen s' length) d = ids.foldl (endOpen s length) d := by
  induction ids generalizing d with
  | nil => rfl
  | cons id ids ih =>
    rw [List.foldl_cons, List.foldl_cons, endOpen_extends hext (h.inRange hs hroot)]
    exact ih (h.endOpen length id)

/-- The same is made of a text. -/
theorem ofText_extends (hext : s.Extends s') (hs : s.Ranged)
    (hroot : ∀ id ∈ rootType, id < s.types.size) (text : String) :
    ofText s' rootType text = ofText s rootType text := by
  have hstart := typedInStep_start s rootType text
  have htaken : (tokenize text).foldl (take s' (Text.byteLength text.toList))
      (start (Text.byteLength text.toList) rootType) =
      (tokenize text).foldl (take s (Text.byteLength text.toList))
        (start (Text.byteLength text.toList) rootType) := by
    -- The tokens are the same, so one run alone needs an invariant.
    refine Scanner.foldl_run_congr (fun h => h.take) (fun {sc d} h => ?_) hstart
    have hd : { d with log := sc.scan.diagnostic.elim d.log d.log.add }.InRange s :=
      h.typed.inRange hs hroot
    exact step_extends hext hs hd _ _
  obtain ⟨_, hstep⟩ := Scanner.run_induction (fun h => h.take) hstart
  unfold ofText finish
  dsimp only
  rw [htaken]
  exact congrArg (fun d : Draft => { d with current := .root })
    (foldl_endOpen_extends hext hs hroot hstep.typed _ _)

end Draft

/-! ## Documents -/

namespace Document

variable {s s' : Schema} {rootType : Option TypeId}

/-- The numbers of all elements of a document are those of what is there. -/
theorem inRange_parse (hs : s.Ranged) (hroot : ∀ id ∈ rootType, id < s.types.size)
    (name text : String) {e : Element} (he : e ∈ (parse name text s rootType).elements) :
    e.InRange s := by
  obtain ⟨id, hid⟩ := Array.mem_iff_getElem?.1 he
  exact (Draft.isTyped_ofText s rootType text).inRange hs hroot hid

/-- The same is said of attributes. -/
theorem validateElements_extends (hext : s.Extends s') {elements : Array Element}
    (h : ∀ e ∈ elements, e.InRange s) :
    validateElements s' elements = validateElements s elements := by
  unfold validateElements
  refine List.flatMap_congr fun e he => ?_
  rw [hext.type_bind (h e (Array.mem_toList_iff.1 (List.mem_of_mem_tail he)))]

/-- A schema with more in it gives the same document. -/
theorem parse_extends (hext : s.Extends s') (hs : s.Ranged)
    (hroot : ∀ id ∈ rootType, id < s.types.size) (name text : String) :
    parse name text s' rootType = parse name text s rootType := by
  have hrange := fun e => inRange_parse hs hroot name text (e := e)
  unfold parse at hrange ⊢
  dsimp only at hrange ⊢
  rw [Draft.ofText_extends hext hs hroot, validateElements_extends hext hrange]

end Document

end LayoutMarkup
