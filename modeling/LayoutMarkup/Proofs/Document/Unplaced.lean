import LayoutMarkup.Document.Parse
import LayoutMarkup.Proofs.OrderedMap

/-!
# Documents without their places

Reading a text keeps where everything stands, but no decision depends on it. To say this, `unplaced`
puts all spans and offsets of a token, an element, a diagnostic or a draft to 0, and keeps what is
there and what is not. Every operation on drafts gives the same on the unplaced draft, and so does
a whole step of the scanner (`Draft.unplaced_take`), the end of the text (`Draft.unplaced_finish`)
and the validation (`unplaced_validateElements`).
-/

namespace LayoutMarkup

/-! ## Forgetting places -/

/-- A diagnostic without its place. -/
def Diagnostic.unplaced (d : Diagnostic) : Diagnostic :=
  { d with span := .point 0 }

/-- Diagnostics without their places. -/
def Log.unplaced (log : Log) : Log :=
  ⟨log.diagnostics.map Diagnostic.unplaced⟩

/-- A token without its place. -/
def Token.unplaced (t : Token) : Token :=
  { t with span := .point 0 }

/-- An attribute without its places. -/
def Attribute.unplaced (a : Attribute) : Attribute :=
  { a with nameSpan := .point 0, valueSpan := a.valueSpan.map fun _ => .point 0 }

/-- An element without its places. -/
def Element.unplaced (e : Element) : Element :=
  { e with
    tagSpan := e.tagSpan.map fun _ => .point 0
    start := 0
    stop := 0
    startTagEnd := e.startTagEnd.map fun _ => 0
    endTagStart := e.endTagStart.map fun _ => 0
    attributes := e.attributes.mapValues Attribute.unplaced }

/-- A draft without its places. -/
def Draft.unplaced (d : Draft) : Draft :=
  { d with
    elements := d.elements.map Element.unplaced
    endTagOpen := 0
    log := d.log.unplaced }

/-- A step of the scanner without its places. -/
def Scanned.unplaced (s : Scanned) : Scanned where
  token := s.token.unplaced
  diagnostic := s.diagnostic.map Diagnostic.unplaced
  after := { s.after with offset := 0 }

namespace Token

@[simp] theorem kind_unplaced (t : Token) : t.unplaced.kind = t.kind := rfl

@[simp] theorem text_unplaced (t : Token) : t.unplaced.text = t.text := rfl

end Token

/-- A diagnostic more is one more without its place. -/
theorem Log.unplaced_add (log : Log) (d : Diagnostic) :
    (log.add d).unplaced = log.unplaced.add d.unplaced :=
  congrArg Log.mk Array.map_push

/-- An unplaced attribute has an unplaced value, or else an unplaced name. -/
@[simp]
theorem Attribute.markSpan_unplaced (a : Attribute) :
    a.unplaced.valueSpan.getD a.unplaced.nameSpan = .point 0 := by
  show (a.valueSpan.map fun _ => Span.point 0).getD (.point 0) = .point 0
  cases a.valueSpan <;> rfl

@[simp] theorem Attribute.value_unplaced (a : Attribute) : a.unplaced.value = a.value := rfl

namespace Element

@[simp] theorem tag_unplaced (e : Element) : e.unplaced.tag = e.tag := rfl

@[simp] theorem tagText_unplaced (e : Element) : e.unplaced.tagText = e.tagText := rfl

@[simp] theorem parent_unplaced (e : Element) : e.unplaced.parent = e.parent := rfl

@[simp] theorem definition_unplaced (e : Element) : e.unplaced.definition = e.definition := rfl

@[simp] theorem alternationFailed_unplaced (e : Element) :
    e.unplaced.alternationFailed = e.alternationFailed := rfl

/-- An unplaced element has an unplaced mark. -/
@[simp]
theorem markSpan_unplaced (e : Element) : e.unplaced.markSpan = .point 0 := by
  show (e.tagSpan.map fun _ => Span.point 0).getD (.point 0) = .point 0
  cases e.tagSpan <;> rfl

/-- The attributes are found without their places. -/
@[simp]
theorem attribute?_unplaced (e : Element) (name : String) :
    e.unplaced.attribute? name = (e.attribute? name).map Attribute.unplaced :=
  OrderedMap.get?_mapValues ..

/-- The same attributes are there. -/
@[simp]
theorem hasAttribute_unplaced (e : Element) (name : String) :
    e.unplaced.hasAttribute name = e.hasAttribute name := by
  rw [hasAttribute, attribute?_unplaced, Option.isSome_map, hasAttribute]

end Element

namespace Draft

variable {schema : Schema} {length : Nat}

/-! ## Looking up -/

@[simp] theorem current_unplaced (d : Draft) : d.unplaced.current = d.current := rfl

@[simp] theorem pending_unplaced (d : Draft) : d.unplaced.pending = d.pending := rfl

@[simp] theorem endTagTarget_unplaced (d : Draft) :
    d.unplaced.endTagTarget = d.endTagTarget := rfl

@[simp] theorem manyReported_unplaced (d : Draft) :
    d.unplaced.manyReported = d.manyReported := rfl

/-- The elements are found without their places. -/
@[simp]
theorem get?_unplaced (d : Draft) (id : ElementId) :
    d.unplaced.get? id = (d.get? id).map Element.unplaced :=
  Array.getElem?_map

/-- The parents are the same. -/
@[simp]
theorem parentOf_unplaced (d : Draft) (id : ElementId) :
    d.unplaced.parentOf id = d.parentOf id := by
  rw [parentOf, get?_unplaced, Option.bind_map]
  rfl

/-- The same start tags are open. -/
theorem any_startTagEnd_unplaced (d : Draft) (id : ElementId) :
    (d.unplaced.get? id).any (·.startTagEnd.isNone) = (d.get? id).any (·.startTagEnd.isNone) := by
  rw [get?_unplaced]
  cases d.get? id with
  | none => rfl
  | some e => exact Option.isNone_map

/-- The draft is in a start tag or not. -/
@[simp]
theorem inStartTag_unplaced (d : Draft) : d.unplaced.inStartTag = d.inStartTag :=
  congrArg (d.current != .root && ·) (d.any_startTagEnd_unplaced d.current)

/-! ## Changes -/

variable {d d' : Draft}

/-- A change of an element gives the same without places. -/
theorem unplaced_adjust (hd : d.unplaced = d') (id : ElementId) {f g : Element → Element}
    (h : ∀ e, (f e).unplaced = g e.unplaced) : (d.adjust id f).unplaced = d'.adjust id g := by
  have helements : (d.elements.modify id f).map Element.unplaced =
      (d.elements.map Element.unplaced).modify id g := by
    apply Array.ext_getElem?
    intro j
    rw [Array.getElem?_map, Array.getElem?_modify, Array.getElem?_modify, Array.getElem?_map]
    split
    next => simp only [Option.map_map, Function.comp_def, h]
    next => rfl
  subst hd
  exact congrArg (fun elements => { d.unplaced with elements }) helements

/-- A report gives the same without places. -/
theorem unplaced_report (hd : d.unplaced = d') (cause : Cause) (span : Span) :
    (d.report cause span).unplaced = d'.report cause (.point 0) := by
  subst hd
  exact congrArg (fun log => { d.unplaced with log }) (d.log.unplaced_add (cause.on span))

/-- The choice of an alternative does not depend on places. -/
theorem unplaced_resolveAlternation (hd : d.unplaced = d') (id : ElementId) :
    (resolveAlternation schema d id).unplaced = resolveAlternation schema d' id := by
  unfold resolveAlternation
  rw [← hd, get?_unplaced]
  cases d.get? id with
  | none => rfl
  | some e =>
    -- Definition, value and flag have no place, so both sides take the same branch.
    simp only [Option.map_some, Element.attribute?_unplaced, Element.definition_unplaced]
    cases e.definition.bind schema.definition? with
    | none => rfl
    | some definition =>
      cases e.attribute? "type" with
      | none => rfl
      | some choice =>
        simp only [Option.map_some, Element.alternationFailed_unplaced,
          Attribute.value_unplaced, Attribute.markSpan_unplaced]
        split
        next => rfl
        next =>
          cases definition.alternative? (choice.value.getD "") with
          | some type => exact unplaced_adjust rfl id fun _ => rfl
          | none =>
            refine unplaced_report ?_ _ _
            exact unplaced_adjust rfl id fun _ => rfl

/-- Closing a start tag does not depend on places. -/
@[simp]
theorem unplaced_closeStartTag (d : Draft) (offset : Nat) :
    (d.closeStartTag schema offset).unplaced = d.unplaced.closeStartTag schema 0 := by
  refine unplaced_resolveAlternation ?_ d.current
  exact unplaced_adjust rfl d.current fun _ => rfl

/-- Whether a start tag is closed does not depend on places. -/
@[simp]
theorem unplaced_endStartTag (d : Draft) (offset : Nat) :
    (d.endStartTag schema offset).unplaced = d.unplaced.endStartTag schema 0 := by
  rw [endStartTag, endStartTag, inStartTag_unplaced]
  split
  next => exact d.unplaced_closeStartTag offset
  next => rfl

/-- Closing an element does not depend on places. -/
@[simp]
theorem unplaced_close (d : Draft) (id : ElementId) (offset : Nat) (selfClosed : Bool) :
    (d.close id offset selfClosed).unplaced = d.unplaced.close id 0 selfClosed := by
  have hclosed : (d.adjust id fun e =>
      { e with stop := offset, closed := true, selfClosed := selfClosed }).unplaced =
        d.unplaced.adjust id fun e =>
          { e with stop := 0, closed := true, selfClosed := selfClosed } :=
    unplaced_adjust rfl id fun _ => rfl
  rw [close, close, parentOf_unplaced]
  exact congrArg (fun d' : Draft => { d' with current := d.parentOf id }) hclosed

/-- A second top-level element is reported wherever it stands. -/
@[simp]
theorem unplaced_noteTopLevel (d : Draft) (span : Span) :
    (d.noteTopLevel span).unplaced = d.unplaced.noteTopLevel (.point 0) := by
  have hchildren : (d.unplaced.get? .root).any (!·.children.isEmpty) =
      (d.get? .root).any (!·.children.isEmpty) := by
    rw [get?_unplaced, Option.any_map]
    rfl
  unfold noteTopLevel
  rw [hchildren, current_unplaced, manyReported_unplaced]
  split
  next =>
    have hreport : (d.report .manyTopLevel span).unplaced =
        d.unplaced.report .manyTopLevel (.point 0) := unplaced_report rfl _ _
    exact congrArg (fun d' : Draft => { d' with manyReported := true }) hreport
  next => rfl

/-- A child is the same wherever it begins. -/
@[simp]
theorem unplaced_addChild (d : Draft) (offset : Nat) :
    (addChild length d offset).unplaced = addChild 0 d.unplaced 0 := by
  have hsize : d.unplaced.elements.size = d.elements.size := Array.size_map
  have hlinked : (d.adjust d.current fun e =>
      { e with children := e.children ++ [d.elements.size] }).unplaced =
        d.unplaced.adjust d.current fun e =>
          { e with children := e.children ++ [d.elements.size] } :=
    unplaced_adjust rfl d.current fun _ => rfl
  unfold addChild
  rw [hsize]
  dsimp only
  rw [unplaced, Array.map_push]
  exact congrArg (fun d' : Draft =>
    { d' with
      elements := d'.elements.push { start := 0, stop := 0, parent := some d.current }
      current := d.elements.size }) hlinked

/-- A `<` does the same wherever it stands. -/
@[simp]
theorem unplaced_openElement (d : Draft) (span : Span) :
    (openElement schema length d span).unplaced = openElement schema 0 d.unplaced (.point 0) := by
  rw [openElement, unplaced_addChild, unplaced_noteTopLevel, unplaced_endStartTag]
  rfl

/-- A tag names an element the same way wherever it stands. -/
@[simp]
theorem unplaced_nameElement (d : Draft) (token : Token) :
    (d.nameElement schema token).unplaced = d.unplaced.nameElement schema token.unplaced := by
  have hnamed : (d.adjust d.current fun e =>
      { e with tag := some token.text, tagSpan := some token.span }).unplaced =
        d.unplaced.adjust d.current fun e =>
          { e with tag := some token.text, tagSpan := some (.point 0) } :=
    unplaced_adjust rfl d.current fun _ => rfl
  -- The type of the parent, which decides about the definition, is looked up through ids and not
  -- through places.
  have hparent : (((d.unplaced.get? d.current).bind (·.parent)).bind fun p =>
      ((d.unplaced.get? p).bind (·.type)).bind schema.type?) =
        ((d.get? d.current).bind (·.parent)).bind fun p =>
          ((d.get? p).bind (·.type)).bind schema.type? := by
    simp only [get?_unplaced, Option.bind_map]
    rfl
  unfold nameElement
  rw [current_unplaced, Token.text_unplaced, hparent]
  split
  next => rfl
  next =>
    dsimp only
    split
    next => exact hnamed
    next =>
      split
      next => exact unplaced_adjust hnamed d.current fun _ => rfl
      next =>
        split
        next => exact hnamed
        next => exact unplaced_report hnamed _ _

/-- An attribute is added the same way wherever it stands. -/
@[simp]
theorem unplaced_addAttribute (d : Draft) (token : Token) :
    (d.addAttribute token).unplaced = d.unplaced.addAttribute token.unplaced := by
  have hdrop : ({ d.unplaced with pending := none } : Draft) =
      ({ d with pending := none } : Draft).unplaced := rfl
  unfold addAttribute
  rw [hdrop]
  generalize ({ d with pending := none } : Draft) = d
  -- Keys are kept, so a name is repeated on both sides or on neither.
  have hcontains : (d.unplaced.get? d.current).any (·.attributes.contains (Text.lower token.text)) =
      (d.get? d.current).any (·.attributes.contains (Text.lower token.text)) := by
    rw [get?_unplaced, Option.any_map]
    exact congrArg (Option.any · _) (funext fun e => OrderedMap.contains_mapValues ..)
  dsimp only
  rw [inStartTag_unplaced, current_unplaced, Token.text_unplaced, hcontains]
  split
  next => rfl
  next =>
    split
    next => exact unplaced_report rfl _ _
    next =>
      have hadded : (d.adjust d.current fun e => { e with
          attributes := e.attributes.insert (Text.lower token.text)
            ⟨token.text, token.span, none, none⟩ }).unplaced =
            d.unplaced.adjust d.current fun e => { e with
              attributes := e.attributes.insert (Text.lower token.text)
                ⟨token.text, .point 0, none, none⟩ } := by
        refine unplaced_adjust rfl d.current fun e => ?_
        exact congrArg (fun attributes => { e.unplaced with attributes })
          (OrderedMap.mapValues_insert ..)
      exact congrArg (fun d' : Draft => { d' with pending := some (Text.lower token.text) }) hadded

/-- A value is set the same way wherever it stands. -/
@[simp]
theorem unplaced_setValue (d : Draft) (token : Token) :
    (d.setValue token).unplaced = d.unplaced.setValue token.unplaced := by
  unfold setValue
  rw [pending_unplaced]
  split
  next => rfl
  next key _ =>
    refine unplaced_adjust rfl d.current fun e => ?_
    refine congrArg (fun attributes => { e.unplaced with attributes })
      (OrderedMap.mapValues_adjust ?_ e.attributes key)
    intro _
    rfl

/-- The name of an end tag fits or not wherever it stands. -/
@[simp]
theorem unplaced_matchEndTag (d : Draft) (token : Token) :
    (d.matchEndTag token).unplaced = d.unplaced.matchEndTag token.unplaced := by
  -- An end tag that fits is expected to be closed.
  have hexpect : ∀ {d d' : Draft} (hd : d.unplaced = d') (id : ElementId),
      ({ d.adjust id fun e => { e with endTagStart := some d.endTagOpen } with
          current := id, endTagTarget := some id } : Draft).unplaced =
        { d'.adjust id fun e => { e with endTagStart := some d'.endTagOpen } with
          current := id, endTagTarget := some id } := by
    intro d d' hd id
    have hstart : (d.adjust id fun e => { e with endTagStart := some d.endTagOpen }).unplaced =
        d'.adjust id fun e => { e with endTagStart := some d'.endTagOpen } := by
      subst hd
      exact unplaced_adjust rfl id fun _ => rfl
    exact congrArg (fun d' : Draft => { d' with current := id, endTagTarget := some id }) hstart
  unfold matchEndTag
  rw [current_unplaced, Token.text_unplaced, get?_unplaced]
  split
  next => rfl
  next =>
    cases d.get? d.current with
    | none => rfl
    | some e =>
      simp only [Option.map_some, Element.tag_unplaced, Element.parent_unplaced]
      split
      next => exact hexpect rfl d.current
      next =>
        split
        next parent _ =>
          -- The parent has the same tag without its place.
          have htag : (d.unplaced.get? parent).any (·.tag == some token.text) =
              (d.get? parent).any (·.tag == some token.text) := by
            rw [get?_unplaced, Option.any_map]
            rfl
          rw [htag]
          split
          next =>
            refine hexpect ?_ parent
            rw [Element.markSpan_unplaced, Element.tagText_unplaced]
            exact unplaced_adjust (unplaced_report rfl _ _) d.current fun _ => rfl
          next => exact unplaced_report rfl _ _
        next => exact unplaced_report rfl _ _

/-! ## Whole texts -/

/-- The draft before the first token does not depend on the length of the text. -/
theorem unplaced_start (length : Nat) (rootType : Option TypeId) :
    (start length rootType).unplaced = start 0 rootType := by
  have hlog : Log.unplaced {} = {} := congrArg Log.mk Array.map_empty
  unfold start unplaced
  dsimp only
  rw [List.map_toArray, hlog]
  rfl

/-- A token does the same wherever it stands. -/
theorem unplaced_step (d : Draft) (token : Token) :
    (d.step schema length token).unplaced = d.unplaced.step schema 0 token.unplaced := by
  unfold step
  rw [Token.kind_unplaced]
  cases token.kind with
  | tagOpen => exact d.unplaced_openElement token.span
  | tagName => exact d.unplaced_nameElement token
  | attributeName => exact d.unplaced_addAttribute token
  | attributeValue => exact d.unplaced_setValue token
  | tagClose => exact d.unplaced_endStartTag token.span.stop
  | tagSelfClose =>
    dsimp only
    rw [inStartTag_unplaced]
    split
    next =>
      rw [unplaced_close, unplaced_closeStartTag]
      rfl
    next => rfl
  | endTagOpen =>
    -- Where the end tag was opened is forgotten as well.
    exact congrArg (fun d' : Draft => { d' with endTagOpen := 0 })
      (unplaced_endStartTag { d with endTagTarget := none } token.span.start)
  | endTagName => exact d.unplaced_matchEndTag token
  | endTagClose =>
    dsimp only
    rw [endTagTarget_unplaced]
    split
    next target _ => exact unplaced_close { d with endTagTarget := none } target _ false
    next => rfl
  | assign | content | commentOpen | comment | commentClose | headerOpen | header | headerClose
  | blank | endOfText | unknown => rfl

/-- A step of the scanner does the same wherever it stands. -/
theorem unplaced_take (d : Draft) (s : Scanned) :
    (d.take schema length s).unplaced = d.unplaced.take schema 0 s.unplaced := by
  have hlog : (s.diagnostic.elim d.log d.log.add).unplaced =
      (s.diagnostic.map Diagnostic.unplaced).elim d.log.unplaced d.log.unplaced.add := by
    cases s.diagnostic with
    | none => rfl
    | some diagnostic => exact d.log.unplaced_add diagnostic
  rw [take, unplaced_step]
  exact congrArg (fun log => step schema 0 { d.unplaced with log } s.token.unplaced) hlog

/-- The same elements are open. -/
@[simp]
theorem openChain_unplaced (d : Draft) (id : ElementId) :
    d.unplaced.openChain id = d.openChain id := by
  fun_induction openChain d id with
  | case1 => rw [openChain, if_pos rfl]
  | case2 id hroot hlt ih => rw [openChain, if_neg hroot, parentOf_unplaced, if_pos hlt, ih]
  | case3 id hroot hlt => rw [openChain, if_neg hroot, parentOf_unplaced, if_neg hlt]

/-- An element that is open at the end of the text ends the same way wherever that is. -/
theorem unplaced_endOpen (d : Draft) (id : ElementId) :
    (endOpen schema length d id).unplaced = endOpen schema 0 d.unplaced id := by
  -- The draft after a missing end of the start tag was set, since the rest is about this one.
  obtain ⟨ended, hended⟩ : ∃ ended, ended = if (d.get? id).any (·.startTagEnd.isNone) then
      resolveAlternation schema (d.adjust id fun e => { e with startTagEnd := some length }) id
    else d := ⟨_, rfl⟩
  have hended' : ended.unplaced = if (d.unplaced.get? id).any (·.startTagEnd.isNone) then
      resolveAlternation schema (d.unplaced.adjust id fun e => { e with startTagEnd := some 0 }) id
    else d.unplaced := by
    rw [hended, any_startTagEnd_unplaced]
    split
    next =>
      refine unplaced_resolveAlternation ?_ id
      exact unplaced_adjust rfl id fun _ => rfl
    next => rfl
  unfold endOpen
  dsimp only
  rw [← hended, ← hended', get?_unplaced]
  cases ended.get? id with
  | none => rfl
  | some e =>
    have hstarted : e.unplaced.endTagStart.isSome = e.endTagStart.isSome := Option.isSome_map
    simp only [Option.map_some, Element.tagText_unplaced, Element.markSpan_unplaced, hstarted]
    exact unplaced_adjust (unplaced_report rfl _ _) id fun _ => rfl

/-- The end of the text does the same wherever it is. -/
theorem unplaced_finish (d : Draft) :
    (finish schema length d).unplaced = finish schema 0 d.unplaced := by
  have hfold : ∀ (ids : List ElementId) (d : Draft),
      (ids.foldl (endOpen schema length) d).unplaced =
        ids.foldl (endOpen schema 0) d.unplaced := by
    intro ids
    induction ids with
    | nil => exact fun _ => rfl
    | cons id ids ih =>
      intro d
      rw [List.foldl_cons, List.foldl_cons, ih, unplaced_endOpen]
  unfold finish
  rw [openChain_unplaced]
  exact congrArg (fun d' : Draft => { d' with current := .root }) (hfold _ d)

end Draft

/-! ## Validation -/

/-- The attributes that have no place in a type are the same. -/
theorem Element.unknownAttributes_unplaced (e : Element) (type : ComplexType) :
    e.unplaced.unknownAttributes type =
      (e.unknownAttributes type).map Attribute.unplaced := by
  have hentries : e.unplaced.attributes.entries =
      e.attributes.entries.map fun a => (a.1, a.2.unplaced) := rfl
  unfold unknownAttributes
  split
  next => rfl
  next =>
    dsimp only
    rw [hentries, List.filter_map, ← List.map_drop, List.map_map, List.map_map]
    rfl

/-- What there is to say about an element does not depend on places. -/
theorem Element.unplaced_validate (e : Element) (type : ComplexType) :
    (e.validate type).map Diagnostic.unplaced = e.unplaced.validate type := by
  have hmissing : e.unplaced.missingAttributes type = e.missingAttributes type := by
    unfold missingAttributes
    simp only [hasAttribute_unplaced]
  unfold validate
  rw [hmissing, unknownAttributes_unplaced, markSpan_unplaced, tagText_unplaced, List.map_append,
    List.map_map, List.map_map, List.map_map]
  rfl

/-- What there is to say about all elements does not depend on places. -/
theorem unplaced_validateElements (schema : Schema) (elements : Array Element) :
    (validateElements schema elements).map Diagnostic.unplaced =
      validateElements schema (elements.map Element.unplaced) := by
  unfold validateElements
  rw [Array.toList_map, ← List.map_tail, List.flatMap_map, List.map_flatMap]
  refine List.flatMap_congr fun e _ => ?_
  have htype : e.unplaced.type = e.type := rfl
  rw [htype]
  split
  next type _ => exact e.unplaced_validate type
  next => rfl

end LayoutMarkup
