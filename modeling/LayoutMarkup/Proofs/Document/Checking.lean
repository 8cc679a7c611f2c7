import LayoutMarkup.Proofs.Document.Amending
import LayoutMarkup.Proofs.Document.Geometry

/-!
# Checking

A draft takes the tokens of a text one by one, and its typings are right after each of them
(`Draft.TypedInStep.take`). This needs three things of the scanner: the name of a start tag is the
first token behind `<`, the name of an end tag does not come in a start tag, and what the scanner
finds is not about types. An attribute waits for its value in an open start tag only, so it is final
when the start tag is closed.

Hence the types of a document are a function of its tree, and so are the remarks on them
(`Document.typedBy_parse`).
-/

namespace LayoutMarkup

namespace Draft

variable {schema : Schema} {rootType : Option TypeId} {d : Draft}

/-! ## Tokens -/

/-- The typings are right, and an attribute that waits for its value is in an open start tag. -/
structure Checked (schema : Schema) (rootType : Option TypeId) (d : Draft) : Prop where
  /-- The typings are right. -/
  typed : d.IsTyped schema rootType
  /-- Only an attribute of the current element waits for its value, while the start tag is open. -/
  waits : d.pending ≠ none → d.OpenTag d.current

/-- The current element has just begun and has no tag yet. -/
def Unnamed (d : Draft) : Prop :=
  ∃ e, d.get? d.current = some e ∧ e.startTagEnd = none ∧ e.tag = none

variable {P : Nat → Prop} {length mark : Nat} {stack : List ElementId}

/-- Where nothing waits for a value, the typings are all there is to check. -/
theorem IsTyped.checked (h : d.IsTyped schema rootType) (hpending : d.pending = none) :
    d.Checked schema rootType :=
  ⟨h, fun hne => absurd hpending hne⟩

/-- Nothing waits for a value in a closed start tag. -/
theorem Checked.pending_eq_none (h : d.Checked schema rootType) (hclosed : ¬ d.OpenTag d.current) :
    d.pending = none := by
  by_contra hne
  exact hclosed (h.waits hne)

/-- Choosing a type leaves what waits for its value. -/
theorem pending_resolveAlternation (schema : Schema) (d : Draft) (id : ElementId) :
    (resolveAlternation schema d id).pending = d.pending := by
  unfold resolveAlternation
  split
  next => rfl
  next =>
    split
    next =>
      split
      next => rfl
      next =>
        dsimp only
        split <;> rfl
    next => rfl

/-- Closing the start tag of the current element keeps the typings right. -/
theorem Checked.closeStartTag (h : d.Checked schema rootType) (htag : d.inStartTag = true)
    (offset : Nat) : (d.closeStartTag schema offset).Checked schema rootType := by
  obtain ⟨-, e, he, hopen⟩ := (inStartTag_iff d).1 htag
  have htyped : IsTyped schema rootType { d with pending := none } := h.typed
  exact (htyped.settle he hopen offset).checked (pending_resolveAlternation ..)

/-- Closing a start tag that is open keeps the typings right. -/
theorem Checked.endStartTag (h : d.Checked schema rootType) (offset : Nat) :
    (d.endStartTag schema offset).Checked schema rootType := by
  unfold Draft.endStartTag
  split
  next htag => exact h.closeStartTag htag offset
  next => exact h

/-- Only the start tag of the current element may be open. -/
theorem Fits.eq_current (h : d.Fits P length mark stack) {j : ElementId} (hj : d.OpenTag j) :
    j = d.current := by
  obtain ⟨s, hs, hnone⟩ := hj
  obtain ⟨hhead, -⟩ := h.laid.unclosed hs hnone
  exact Option.some_inj.1 (hhead.symm.trans h.current)

/-- The current element is there. -/
theorem Fits.exists_current (h : d.Fits P length mark stack) :
    ∃ e, d.get? d.current = some e := by
  obtain ⟨rest, rfl⟩ := List.head?_eq_some_iff.1 h.current
  obtain ⟨s, hs⟩ := h.laid.exists_top
  obtain ⟨e, he, -⟩ := exists_get? hs
  exact ⟨e, he⟩

/-- A `<` begins an element without a tag. -/
theorem Checked.openElement (h : d.Checked schema rootType) (hfits : d.Fits P length mark stack)
    {span : Span} (hle : mark ≤ span.start) (hlen : span.start ≤ length) (hP : P span.start) :
    (d.openElement schema length span).Checked schema rootType ∧
      (d.openElement schema length span).Unnamed := by
  unfold Draft.openElement
  dsimp only
  have hforgot : Checked schema rootType { d with endTagTarget := none, pending := none } :=
    IsTyped.checked (d := { d with endTagTarget := none, pending := none }) h.typed rfl
  have hended := hforgot.endStartTag span.start
  obtain ⟨hfits', htag⟩ := (hfits.forget none).endStartTag hle hlen hP schema
  have hpending := hended.pending_eq_none htag
  generalize ({ d with endTagTarget := none, pending := none } : Draft).endStartTag schema
    span.start = d' at hended hfits' htag hpending
  -- All start tags are closed now, and a second top-level element changes nothing about that.
  have hnoted := same_noteTopLevel d' span
  have hfits'' := hfits'.same hnoted
  have htyped := hended.typed.same (sameTyping_noteTopLevel d' span)
  have hkept : (d'.noteTopLevel span).pending = d'.pending := by
    unfold noteTopLevel
    split <;> rfl
  obtain ⟨e, he⟩ := hfits''.exists_current
  have hbegun := htyped.addChild he (fun {j} hj => htag
    (hnoted.openTag_current.1 (hfits''.eq_current hj ▸ hj))) length span.start
  have hnew := (d'.noteTopLevel span).get?_addChild length span.start
    (d'.noteTopLevel span).elements.size
  rw [if_pos rfl] at hnew
  exact ⟨hbegun.checked (hkept.trans hpending), _, hnew, rfl, rfl⟩

/-- The tag of the element that has just begun keeps the typings right. -/
theorem Checked.nameElement (h : d.Checked schema rootType) (hfits : d.Fits P length mark stack)
    (hbegun : d.Unnamed) (token : Token) :
    (d.nameElement schema token).Checked schema rootType := by
  obtain ⟨e, he, hopen, htag⟩ := hbegun
  have hroot := hfits.laid.ne_root_of_unclosed (shapes_eq he) hopen
  exact ⟨h.typed.nameElement he hopen htag hroot token, fun _ =>
    (d.same_nameElement schema token).openTag_current.2 ⟨_, shapes_eq he, hopen⟩⟩

/-- An attribute keeps the typings right, and it waits for its value in an open start tag only. -/
theorem Checked.addAttribute (h : d.Checked schema rootType) (token : Token) :
    (d.addAttribute token).Checked schema rootType := by
  refine ⟨h.typed.same (d.sameTyping_addAttribute token), fun hwaits => ?_⟩
  refine (d.same_addAttribute token).openTag_current.2 ?_
  by_contra hclosed
  have htag : d.inStartTag = false := by
    refine Bool.eq_false_iff.2 fun htag => hclosed ?_
    obtain ⟨-, e, he, hopen⟩ := (inStartTag_iff d).1 htag
    exact ⟨_, shapes_eq he, hopen⟩
  refine hwaits ?_
  unfold Draft.addAttribute
  exact congrArg Draft.pending (if_pos (congrArg not htag))

/-- A value keeps the typings right, and nothing waits for one any more. -/
theorem Checked.setValue (h : d.Checked schema rootType) (token : Token) :
    (d.setValue token).Checked schema rootType := by
  refine (h.typed.same (sameTyping_setValue h.waits token)).checked ?_
  unfold Draft.setValue
  split
  next hnone => exact hnone
  next => rfl

/-- The name of an end tag behind a closed start tag keeps the typings right. -/
theorem Checked.matchEndTag (h : d.Checked schema rootType) (hclosed : ¬ d.OpenTag d.current)
    (token : Token) : (d.matchEndTag token).Checked schema rootType := by
  have hkept : (d.matchEndTag token).pending = d.pending :=
    matchEndTag_cases (motive := fun d' => d'.pending = d.pending) d token rfl
      (fun _ _ _ _ => rfl) (fun _ _ _ _ _ _ _ => rfl) fun _ _ => rfl
  exact (h.typed.same (d.sameTyping_matchEndTag token)).checked
    (hkept.trans (h.pending_eq_none hclosed))

/-- A token keeps the typings right. The tag of an element is the first token in it, and the name of
an end tag does not come in a start tag. -/
theorem Checked.step (h : d.Checked schema rootType) (hfits : d.Fits P length mark stack)
    {token : Token} (hnext : Next P length mark token)
    (hname : token.kind = .tagName → d.Unnamed)
    (hend : token.kind = .endTagName → ¬ d.OpenTag d.current) :
    (d.step schema length token).Checked schema rootType := by
  unfold Draft.step
  cases hkind : token.kind with
  | tagOpen =>
    have hstart := hnext.start
    exact (h.openElement hfits (Nat.le_of_eq hstart.symm)
      (hstart ▸ Nat.le_trans hnext.le hnext.stop_le) (hstart.symm ▸ hnext.mark)).1
  | tagName => exact h.nameElement hfits (hname hkind) token
  | attributeName => exact h.addAttribute token
  | attributeValue => exact h.setValue token
  | tagClose => exact h.endStartTag token.span.stop
  | tagSelfClose =>
    dsimp only
    split
    next htag =>
      -- Closing the element leaves the typings, so nothing waits for its start tag any more.
      have hclosed := h.closeStartTag htag token.span.stop
      refine (hclosed.typed.same (sameTyping_close ..)).checked ?_
      exact pending_resolveAlternation ..
    next => exact h
  | endTagOpen =>
    have hforgot : Checked schema rootType { d with endTagTarget := none } := ⟨h.typed, h.waits⟩
    have hclosed := hforgot.endStartTag token.span.start
    exact ⟨hclosed.typed, hclosed.waits⟩
  | endTagName => exact h.matchEndTag (hend hkind) token
  | endTagClose =>
    dsimp only
    split
    next target htarget =>
      -- The element that waits for the `>` is the current one, with a closed start tag.
      obtain ⟨rfl, -, hclosed⟩ := hfits.target htarget
      have htyped : IsTyped schema rootType { d with endTagTarget := none } := h.typed
      exact (htyped.same (sameTyping_close ..)).checked (h.pending_eq_none hclosed)
    next => exact h
  | _ => exact h

/-- What the scanner finds is not about types. -/
theorem sameTyping_found (d : Draft) {found : Option Diagnostic} (h : Scanner.Lexical found) :
    d.SameTyping { d with log := found.elim d.log d.log.add } := by
  cases found with
  | none => exact .refl d
  | some x =>
    obtain ⟨code, hcode, hlexical⟩ := h x rfl
    have hne : ∀ other : Code, other.isLexical = false → x.code ≠ some other := by
      intro other hother heq
      obtain rfl := Option.some_inj.1 (hcode.symm.trans heq)
      exact Bool.false_ne_true (hother.symm.trans hlexical)
    exact d.sameTyping_add (hne .unknownElement rfl) (hne .unknownType rfl)

/-- After the tokens so far the typings are right. Right behind `<` there is an element without a
tag. -/
structure TypedInStep (schema : Schema) (rootType : Option TypeId) (text : List Char) (s : Scanner)
    (d : Draft) : Prop extends InStep text s d, Checked schema rootType d where
  /-- The element behind `<`. -/
  unnamed : s.state = .tagOpened → d.Unnamed

/-- Every step of the scanner keeps the typings right. -/
theorem TypedInStep.take {text : List Char} {s : Scanner}
    (h : TypedInStep schema rootType text s d) :
    TypedInStep schema rootType text s.scan.after
      (d.take schema (Text.byteLength text) s.scan) := by
  obtain ⟨stack, hfits⟩ := h.fits
  have hnext := next_scan h.within
  have hlog := d.sameTyping_found s.lexical_scan
  have hsame : d.Same { d with log := s.scan.diagnostic.elim d.log d.log.add } :=
    ⟨rfl, rfl, rfl, rfl, rfl⟩
  have hchecked : Checked schema rootType
      { d with log := s.scan.diagnostic.elim d.log d.log.add } := ⟨h.typed.same hlog, h.waits⟩
  have hstep := hchecked.step (hfits.same hsame) hnext (fun hkind => ?_) fun hkind => ?_
  · refine { h.toInStep.take schema, hstep with unnamed := fun hstate => ?_ }
    rcases s.scan_spec.outcome with ⟨-, hkind, hstay⟩ | ⟨m, -, hmem⟩
    · -- At the end of the text nothing happens.
      unfold Draft.take Draft.step
      rw [hkind]
      exact h.unnamed (hstay ▸ hstate)
    · -- Right behind `<` the token was that, and a new element has no tag.
      rw [hstate] at hmem
      unfold Draft.take Draft.step
      rw [Scanner.State.eq_tagOpen_of_tagOpened hmem]
      have hstart := hnext.start
      exact (hchecked.openElement (hfits.same hsame) (Nat.le_of_eq hstart.symm)
        (hstart ▸ h.within.offset_le) (hstart.symm ▸ hnext.mark)).2
  · rcases s.scan_spec.outcome with ⟨-, hnone, -⟩ | ⟨m, hm, hmem⟩
    · rw [hnone] at hkind
      exact TokenKind.noConfusion hkind
    · rw [hkind] at hmem
      exact h.unnamed (Scanner.State.eq_tagOpened_of_tagName hm hmem)
  · rcases s.scan_spec.outcome with ⟨-, hnone, -⟩ | ⟨m, hm, hmem⟩
    · rw [hnone] at hkind
      exact TokenKind.noConfusion hkind
    · rw [hkind] at hmem
      exact (h.endTag (Scanner.State.eq_endTagOpened_of_endTagName hm hmem)).1.tagClosed

/-! ## The end of the text -/

/-- Ending an open element keeps the typings right. -/
theorem IsTyped.endOpen (h : d.IsTyped schema rootType) (length : Nat) (id : ElementId) :
    (d.endOpen schema length id).IsTyped schema rootType := by
  -- First the start tag.
  obtain ⟨d', hd', htyped⟩ : ∃ d', (if (d.get? id).any (·.startTagEnd.isNone) then
        resolveAlternation schema (d.adjust id fun e => { e with startTagEnd := some length }) id
      else d) = d' ∧ d'.IsTyped schema rootType := by
    split
    next hany =>
      obtain ⟨e, he, hnone⟩ := Option.any_eq_true _ _ |>.1 hany
      exact ⟨_, rfl, h.settle he (Option.isNone_iff_eq_none.1 hnone) length⟩
    next => exact ⟨d, rfl, h⟩
  unfold Draft.endOpen
  rw [hd']
  dsimp only
  split
  next => exact htyped
  next e he =>
    refine htyped.same (SameTyping.trans ?_ (sameTyping_adjust _ id fun _ _ => rfl))
    refine d'.sameTyping_report ?_ ?_ _ <;> split <;> exact fun h => Code.noConfusion h

/-- Ending all open elements keeps the typings right. -/
theorem IsTyped.foldl_endOpen (ids : List ElementId) (h : d.IsTyped schema rootType)
    (length : Nat) : (ids.foldl (Draft.endOpen schema length) d).IsTyped schema rootType := by
  induction ids generalizing d with
  | nil => exact h
  | cons id ids ih => exact ih (h.endOpen length id)

/-- In the beginning only the root has a type. -/
theorem isTyped_start (schema : Schema) (length : Nat) (rootType : Option TypeId) :
    (start length rootType).IsTyped schema rootType :=
  .root

/-- In the beginning of a text the typings are right. -/
theorem typedInStep_start (schema : Schema) (rootType : Option TypeId) (text : String) :
    TypedInStep schema rootType text.toList (Scanner.ofText text)
      (start (Text.byteLength text.toList) rootType) :=
  { inStep_start rootType text, (isTyped_start schema _ rootType).checked rfl with
    unnamed := fun hstate => Scanner.State.noConfusion hstate }

/-- The typings of a text are right. -/
theorem isTyped_ofText (schema : Schema) (rootType : Option TypeId) (text : String) :
    (ofText schema rootType text).IsTyped schema rootType := by
  obtain ⟨s, hstep⟩ := Scanner.run_induction (fun h => h.take)
    (typedInStep_start schema rootType text)
  exact hstep.typed.foldl_endOpen _ (Text.byteLength text.toList)

end Draft

/-! ## Documents that were read -/

/-- What there is to say about the `type` attribute of an element. -/
def Element.refusal? (schema : Schema) (e : Element) : Option Diagnostic :=
  (e.definition.bind schema.definition?).bind fun d => (e.attribute? "type").bind d.refusal?

/-- There is something to say when the definition has alternatives and the attribute names none. -/
theorem Element.isSome_refusal?_iff {schema : Schema} {e : Element} :
    (e.refusal? schema).isSome = true ↔ ∃ d choice, e.definition.bind schema.definition? = some d ∧
      e.attribute? "type" = some choice ∧ d.alternatives.isSome ∧
      d.alternative? (choice.value.getD "") = none := by
  unfold refusal? ElementDef.refusal?
  cases e.definition.bind schema.definition? <;> cases e.attribute? "type" <;> simp

/-- Once the start tag is closed, the choice of an element is that of its `type` attribute. -/
theorem Element.choice_typing {e : Element} (h : e.startTagEnd ≠ none) :
    e.typing.choice = e.attribute? "type" :=
  if_pos (Option.isSome_iff_ne_none.2 h)

/-- Once the start tag is closed, what there is to say about the choice is said about the
attribute. -/
theorem Element.refusal?_typing {e : Element} (h : e.startTagEnd ≠ none) (schema : Schema) :
    e.typing.refusal? schema = e.refusal? schema := by
  unfold Typing.refusal? Element.refusal?
  rw [choice_typing h]
  rfl

namespace Draft

variable {schema : Schema} {rootType : Option TypeId} {d : Draft}

/-- What was said about tags is what there is to say about the elements. -/
theorem IsTyped.strays_eq (h : d.IsTyped schema rootType) :
    d.strays = d.elements.toList.filterMap fun e =>
      (e.parent.bind fun p => ((d.get? p).bind (·.type)).bind schema.type?).bind fun scope =>
        e.tag.bind fun tag => scope.stray? tag e.markSpan := by
  rw [Typing.Grown.strays_eq h]
  conv_lhs => unfold typings
  rw [List.filterMap_map]
  refine List.filterMap_congr fun e _ => ?_
  rw [← scope?_typing]
  rfl

/-- What was said about `type` attributes is what there is to say about the elements, once all start
tags are closed. -/
theorem IsTyped.refusals_eq (h : d.IsTyped schema rootType) (hclosed : ∀ {j}, ¬ d.OpenTag j) :
    d.refusals = d.elements.toList.filterMap (·.refusal? schema) := by
  rw [Typing.Grown.refusals_eq h]
  unfold typings
  rw [List.filterMap_map]
  refine List.filterMap_congr fun e he => ?_
  obtain ⟨j, hj⟩ := List.getElem?_of_mem he
  rw [Array.getElem?_toList] at hj
  exact e.refusal?_typing (fun hnone => hclosed ⟨_, shapes_eq hj, hnone⟩) schema

end Draft

/-- What is said about attributes has other codes than what is said about types. -/
theorem withCode_validateElements {code : Code} (hmissing : code ≠ .missingAttribute)
    (hunknown : code ≠ .unknownAttribute) (schema : Schema) (elements : Array Element) :
    Diagnostic.withCode code (validateElements schema elements) = [] := by
  refine List.filter_eq_nil_iff.2 fun found hmem => ?_
  rw [beq_iff_eq]
  unfold validateElements at hmem
  obtain ⟨e, -, hmem⟩ := List.mem_flatMap.1 hmem
  split at hmem
  next type htype =>
    unfold Element.validate at hmem
    rcases List.mem_append.1 hmem with hmem | hmem
    · obtain ⟨a, -, rfl⟩ := List.mem_map.1 hmem
      exact fun hcode => hmissing (Option.some_inj.1 hcode).symm
    · obtain ⟨a, -, rfl⟩ := List.mem_map.1 hmem
      exact fun hcode => hunknown (Option.some_inj.1 hcode).symm
  next => exact absurd hmem List.not_mem_nil

namespace Document

/-- What there is to say about the tag of an element: nothing, unless the parent has a type that
neither expects nor welcomes it. -/
def stray? (schema : Schema) (doc : Document) (e : Element) : Option Diagnostic :=
  (e.parent.bind fun p => ((doc.get? p).bind (·.type)).bind schema.type?).bind fun scope =>
    e.tag.bind fun tag => scope.stray? tag e.markSpan

/-- The types of a document are what the schema makes of its tree. -/
structure TypedBy (schema : Schema) (rootType : Option TypeId) (doc : Document) : Prop where
  /-- The root has the type that it was given. -/
  root : ∃ r, doc.get? .root = some r ∧ r.type = rootType ∧ r.tag = none ∧ r.definition = none ∧
    r.alternationFailed = false
  /-- The definition of any other element is the entry for its tag in the type of the parent. There
  is none without a tag, a type of the parent or an entry. -/
  definition : ∀ {id e}, doc.get? id = some e → id ≠ .root →
    ∃ p f, e.parent = some p ∧ doc.get? p = some f ∧
      e.definition = (f.type.bind schema.type?).bind fun scope => e.tag.bind scope.children.get?
  /-- The type is the alternative that the `type` attribute chooses, or else that of the definition.
  Without a definition there is none. -/
  type : ∀ {id e}, doc.get? id = some e → id ≠ .root →
    e.type = (e.definition.bind schema.definition?).map (·.typeFor (e.attribute? "type"))
  /-- The choice fails when the definition has alternatives and the `type` attribute names none. -/
  failed : ∀ {id e}, doc.get? id = some e → (e.alternationFailed = true ↔
    ∃ d choice, e.definition.bind schema.definition? = some d ∧
      e.attribute? "type" = some choice ∧ d.alternatives.isSome ∧
      d.alternative? (choice.value.getD "") = none)
  /-- There is something to say about the `type` attribute when the choice fails. -/
  refused : ∀ {id e}, doc.get? id = some e → (e.refusal? schema).isSome = e.alternationFailed
  /-- What is said about tags is said once for each element that gives cause. -/
  strays : Diagnostic.withCode .unknownElement doc.diagnostics =
    doc.elements.toList.filterMap (doc.stray? schema)
  /-- What is said about `type` attributes is said once for each element that gives cause. -/
  refusals : Diagnostic.withCode .unknownType doc.diagnostics =
    doc.elements.toList.filterMap (·.refusal? schema)

/-- What is said about types is said while the text is read. -/
theorem withCode_parse {code : Code} (hmissing : code ≠ .missingAttribute)
    (hunknown : code ≠ .unknownAttribute) (name text : String) (schema : Schema)
    (rootType : Option TypeId) :
    Diagnostic.withCode code (parse name text schema rootType).diagnostics =
      Diagnostic.withCode code (Draft.ofText schema rootType text).log.toList := by
  unfold parse Diagnostic.withCode
  rw [List.filter_append]
  exact (congrArg _ (withCode_validateElements hmissing hunknown schema _)).trans
    (List.append_nil _)

/-- For every text, schema and root type, the types of the document and the remarks on them are a
function of its tree. -/
theorem typedBy_parse (name text : String) (schema : Schema) (rootType : Option TypeId) :
    (parse name text schema rootType).TypedBy schema rootType := by
  obtain ⟨stack, hlaid, hopen⟩ := Draft.laid_ofText schema rootType text
  have htyped := Draft.isTyped_ofText schema rootType text
  -- In the end all start tags are closed, and the elements but the root follow the schema.
  have hclosed : ∀ {id e}, (parse name text schema rootType).get? id = some e →
      e.startTagEnd ≠ none := fun he hnone => hopen ⟨_, Draft.shapes_eq he, hnone⟩
  have hfollows : ∀ {id e}, (parse name text schema rootType).get? id = some e → id ≠ .root →
      e.typing.Follows schema (Draft.ofText schema rootType text).typings :=
    fun he hid => Typing.Grown.follows htyped (Draft.typings_eq he) hid
  have hhead := Typing.Grown.head htyped
  rw [Draft.getElem?_typings] at hhead
  obtain ⟨r, hr, hroot⟩ := Option.map_eq_some_iff.1 hhead
  -- What is on record as failed is what is refused; for the root that is nothing.
  have hrefused : ∀ {id e}, (parse name text schema rootType).get? id = some e →
      (e.refusal? schema).isSome = e.alternationFailed := by
    intro id e he
    rw [← Element.refusal?_typing (hclosed he)]
    by_cases hid : id = .root
    · subst hid
      obtain rfl : r = e := Option.some_inj.1 (hr.symm.trans he)
      rw [hroot]
      exact (congrArg Typing.failed hroot).symm
    · exact (hfollows he hid).failed.symm
  exact
    { root := ⟨r, hr, congrArg Typing.type hroot, congrArg Typing.tag hroot,
        congrArg Typing.definition hroot, congrArg Typing.failed hroot⟩
      definition := fun {id e} he hid => by
        obtain ⟨p, s, hparent, -, hs, -⟩ := hlaid.family.parent (Draft.shapes_eq he) hid
        obtain ⟨f, hf, -⟩ := Draft.exists_get? hs
        have hparent : e.parent = some p := hparent
        have hdefinition := (hfollows he hid).definition
        rw [Draft.scope?_typing, hparent, Option.bind_some, hf] at hdefinition
        exact ⟨p, f, hparent, hf, hdefinition⟩
      type := fun {id e} he hid => by
        have htype := (hfollows he hid).type
        rw [Element.choice_typing (hclosed he)] at htype
        exact htype
      failed := fun he => by rw [← hrefused he, Element.isSome_refusal?_iff]
      refused := hrefused
      strays := (withCode_parse (fun h => Code.noConfusion h) (fun h => Code.noConfusion h)
        name text schema rootType).trans htyped.strays_eq
      refusals := (withCode_parse (fun h => Code.noConfusion h) (fun h => Code.noConfusion h)
        name text schema rootType).trans (htyped.refusals_eq hopen) }

end Document

end LayoutMarkup
