import LayoutMarkup.Proofs.Document.Attributes

/-!
# Pointing into the text

Every diagnostic of a document can be shown in its text: the span lies in the text and cuts no
character (`Span.PointsInto`). While the text is read, a remark is made on a token, on the tag or an
attribute of an element, or on the point where an element begins. So the draft keeps that the
elements themselves point into the text (`Draft.Pointing`), one lemma for each of its operations,
and the run adds what the scanner finds to the log and nothing else about tokens
(`Draft.Pointing.run`).

What is said about the attributes of the elements comes last, one element after the other
(`Document.pointing_parse`).
-/

namespace LayoutMarkup

/-! ## Spans -/

/-- A span lies in a text and cuts no character. -/
structure Span.PointsInto (text : List Char) (s : Span) : Prop where
  /-- It does not end before it begins. -/
  start_le : s.start ≤ s.stop
  /-- It ends in the text. -/
  stop_le : s.stop ≤ Text.byteLength text
  /-- It begins between characters. -/
  start : Text.IsBoundary text s.start
  /-- It ends between characters. -/
  stop : Text.IsBoundary text s.stop

namespace Span

/-- The spans that point into a text are those whose slices exist. -/
theorem pointsInto_iff {s : Span} {text : String} :
    s.PointsInto text.toList ↔ (s.slice? text).isSome = true := by
  constructor
  · rintro ⟨hle, -, hstart, hstop⟩
    obtain ⟨front, rest, htext, hfront⟩ := Text.isBoundary_iff.1 hstart
    obtain ⟨whole, back, htext', hwhole⟩ := Text.isBoundary_iff.1 hstop
    -- What is in front of the beginning is in front of the end, as it has no more bytes.
    obtain ⟨piece, rfl⟩ : front <+: whole := by
      refine (List.prefix_or_prefix_of_prefix ⟨rest, htext.symm⟩ ⟨back, htext'.symm⟩).elim id ?_
      rintro ⟨more, rfl⟩
      -- What is behind the end has no bytes.
      rw [Text.byteLength_append] at hfront
      obtain rfl : more = [] := by
        by_contra hne
        have := Text.byteLength_pos hne
        omega
      rw [List.append_nil]
    rw [Text.byteLength_append, ← hfront] at hwhole
    have hslice := slice?_append front piece back
    rw [← hfront, ← hwhole, ← List.append_assoc, ← htext', String.ofList_toList] at hslice
    rw [hslice]
    rfl
  · intro h
    obtain ⟨piece, hpiece⟩ := Option.isSome_iff_exists.1 h
    simp only [slice?, Option.bind_eq_bind, Option.bind_eq_some_iff] at hpiece
    obtain ⟨_, hguard, ⟨front, rest⟩, hfront, ⟨covered, back⟩, hcovered, -⟩ := hpiece
    obtain ⟨htext, hstart⟩ := Text.splitBytes?_eq_some hfront
    obtain ⟨rfl, hsize⟩ := Text.splitBytes?_eq_some hcovered
    have hle : s.start ≤ s.stop := by
      by_contra hnot
      rw [guard, if_neg hnot] at hguard
      exact absurd hguard (Option.some_ne_none _).symm
    have hstop : Text.IsBoundary text.toList s.stop := by
      refine Text.isBoundary_iff.2 ⟨front ++ covered, back, ?_, ?_⟩
      · rw [htext, List.append_assoc]
      · rw [Text.byteLength_append, ← hstart, ← hsize, Span.size]
        omega
    exact ⟨hle, hstop.le_byteLength, Text.isBoundary_iff.2 ⟨front, _, htext, hstart⟩, hstop⟩

/-- A boundary as a span points into the text. -/
theorem pointsInto_point {text : List Char} {offset : Nat} (h : Text.IsBoundary text offset) :
    (point offset).PointsInto text :=
  ⟨Nat.le_refl _, h.le_byteLength, h, h⟩

end Span

/-! ## Codes -/

/-- Whether the code is about what the type of an element says of its attributes. -/
def Code.isAttributeCheck : Code → Bool
  | missingAttribute | unknownAttribute => true
  | _ => false

/-- The rules of attributes are those shown as `E202` and `E203`. -/
theorem Code.isAttributeCheck_iff {code : Code} :
    code.isAttributeCheck = true ↔ code.label = "E202" ∨ code.label = "E203" := by
  cases code <;> decide

/-- The rules of tokens are those shown with `E0`. -/
theorem Code.isLexical_iff {code : Code} :
    code.isLexical = true ↔ "E0".toList <+: code.label.toList := by
  cases code <;> decide

namespace Diagnostic

/-- Whether the diagnostic is about reading tokens. -/
def isLexical (x : Diagnostic) : Bool :=
  x.code.any Code.isLexical

/-- Whether the diagnostic is about what the type of an element says of its attributes. -/
def isAttributeCheck (x : Diagnostic) : Bool :=
  x.code.any Code.isAttributeCheck

end Diagnostic

/-! ## The scanner -/

namespace Scanner

/-- What is found until a token is taken is about the token or the point in front of it. -/
theorem span_advance (offset : Nat) (cs : List Char) (state : State) {pending : Option Diagnostic}
    (h : ∀ x ∈ pending, x.span = .point offset) :
    ∀ x ∈ (advance offset cs state pending).diagnostic, x.span = .point offset ∨
      x.span = (advance offset cs state pending).token.span := by
  fun_induction advance offset cs state pending with
  | case1 state pending kind lexeme rest next cause hm span =>
    intro x hx
    cases cause with
    | none => exact .inl (h x hx)
    | some cause =>
      cases hx
      exact .inr rfl
  | case2 state pending next cause hm ih =>
    refine ih fun x hx => ?_
    cases cause with
    | none => exact h x hx
    | some cause =>
      cases hx
      rfl

/-- What a step of a scanner in a text finds points into the text. -/
theorem Within.pointsInto {text : List Char} {s : Scanner} (h : s.Within text) :
    s.scan.token.span.PointsInto text ∧ ∀ x ∈ s.scan.diagnostic, x.span.PointsInto text := by
  have htoken : s.scan.token.span.PointsInto text := by
    rw [s.span_scan]
    exact ⟨s.offset_le_scan, h.scan.offset_le, h.isBoundary, h.scan.isBoundary⟩
  refine ⟨htoken, fun x hx => ?_⟩
  have hspans := span_advance s.offset s.rest s.state fun _ hy => absurd hy (Option.not_mem_none _)
  rcases hspans x hx with hspan | hspan
  · rw [hspan]
    exact Span.pointsInto_point h.isBoundary
  · rw [hspan]
    exact htoken

end Scanner

/-! ## Elements -/

/-- Whatever a remark on an element would be about points into the text. -/
structure Element.Pointing (text : List Char) (e : Element) : Prop where
  /-- The point where it begins. -/
  start : Text.IsBoundary text e.start
  /-- Its tag. -/
  tag : ∀ span ∈ e.tagSpan, span.PointsInto text
  /-- The names and values of its attributes. -/
  attributes : ∀ {key a}, e.attributes.get? key = some a → ∀ span ∈ a.spans, span.PointsInto text

namespace Element.Pointing

variable {text : List Char} {e e' : Element}

/-- An element that begins alike, with the same tag and attributes, points into the text. -/
theorem congr (h : e.Pointing text) (hstart : e'.start = e.start) (htag : e'.tagSpan = e.tagSpan)
    (hattributes : e'.attributes = e.attributes) : e'.Pointing text where
  start := hstart ▸ h.start
  tag := htag ▸ h.tag
  attributes := by
    rw [hattributes]
    exact h.attributes

/-- The tag of an element, or the point where it begins. -/
theorem markSpan (h : e.Pointing text) : e.markSpan.PointsInto text := by
  unfold Element.markSpan
  cases htag : e.tagSpan with
  | none => exact Span.pointsInto_point h.start
  | some span => exact h.tag span htag

/-- The value of an attribute, or its name. -/
theorem valueSpan (h : e.Pointing text) {key : String} {a : Attribute}
    (ha : e.attributes.get? key = some a) : (a.valueSpan.getD a.nameSpan).PointsInto text := by
  refine h.attributes ha _ ?_
  unfold Attribute.spans
  cases a.valueSpan with
  | none => exact List.mem_cons_self
  | some span => exact List.mem_cons_of_mem _ (List.mem_singleton_self span)

end Element.Pointing

/-! ## Drafts -/

namespace Draft

variable {text : List Char} {found : List Diagnostic} {d d' : Draft} {id : ElementId}
  {token : Token} {offset : Nat}

/-- What was made of a text so far points into it. -/
structure Pointing (text : List Char) (found : List Diagnostic) (d : Draft) : Prop where
  /-- The elements do. -/
  elements : ∀ {id e}, d.get? id = some e → e.Pointing text
  /-- The remarks do. -/
  remarks : ∀ x ∈ d.log.toList, x.span.PointsInto text
  /-- The remarks on tokens are those that the scanner made. -/
  lexical : d.log.toList.filter Diagnostic.isLexical = found
  /-- No remark checks the attributes against a type. -/
  unchecked : ∀ x ∈ d.log.toList, x.isAttributeCheck = false

namespace Pointing

/-! ### Changes -/

/-- The elements and the log are all that points into the text. -/
theorem congr (h : d.Pointing text found) (helements : d'.elements = d.elements)
    (hlog : d'.log = d.log) : d'.Pointing text found where
  elements he := h.elements ((congrArg (·[_]?) helements.symm).trans he)
  remarks := hlog ▸ h.remarks
  lexical := hlog ▸ h.lexical
  unchecked := hlog ▸ h.unchecked

/-- A change of an element. -/
theorem adjust (h : d.Pointing text found) {f : Element → Element}
    (hf : ∀ {e}, d.get? id = some e → e.Pointing text → (f e).Pointing text) :
    (d.adjust id f).Pointing text found where
  elements {j e'} he' := by
    rw [get?_adjust] at he'
    split at he'
    next heq =>
      subst heq
      obtain ⟨e, he, rfl⟩ := Option.map_eq_some_iff.1 he'
      exact hf he (h.elements he)
    next => exact h.elements he'
  remarks := h.remarks
  lexical := h.lexical
  unchecked := h.unchecked

/-- A change that is not about where the parts of an element stand. -/
theorem aside (h : d.Pointing text found) (id : ElementId) {f : Element → Element}
    (hf : ∀ e, (f e).start = e.start ∧ (f e).tagSpan = e.tagSpan ∧
      (f e).attributes = e.attributes) : (d.adjust id f).Pointing text found :=
  h.adjust fun {e} _ he => he.congr (hf e).1 (hf e).2.1 (hf e).2.2

/-- A remark that checks no attributes. It counts if it is about a token. -/
theorem add (h : d.Pointing text found) {x : Diagnostic} (hspan : x.span.PointsInto text)
    (hcheck : x.isAttributeCheck = false) :
    { d with log := d.log.add x }.Pointing text (found ++ [x].filter Diagnostic.isLexical) := by
  have hlog : (d.log.add x).toList = d.log.toList ++ [x] := Array.toList_push
  refine ⟨h.elements, fun y hy => ?_, ?_, fun y hy => ?_⟩
  · rw [hlog, List.mem_append, List.mem_singleton] at hy
    rcases hy with hy | rfl
    · exact h.remarks y hy
    · exact hspan
  · rw [hlog, List.filter_append, h.lexical]
  · rw [hlog, List.mem_append, List.mem_singleton] at hy
    rcases hy with hy | rfl
    · exact h.unchecked y hy
    · exact hcheck

/-- A remark on the tree of elements. -/
theorem report (h : d.Pointing text found) {cause : Cause} {span : Span}
    (hspan : span.PointsInto text) (hlexical : cause.code.isLexical = false)
    (hcheck : cause.code.isAttributeCheck = false) : (d.report cause span).Pointing text found := by
  have hadd := h.add (x := cause.on span) hspan hcheck
  have hnot : (cause.on span).isLexical = false := hlexical
  rwa [List.filter_singleton, hnot, cond_false, List.append_nil] at hadd

/-- What the scanner finds. -/
theorem scanned (h : d.Pointing text found) {x : Option Diagnostic}
    (hlexical : Scanner.Lexical x) (hspan : ∀ y ∈ x, y.span.PointsInto text) :
    { d with log := x.elim d.log d.log.add }.Pointing text (found ++ x.toList) := by
  cases x with
  | none => rwa [Option.toList_none, List.append_nil]
  | some x =>
    obtain ⟨code, hcode, htrue⟩ := hlexical x rfl
    have hx : x.isLexical = true := by
      unfold Diagnostic.isLexical
      rwa [hcode]
    -- No rule of tokens is one of attributes.
    have hcheck : x.isAttributeCheck = false := by
      unfold Diagnostic.isAttributeCheck
      rw [hcode]
      revert htrue
      cases code <;> decide
    have hadd := h.add (hspan x rfl) hcheck
    rwa [List.filter_singleton, hx, cond_true] at hadd

/-! ### Operations -/

/-- Choosing a type. -/
theorem resolveAlternation (h : d.Pointing text found) (schema : Schema) (id : ElementId) :
    (resolveAlternation schema d id).Pointing text found := by
  unfold Draft.resolveAlternation
  split
  next => exact h
  next e he =>
    split
    next definition choice hdefinition hchoice =>
      split
      next => exact h
      next =>
        dsimp only
        split
        next => exact h.aside id fun _ => ⟨rfl, rfl, rfl⟩
        next =>
          have hfailed : (d.adjust id fun e =>
              { e with alternationFailed := true }).Pointing text found :=
            h.aside id fun _ => ⟨rfl, rfl, rfl⟩
          exact hfailed.report ((h.elements he).valueSpan hchoice) rfl rfl
    next => exact h

/-- Setting the end of a start tag. -/
theorem setStartTagEnd (h : d.Pointing text found) (schema : Schema) (id : ElementId)
    (offset : Nat) :
    (Draft.resolveAlternation schema
      (d.adjust id fun e => { e with startTagEnd := some offset }) id).Pointing text found := by
  have hset : (d.adjust id fun e => { e with startTagEnd := some offset }).Pointing text found :=
    h.aside id fun _ => ⟨rfl, rfl, rfl⟩
  exact hset.resolveAlternation schema id

/-- Closing the start tag of the current element. -/
theorem closeStartTag (h : d.Pointing text found) (schema : Schema) (offset : Nat) :
    (d.closeStartTag schema offset).Pointing text found := by
  have hpending : { d with pending := none }.Pointing text found := h.congr rfl rfl
  exact hpending.setStartTagEnd schema d.current offset

/-- Closing a start tag, if it is open. -/
theorem endStartTag (h : d.Pointing text found) (schema : Schema) (offset : Nat) :
    (d.endStartTag schema offset).Pointing text found := by
  unfold Draft.endStartTag
  split
  next => exact h.closeStartTag schema offset
  next => exact h

/-- Closing an element. -/
theorem close (h : d.Pointing text found) (id : ElementId) (offset : Nat) (selfClosed : Bool) :
    (d.close id offset selfClosed).Pointing text found := by
  have hclosed : (d.adjust id fun e =>
      { e with stop := offset, closed := true, selfClosed := selfClosed }).Pointing text found :=
    h.aside id fun _ => ⟨rfl, rfl, rfl⟩
  exact hclosed.congr rfl rfl

/-- Beginning an element at a boundary. -/
theorem addChild (h : d.Pointing text found) (hoffset : Text.IsBoundary text offset)
    (length : Nat) : (d.addChild length offset).Pointing text found where
  elements {j e'} he' := by
    rw [get?_addChild] at he'
    split at he'
    next =>
      -- The new element has neither tag nor attributes yet.
      obtain rfl := Option.some_inj.1 he'
      exact ⟨hoffset, fun _ hspan => (Option.not_mem_none _ hspan).elim,
        fun hget => absurd hget (Option.some_ne_none _).symm⟩
    next =>
      split at he'
      next =>
        obtain ⟨e, he, rfl⟩ := Option.map_eq_some_iff.1 he'
        exact (h.elements he).congr rfl rfl rfl
      next => exact h.elements he'
  remarks := h.remarks
  lexical := h.lexical
  unchecked := h.unchecked

/-- Taking a `<`. -/
theorem openElement (h : d.Pointing text found) {span : Span} (hspan : span.PointsInto text)
    (schema : Schema) (length : Nat) : (d.openElement schema length span).Pointing text found := by
  have hforgot : { d with endTagTarget := none, pending := none }.Pointing text found :=
    h.congr rfl rfl
  have hended := hforgot.endStartTag schema span.start
  unfold Draft.openElement
  refine addChild ?_ hspan.start length
  unfold noteTopLevel
  split
  next => exact (hended.report hspan rfl rfl).congr rfl rfl
  next => exact hended

/-- Taking the name of a start tag. -/
theorem nameElement (h : d.Pointing text found) (htoken : token.span.PointsInto text)
    (schema : Schema) : (d.nameElement schema token).Pointing text found := by
  unfold Draft.nameElement
  split
  next => exact h
  next =>
    -- The span of the tag is that of the token; the cases below only look for a type, and report in
    -- one of them.
    have hnamed : (d.adjust d.current fun e =>
        { e with tag := some token.text, tagSpan := some token.span }).Pointing text found :=
      h.adjust fun _ he =>
        { he with
          tag := fun span hspan => by
            obtain rfl := Option.some_inj.1 hspan
            exact htoken }
    dsimp only
    split
    next => exact hnamed
    next =>
      split
      next => exact hnamed.aside d.current fun _ => ⟨rfl, rfl, rfl⟩
      next =>
        split
        next => exact hnamed
        next => exact hnamed.report htoken rfl rfl

/-- Taking the name of an attribute. -/
theorem addAttribute (h : d.Pointing text found) (htoken : token.span.PointsInto text) :
    (d.addAttribute token).Pointing text found := by
  have hpending : { d with pending := none }.Pointing text found := h.congr rfl rfl
  unfold Draft.addAttribute
  dsimp only
  split
  next => exact hpending
  next =>
    split
    next => exact hpending.report htoken rfl rfl
    next =>
      refine Pointing.congr (d := Draft.adjust { d with pending := none } d.current fun e =>
        { e with
          attributes := e.attributes.insert (Text.lower token.text)
            ⟨token.text, token.span, none, none⟩ }) ?_ rfl rfl
      -- The only new span is that of the name, since the value still has to come.
      refine hpending.adjust fun {e} _ he => { he with attributes := fun {key a} ha => ?_ }
      rw [OrderedMap.get?_insert] at ha
      split at ha
      next =>
        obtain rfl := Option.some_inj.1 ha
        exact List.forall_mem_singleton.2 htoken
      next => exact he.attributes ha

/-- Taking a value. -/
theorem setValue (h : d.Pointing text found) (htoken : token.span.PointsInto text) :
    (d.setValue token).Pointing text found := by
  unfold Draft.setValue
  split
  next => exact h
  next waiting hwaiting =>
    have hpending : { d with pending := none }.Pointing text found := h.congr rfl rfl
    refine hpending.adjust fun {e} _ he => { he with attributes := fun {key a} ha => ?_ }
    rw [OrderedMap.get?_adjust] at ha
    split at ha
    next =>
      obtain ⟨b, hb, rfl⟩ := Option.map_eq_some_iff.1 ha
      have hname := he.attributes hb b.nameSpan List.mem_cons_self
      exact List.forall_mem_cons.2 ⟨hname, List.forall_mem_singleton.2 htoken⟩
    next => exact he.attributes ha

/-- Taking the name of an end tag. -/
theorem matchEndTag (h : d.Pointing text found) (htoken : token.span.PointsInto text) :
    (d.matchEndTag token).Pointing text found := by
  have hexpect : ∀ {c : Draft} (id : ElementId), c.Pointing text found →
      (c.expect id).Pointing text found := by
    intro c id hc
    have hmarked : (c.adjust id fun e =>
        { e with endTagStart := some c.endTagOpen }).Pointing text found :=
      hc.aside id fun _ => ⟨rfl, rfl, rfl⟩
    exact hmarked.congr rfl rfl
  refine matchEndTag_cases d token h (fun _ _ _ _ => hexpect d.current h)
    (fun e parent _ he _ _ _ => ?_) fun e _ => h.report htoken rfl rfl
  have hreport : (d.report (.missingEndTag e.tagText) e.markSpan).Pointing text found :=
    h.report (h.elements he).markSpan rfl rfl
  exact hexpect parent (hreport.aside d.current fun _ => ⟨rfl, rfl, rfl⟩)

/-! ### Tokens -/

/-- Taking a token. -/
theorem step (h : d.Pointing text found) (htoken : token.span.PointsInto text) (schema : Schema)
    (length : Nat) : (d.step schema length token).Pointing text found := by
  unfold Draft.step
  -- One lemma per kind of token that does something; the last case is for tokens that are passed
  -- over.
  cases token.kind with
  | tagOpen => exact h.openElement htoken schema length
  | tagName => exact h.nameElement htoken schema
  | attributeName => exact h.addAttribute htoken
  | attributeValue => exact h.setValue htoken
  | tagClose => exact h.endStartTag schema token.span.stop
  | tagSelfClose =>
    dsimp only
    split
    next => exact (h.closeStartTag schema token.span.stop).close d.current token.span.stop true
    next => exact h
  | endTagOpen =>
    have hforgot : { d with endTagTarget := none }.Pointing text found := h.congr rfl rfl
    exact (hforgot.endStartTag schema token.span.start).congr rfl rfl
  | endTagName => exact h.matchEndTag htoken
  | endTagClose =>
    dsimp only
    split
    next target htarget =>
      have hforgot : { d with endTagTarget := none }.Pointing text found := h.congr rfl rfl
      exact hforgot.close target token.span.stop false
    next => exact h
  | _ => exact h

/-- A step of the scanner adds what it finds. -/
theorem take (h : d.Pointing text found) {s : Scanner} (hs : s.Within text) (schema : Schema)
    (length : Nat) :
    (d.take schema length s.scan).Pointing text (found ++ s.scan.diagnostic.toList) :=
  (h.scanned s.lexical_scan hs.pointsInto.2).step hs.pointsInto.1 schema length

/-- The rest of a text adds what the scanner finds in it. -/
theorem run {s : Scanner} (h : d.Pointing text found) (hs : s.Within text) (schema : Schema)
    (length : Nat) :
    (s.run.foldl (Draft.take schema length) d).Pointing text
      (found ++ s.run.filterMap (·.diagnostic)) := by
  rw [List.filterMap_eq_flatMap_toList]
  fun_induction Scanner.run s generalizing d found with
  | case1 s hnil =>
    rw [List.flatMap_singleton]
    exact h.take hs schema length
  | case2 s hne ih =>
    rw [List.flatMap_cons, ← List.append_assoc]
    exact ih (h.take hs schema length) hs.scan

/-! ### The end of the text -/

/-- Ending an element with the text. -/
theorem endOpen (h : d.Pointing text found) (schema : Schema) (length : Nat) (id : ElementId) :
    (d.endOpen schema length id).Pointing text found := by
  -- A start tag that is still open is ended first.
  obtain ⟨d', hd', hended⟩ : ∃ d', (if (d.get? id).any (·.startTagEnd.isNone) then
        Draft.resolveAlternation schema
          (d.adjust id fun e => { e with startTagEnd := some length }) id
      else d) = d' ∧ d'.Pointing text found := by
    split
    next => exact ⟨_, rfl, h.setStartTagEnd schema id length⟩
    next => exact ⟨d, rfl, h⟩
  unfold Draft.endOpen
  rw [hd']
  dsimp only
  split
  next => exact hended
  next e he =>
    refine Pointing.aside ?_ id fun _ => ⟨rfl, rfl, rfl⟩
    refine hended.report (hended.elements he).markSpan ?_ ?_ <;> split <;> rfl

/-- Ending some elements with the text. -/
theorem foldl_endOpen (h : d.Pointing text found) (schema : Schema) (length : Nat)
    (ids : List ElementId) : (ids.foldl (Draft.endOpen schema length) d).Pointing text found := by
  induction ids generalizing d with
  | nil => exact h
  | cons id ids ih => exact ih (h.endOpen schema length id)

/-- Ending all open elements with the text. -/
theorem finish (h : d.Pointing text found) (schema : Schema) (length : Nat) :
    (d.finish schema length).Pointing text found :=
  (h.foldl_endOpen schema length _).congr rfl rfl

end Pointing

/-- In the beginning nothing was said. -/
theorem pointing_start (text : List Char) (length : Nat) (rootType : Option TypeId) :
    (start length rootType).Pointing text [] where
  elements {id e} he := by
    cases id with
    | zero =>
      obtain rfl := Option.some_inj.1 he
      exact ⟨Text.isBoundary_zero text, fun _ hspan => (Option.not_mem_none _ hspan).elim,
        fun hget => absurd hget (Option.some_ne_none _).symm⟩
    | succ id => exact absurd he (Option.some_ne_none _).symm
  remarks _ hx := absurd hx List.not_mem_nil
  lexical := rfl
  unchecked _ hx := absurd hx List.not_mem_nil

/-- What is made of a text points into it, and the remarks on tokens are those of the scanner. -/
theorem pointing_ofText (schema : Schema) (rootType : Option TypeId) (text : String) :
    (ofText schema rootType text).Pointing text.toList
      ((tokenize text).filterMap (·.diagnostic)) := by
  have hstart := pointing_start text.toList (Text.byteLength text.toList) rootType
  exact (hstart.run (Scanner.within_ofText text) schema _).finish schema _

end Draft

/-! ## Documents that were read -/

/-- What the type of an element says of its attributes. -/
def Element.checks (schema : Schema) (e : Element) : List Diagnostic :=
  (e.type.bind schema.type?).elim [] e.validate

/-- The elements are checked one after the other. -/
theorem validateElements_eq (schema : Schema) (elements : Array Element) :
    validateElements schema elements = elements.toList.tail.flatMap (Element.checks schema) := by
  unfold validateElements
  refine congrArg (List.flatMap · _) (funext fun e => ?_)
  unfold Element.checks
  cases e.type.bind schema.type? <;> rfl

/-- What a check of the attributes of an element can say. -/
inductive Element.Check (e : Element) (x : Diagnostic) : Prop
  /-- A required attribute is missing; this is said of the tag. -/
  | missing : x.code = some .missingAttribute → x.span = e.markSpan → e.Check x
  /-- There is an attribute that the type does not know; this is said of its name. -/
  | unknown {key : String} {a : Attribute} : x.code = some .unknownAttribute →
    e.attributes.get? key = some a → x.span = a.nameSpan → e.Check x

/-- The checks of an element say nothing else. -/
theorem Element.check_of_mem_checks {schema : Schema} {e : Element} {x : Diagnostic}
    (h : x ∈ e.checks schema) : e.Check x := by
  unfold checks at h
  cases htype : e.type.bind schema.type? with
  | none =>
    rw [htype] at h
    exact absurd h List.not_mem_nil
  | some type =>
    rw [htype] at h
    rcases List.mem_append.1 h with h | h
    · obtain ⟨a, -, rfl⟩ := List.mem_map.1 h
      exact .missing rfl rfl
    · obtain ⟨a, ha, rfl⟩ := List.mem_map.1 h
      unfold unknownAttributes at ha
      split at ha
      next => exact absurd ha List.not_mem_nil
      next =>
        obtain ⟨⟨key, a⟩, hentry, rfl⟩ := List.mem_map.1 ha
        have hmem := List.mem_of_mem_filter (List.mem_of_mem_drop hentry)
        exact .unknown rfl (OrderedMap.get?_eq_some_iff.2 hmem) rfl

namespace Element.Check

variable {e : Element} {x : Diagnostic}

/-- A check of attributes is one by its code. -/
theorem isAttributeCheck (h : e.Check x) : x.isAttributeCheck = true := by
  unfold Diagnostic.isAttributeCheck
  cases h with
  | missing hcode _ => rw [hcode]; rfl
  | unknown hcode _ _ => rw [hcode]; rfl

/-- A check of attributes is not about a token. -/
theorem isLexical (h : e.Check x) : x.isLexical = false := by
  unfold Diagnostic.isLexical
  cases h with
  | missing hcode _ => rw [hcode]; rfl
  | unknown hcode _ _ => rw [hcode]; rfl

/-- A check of an element points into the text if the element does. -/
theorem pointsInto {text : List Char} (h : e.Check x) (he : e.Pointing text) :
    x.span.PointsInto text := by
  cases h with
  | missing _ hspan =>
    rw [hspan]
    exact he.markSpan
  | unknown _ ha hspan =>
    rw [hspan]
    exact he.attributes ha _ List.mem_cons_self

end Element.Check

/-- The diagnostics of a document point into its text, phase by phase. -/
structure Document.Pointing (schema : Schema) (doc : Document) : Prop where
  /-- Each of them lies in the text and cuts no character. -/
  pointsInto : ∀ x ∈ doc.diagnostics, x.span.PointsInto doc.text.toList
  /-- So each of them can be shown in the text. -/
  slice : ∀ x ∈ doc.diagnostics, (x.span.slice? doc.text).isSome = true
  /-- Those on tokens are those of the scanner, in the same order. -/
  lexical : doc.diagnostics.filter Diagnostic.isLexical =
    (tokenize doc.text).filterMap (·.diagnostic)
  /-- Those that check attributes come last, one element after the other. -/
  checks : ∃ before, doc.diagnostics =
      before ++ doc.elements.toList.tail.flatMap (Element.checks schema) ∧
    ∀ x ∈ before, x.isAttributeCheck = false
  /-- The checks of an element are about it. -/
  check : ∀ e ∈ doc.elements, ∀ x ∈ e.checks schema, e.Check x
  /-- The elements but the root come in the order in which they begin in the text. -/
  ordered : (doc.elements.toList.tail.map Element.start).Pairwise (· < ·)

/-- For every text, schema and root type, the diagnostics of the document point into the text: first
those of reading it, with those of the scanner in their order, and then those of checking the
attributes, one element after the other. -/
theorem Document.pointing_parse (name text : String) (schema : Schema) (rootType : Option TypeId) :
    (parse name text schema rootType).Pointing schema := by
  have hdraft := Draft.pointing_ofText schema rootType text
  have hdiagnostics : (parse name text schema rootType).diagnostics =
      (Draft.ofText schema rootType text).log.toList ++
        (Draft.ofText schema rootType text).elements.toList.tail.flatMap (Element.checks schema) :=
    congrArg (_ ++ ·) (validateElements_eq schema _)
  -- A diagnostic is one of the reading, or it comes from checking an element, whose spans point
  -- into the text.
  have hpoints : ∀ x ∈ (parse name text schema rootType).diagnostics,
      x.span.PointsInto text.toList := by
    intro x hx
    rw [hdiagnostics, List.mem_append] at hx
    rcases hx with hx | hx
    · exact hdraft.remarks x hx
    · obtain ⟨e, he, hx⟩ := List.mem_flatMap.1 hx
      obtain ⟨id, hid⟩ := List.mem_iff_getElem?.1 (List.mem_of_mem_tail he)
      rw [Array.getElem?_toList] at hid
      exact (Element.check_of_mem_checks hx).pointsInto (hdraft.elements hid)
  refine ⟨hpoints, fun x hx => Span.pointsInto_iff.1 (hpoints x hx), ?_,
    ⟨_, hdiagnostics, hdraft.unchecked⟩, fun e _ x => Element.check_of_mem_checks, ?_⟩
  · rw [hdiagnostics, List.filter_append, hdraft.lexical, List.filter_eq_nil_iff.2, List.append_nil]
    · rfl
    · intro x hx
      obtain ⟨e, -, hx⟩ := List.mem_flatMap.1 hx
      rw [(Element.check_of_mem_checks hx).isLexical]
      exact Bool.false_ne_true
  · rw [starts_parse, List.pairwise_map]
    refine ((Scanner.pairwise_run (Scanner.ofText text)).sublist List.filter_sublist).imp ?_
    exact fun h => Nat.lt_of_lt_of_le h.1 h.2

/-- The remark on the tag, which has two bytes for its letter, is made at the end of the text. -/
example : (Document.parse "Main" "<ä b='é' B='é'" {} none).diagnostics.map
    (fun x => (x.code, x.span)) =
      [(some .repeatedAttribute, ⟨11, 12⟩), (some .expectedEndTag, ⟨1, 3⟩)] := by
  decide +kernel

end LayoutMarkup
