import LayoutMarkup.Proofs.Document.Ending

/-!
# Carrying elements on

What one token leaves of the elements that are there. Each keeps its beginning, and once its start
tag is closed, that stays so; a start tag is closed in front of the token or behind it. Only the
name of a start tag gives a tag, only the tokens of attributes change attributes, and only `/>`
makes an element self-closed (`Element.Carries`). A `<` adds an element, and no token takes one away
(`Draft.carries_step`).

What was found stays in the log, and only the name of an attribute can be found to be repeated.
-/

namespace LayoutMarkup

/-- What a token leaves of an element. -/
structure Element.Carries (token : Token) (e e' : Element) : Prop where
  /-- The beginning stays. -/
  start : e'.start = e.start
  /-- The end of the start tag stays, or it is set to one of the ends of the token. -/
  startTagEnd : e'.startTagEnd = e.startTagEnd ∨ e.startTagEnd = none ∧
    (e'.startTagEnd = some token.span.start ∨ e'.startTagEnd = some token.span.stop)
  /-- Only `/>` closes an element by its start tag. -/
  selfClosed : e'.selfClosed = true →
    e.selfClosed = true ∨ e.startTagEnd = none ∧ token.kind = .tagSelfClose
  /-- Only the name of a start tag is a tag. -/
  tag : token.kind ≠ .tagName → e'.tag = e.tag
  /-- Only the tokens of attributes change attributes. -/
  attributes : token.kind ≠ .attributeName → token.kind ≠ .attributeValue →
    e'.attributes = e.attributes
  /-- The tag stands where the name of the start tag does. -/
  tagSpan : token.kind ≠ .tagName → e'.tagSpan = e.tagSpan

namespace Element.Carries

variable {token : Token} {e e' e'' : Element}

/-- An element that begins alike, with the same start tag, is carried on. -/
theorem same (hstart : e'.start = e.start) (hend : e'.startTagEnd = e.startTagEnd)
    (hself : e'.selfClosed = e.selfClosed) (htag : e'.tag = e.tag)
    (hattributes : e'.attributes = e.attributes) (htagSpan : e'.tagSpan = e.tagSpan) :
    e.Carries token e' :=
  ⟨hstart, .inl hend, fun h => .inl (hself.symm.trans h), fun _ => htag, fun _ _ => hattributes,
    fun _ => htagSpan⟩

/-- An element that is not changed is carried on. -/
theorem refl (token : Token) (e : Element) : e.Carries token e :=
  .same rfl rfl rfl rfl rfl rfl

/-- A start tag that is closed stays so. -/
theorem ne_none (h : e.Carries token e') (hclosed : e.startTagEnd ≠ none) :
    e'.startTagEnd = e.startTagEnd :=
  h.startTagEnd.resolve_right fun hopen => hclosed hopen.1

/-- A start tag that is open was open. -/
theorem eq_none (h : e.Carries token e') (hopen : e'.startTagEnd = none) :
    e.startTagEnd = none := by
  by_contra hclosed
  exact hclosed ((h.ne_none hclosed).symm.trans hopen)

/-- An element that is carried on twice is carried on. -/
theorem trans (h : e.Carries token e') (h' : e'.Carries token e'') : e.Carries token e'' where
  start := h'.start.trans h.start
  startTagEnd := by
    by_cases hopen : e.startTagEnd = none
    · rcases h'.startTagEnd with heq | ⟨-, hclosed⟩
      · rw [heq]
        exact h.startTagEnd
      · exact .inr ⟨hopen, hclosed⟩
    · have hstays := h.ne_none hopen
      exact .inl ((h'.ne_none (hstays ▸ hopen)).trans hstays)
  selfClosed hself := by
    rcases h'.selfClosed hself with hself' | ⟨hopen, hkind⟩
    · exact h.selfClosed hself'
    · exact .inr ⟨h.eq_none hopen, hkind⟩
  tag hkind := (h'.tag hkind).trans (h.tag hkind)
  attributes hname hvalue := (h'.attributes hname hvalue).trans (h.attributes hname hvalue)
  tagSpan hkind := (h'.tagSpan hkind).trans (h.tagSpan hkind)

end Element.Carries

namespace Draft

variable {token : Token} {d d' d'' : Draft} {id : ElementId} {e e' : Element}

/-- What a token leaves of a draft, apart from a new element. -/
structure Carries (token : Token) (d d' : Draft) : Prop where
  /-- There are as many elements. -/
  size : d'.elements.size = d.elements.size
  /-- Each element is carried on. -/
  elements : ∀ {id e'}, d'.get? id = some e' → ∃ e, d.get? id = some e ∧ e.Carries token e'
  /-- What was found stays. -/
  log : d.log.toList ⊆ d'.log.toList
  /-- Only the name of an attribute is repeated. -/
  repeated : token.kind ≠ .attributeName →
    Diagnostic.withCode .repeatedAttribute d'.log.toList =
      Diagnostic.withCode .repeatedAttribute d.log.toList

/-- The elements and the log are all that is carried on. -/
theorem carries_of_eq (helements : d'.elements = d.elements) (hlog : d'.log = d.log) :
    d.Carries token d' := by
  refine ⟨congrArg Array.size helements, fun {id e'} he' => ⟨e', ?_, .refl token e'⟩, ?_,
    fun _ => ?_⟩
  · exact (congrArg (·[id]?) helements.symm).trans he'
  · rw [hlog]
    exact List.Subset.refl _
  · rw [hlog]

/-- A draft that is not changed is carried on. -/
theorem Carries.refl (token : Token) (d : Draft) : d.Carries token d :=
  carries_of_eq rfl rfl

/-- A draft that is carried on twice is carried on. -/
theorem Carries.trans (h : d.Carries token d') (h' : d'.Carries token d'') :
    d.Carries token d'' where
  size := h'.size.trans h.size
  elements {id e''} he'' := by
    obtain ⟨e', he', hcarries'⟩ := h'.elements he''
    obtain ⟨e, he, hcarries⟩ := h.elements he'
    exact ⟨e, he, hcarries.trans hcarries'⟩
  log := List.Subset.trans h.log h'.log
  repeated hkind := (h'.repeated hkind).trans (h.repeated hkind)

/-- An element that was there is still there. -/
theorem Carries.exists_get? (h : d.Carries token d') (he : d.get? id = some e) :
    ∃ e', d'.get? id = some e' ∧ e.Carries token e' := by
  have hlt : id < d'.elements.size := by
    rw [h.size]
    exact (Array.getElem?_eq_some_iff.1 he).1
  have he' : d'.get? id = some d'.elements[id] := Array.getElem?_eq_getElem hlt
  obtain ⟨f, hf, hcarries⟩ := h.elements he'
  obtain rfl := Option.some_inj.1 (he.symm.trans hf)
  exact ⟨_, he', hcarries⟩

/-- A start tag that is open was open. -/
theorem Carries.openTag (h : d.Carries token d') (hopen : d'.OpenTag id) : d.OpenTag id := by
  obtain ⟨s, hs, hnone⟩ := hopen
  obtain ⟨e', he', rfl⟩ := Draft.exists_get? hs
  obtain ⟨e, he, hcarries⟩ := h.elements he'
  exact ⟨_, shapes_eq he, hcarries.eq_none hnone⟩

/-! ## Operations -/

/-- A change of one element carries the draft on if it does so with the element. -/
theorem carries_adjust {f : Element → Element}
    (hf : ∀ e, d.get? id = some e → e.Carries token (f e)) : d.Carries token (d.adjust id f) := by
  refine ⟨d.size_adjust id f, fun {j e'} he' => ?_, List.Subset.refl _, fun _ => rfl⟩
  by_cases hj : j = id
  · subst hj
    rw [get?_adjust, if_pos rfl] at he'
    obtain ⟨e, he, rfl⟩ := Option.map_eq_some_iff.1 he'
    exact ⟨e, he, hf e he⟩
  · rw [get?_adjust_of_ne hj] at he'
    exact ⟨e', he', .refl token e'⟩

/-- A change that is not about the start tag carries the draft on. -/
theorem carries_aside (d : Draft) (id : ElementId) {f : Element → Element}
    (hf : ∀ e : Element, e.Carries token (f e)) : d.Carries token (d.adjust id f) :=
  carries_adjust fun e _ => hf e

/-- The tokens of attributes may change them. -/
theorem carries_attributes (d : Draft) (id : ElementId)
    (f : OrderedMap String Attribute → OrderedMap String Attribute)
    (hkind : token.kind = .attributeName ∨ token.kind = .attributeValue) :
    d.Carries token (d.adjust id fun e => { e with attributes := f e.attributes }) :=
  d.carries_aside id fun _ =>
    ⟨rfl, .inl rfl, .inl, fun _ => rfl, fun hname hvalue => absurd hkind (by simp [hname, hvalue]),
      fun _ => rfl⟩

/-- A report carries the draft on, unless it is about a repeated attribute. -/
theorem carries_add (d : Draft) {x : Diagnostic} (hcode : x.code ≠ some .repeatedAttribute) :
    d.Carries token { d with log := d.log.add x } := by
  refine ⟨rfl, fun {j e'} he' => ⟨e', he', .refl token e'⟩, fun y hy => ?_,
    fun _ => Diagnostic.withCode_add hcode d.log⟩
  unfold Log.add Log.toList
  rw [Array.toList_push]
  exact List.mem_append_left _ hy

/-- A report carries the draft on, unless it is about a repeated attribute. -/
theorem carries_report (d : Draft) {cause : Cause} (hcode : cause.code ≠ .repeatedAttribute)
    (span : Span) : d.Carries token (d.report cause span) :=
  d.carries_add (mt Option.some_inj.1 hcode)

/-- What the scanner finds is not a repeated attribute. -/
theorem carries_found (d : Draft) {found : Option Diagnostic} (h : Scanner.Lexical found) :
    d.Carries token { d with log := found.elim d.log d.log.add } := by
  cases found with
  | none => exact .refl token d
  | some x =>
    obtain ⟨code, hcode, hlexical⟩ := h x rfl
    refine d.carries_add ?_
    rw [hcode]
    rintro ⟨⟩
    exact Bool.noConfusion hlexical

/-- Choosing a type carries the draft on. -/
theorem carries_resolveAlternation (schema : Schema) (d : Draft) (id : ElementId) :
    d.Carries token (resolveAlternation schema d id) := by
  unfold resolveAlternation
  split
  next => exact .refl token d
  next =>
    split
    next =>
      split
      next => exact .refl token d
      next =>
        dsimp only
        split
        next => exact d.carries_aside id fun _ => .same rfl rfl rfl rfl rfl rfl
        next =>
          have hfailed : d.Carries token
              (d.adjust id fun e => { e with alternationFailed := true }) :=
            d.carries_aside id fun _ => .same rfl rfl rfl rfl rfl rfl
          exact hfailed.trans (carries_report _ (fun h => Code.noConfusion h) _)
    next => exact .refl token d

/-- An open start tag may be closed at one of the ends of the token. -/
theorem carries_setStartTagEnd (schema : Schema)
    (hopen : ∀ e, d.get? id = some e → e.startTagEnd = none)
    {offset : Nat} (hoffset : offset = token.span.start ∨ offset = token.span.stop) :
    d.Carries token (resolveAlternation schema
      (d.adjust id fun e => { e with startTagEnd := some offset }) id) := by
  have hset : d.Carries token (d.adjust id fun e => { e with startTagEnd := some offset }) :=
    carries_adjust fun e he => ⟨rfl, .inr ⟨hopen e he, hoffset.imp (congrArg some) (congrArg some)⟩,
      .inl, fun _ => rfl, fun _ _ => rfl, fun _ => rfl⟩
  exact hset.trans (carries_resolveAlternation schema _ id)

/-- Closing the start tag of the current element carries the draft on. -/
theorem carries_closeStartTag (schema : Schema) (htag : d.inStartTag = true) {offset : Nat}
    (hoffset : offset = token.span.start ∨ offset = token.span.stop) :
    d.Carries token (d.closeStartTag schema offset) := by
  obtain ⟨-, e, he, hnone⟩ := (inStartTag_iff d).1 htag
  have hpending : d.Carries token { d with pending := none } := carries_of_eq rfl rfl
  refine hpending.trans (carries_setStartTagEnd schema (fun e' he' => ?_) hoffset)
  obtain rfl := Option.some_inj.1 (he.symm.trans he')
  exact hnone

/-- Closing a start tag that is open carries the draft on. -/
theorem carries_endStartTag (schema : Schema) (d : Draft) {offset : Nat}
    (hoffset : offset = token.span.start ∨ offset = token.span.stop) :
    d.Carries token (d.endStartTag schema offset) := by
  unfold endStartTag
  split
  next htag => exact carries_closeStartTag schema htag hoffset
  next => exact .refl token d

/-- Closing an element by its end tag carries the draft on. -/
theorem carries_close (d : Draft) (id : ElementId) (offset : Nat) :
    d.Carries token (d.close id offset false) := by
  have hclosed : d.Carries token (d.adjust id fun e =>
      { e with stop := offset, closed := true, selfClosed := false }) :=
    d.carries_aside id fun _ =>
      ⟨rfl, .inl rfl, fun h => Bool.noConfusion h, fun _ => rfl, fun _ _ => rfl, fun _ => rfl⟩
  exact hclosed.trans (carries_of_eq rfl rfl)

/-- A `/>` carries the draft on. -/
theorem carries_selfClose (schema : Schema) (hkind : token.kind = .tagSelfClose)
    (htag : d.inStartTag = true) :
    d.Carries token
      ((d.closeStartTag schema token.span.stop).close d.current token.span.stop true) := by
  have hclosed : d.Carries token (d.closeStartTag schema token.span.stop) :=
    carries_closeStartTag schema htag (.inr rfl)
  obtain ⟨-, e, he, hnone⟩ := (inStartTag_iff d).1 htag
  refine ⟨(size_adjust ..).trans hclosed.size, fun {j e''} he'' => ?_, hclosed.log,
    hclosed.repeated⟩
  have hget : ((d.closeStartTag schema token.span.stop).adjust d.current fun e =>
    { e with stop := token.span.stop, closed := true, selfClosed := true }).get? j = some e'' :=
    he''
  by_cases hj : j = d.current
  · subst hj
    -- The element was open, so the token may close it.
    rw [get?_adjust, if_pos rfl] at hget
    obtain ⟨e', he', rfl⟩ := Option.map_eq_some_iff.1 hget
    obtain ⟨f, hf, hcarries⟩ := hclosed.elements he'
    obtain rfl := Option.some_inj.1 (he.symm.trans hf)
    exact ⟨e, he, hcarries.start, hcarries.startTagEnd, fun _ => .inr ⟨hnone, hkind⟩, hcarries.tag,
      hcarries.attributes, hcarries.tagSpan⟩
  · rw [get?_adjust_of_ne hj] at hget
    exact hclosed.elements hget

/-- The name of an end tag carries the draft on. -/
theorem carries_matchEndTag (d : Draft) (name : Token) :
    d.Carries token (d.matchEndTag name) := by
  have hexpect : ∀ (c : Draft) (id : ElementId), c.Carries token (c.expect id) := by
    intro c id
    have hmarked : c.Carries token
        (c.adjust id fun e => { e with endTagStart := some c.endTagOpen }) :=
      c.carries_aside id fun _ => .same rfl rfl rfl rfl rfl rfl
    exact hmarked.trans (carries_of_eq rfl rfl)
  refine matchEndTag_cases d name (.refl token d) (fun _ _ _ _ => hexpect d d.current)
    (fun e parent _ _ _ _ _ => ?_) fun e _ =>
      d.carries_report (fun h => Code.noConfusion h) name.span
  have hreport : d.Carries token (d.report (.missingEndTag e.tagText) e.markSpan) :=
    d.carries_report (fun h => Code.noConfusion h) e.markSpan
  have hleft : Carries token (d.report (.missingEndTag e.tagText) e.markSpan)
      ((d.report (.missingEndTag e.tagText) e.markSpan).adjust d.current fun e =>
        { e with stop := d.endTagOpen, closed := false }) :=
    carries_aside _ d.current fun _ => .same rfl rfl rfl rfl rfl rfl
  exact (hreport.trans hleft).trans (hexpect _ parent)

/-- The name of a start tag carries the draft on. -/
theorem carries_nameElement (schema : Schema) (d : Draft) (hkind : token.kind = .tagName) :
    d.Carries token (d.nameElement schema token) := by
  unfold nameElement
  split
  next => exact .refl token d
  next =>
    -- The tag is noted first; what the schema says of it comes on top.
    have hnamed : d.Carries token (d.adjust d.current fun e =>
        { e with tag := some token.text, tagSpan := some token.span }) :=
      d.carries_aside d.current fun _ =>
        ⟨rfl, .inl rfl, .inl, fun hne => absurd hkind hne, fun _ _ => rfl,
          fun hne => absurd hkind hne⟩
    dsimp only
    split
    next => exact hnamed
    next =>
      split
      next =>
        exact hnamed.trans (carries_aside _ d.current fun _ => .same rfl rfl rfl rfl rfl rfl)
      next =>
        split
        next => exact hnamed
        next => exact hnamed.trans (carries_report _ (fun h => Code.noConfusion h) _)

/-- The name of an attribute carries the draft on. -/
theorem carries_addAttribute (d : Draft) (hkind : token.kind = .attributeName) :
    d.Carries token (d.addAttribute token) := by
  have hpending : d.Carries token { d with pending := none } := carries_of_eq rfl rfl
  unfold addAttribute
  dsimp only
  split
  next => exact hpending
  next =>
    split
    next =>
      refine ⟨rfl, hpending.elements, fun x hx => ?_, fun hne => absurd hkind hne⟩
      unfold report Log.add Log.toList
      rw [Array.toList_push]
      exact List.mem_append_left _ hx
    next =>
      have hadded := carries_attributes { d with pending := none } d.current
        (·.insert (Text.lower token.text) ⟨token.text, token.span, none, none⟩) (.inl hkind)
      exact (hpending.trans hadded).trans (carries_of_eq rfl rfl)

/-- A value carries the draft on. -/
theorem carries_setValue (d : Draft) (hkind : token.kind = .attributeValue) :
    d.Carries token (d.setValue token) := by
  unfold setValue
  split
  next => exact .refl token d
  next key hkey =>
    have hpending : d.Carries token { d with pending := none } := carries_of_eq rfl rfl
    exact hpending.trans (carries_attributes { d with pending := none } d.current
      (·.adjust key fun a =>
        { a with value := some (unquote token.text), valueSpan := some token.span }) (.inr hkind))

/-- Reporting a second top-level element carries the draft on. -/
theorem carries_noteTopLevel (d : Draft) (span : Span) :
    d.Carries token (d.noteTopLevel span) := by
  unfold noteTopLevel
  split
  next => exact (d.carries_report (fun h => Code.noConfusion h) span).trans (carries_of_eq rfl rfl)
  next => exact .refl token d

/-! ## Tokens -/

/-- Every token but `<` carries the draft on. -/
theorem carries_step (schema : Schema) (length : Nat) (d : Draft) (hkind : token.kind ≠ .tagOpen) :
    d.Carries token (d.step schema length token) := by
  unfold step
  cases hk : token.kind with
  | tagOpen => exact absurd hk hkind
  | tagName => exact carries_nameElement schema d hk
  | attributeName => exact carries_addAttribute d hk
  | attributeValue => exact carries_setValue d hk
  | tagClose => exact carries_endStartTag schema d (.inr rfl)
  | tagSelfClose =>
    dsimp only
    split
    next htag => exact carries_selfClose schema hk htag
    next => exact .refl token d
  | endTagOpen =>
    -- The element that waits for a `>` is forgotten, which no element shows.
    have hforgot : d.Carries token { d with endTagTarget := none } := carries_of_eq rfl rfl
    exact (hforgot.trans (carries_endStartTag schema _ (.inl rfl))).trans (carries_of_eq rfl rfl)
  | endTagName => exact d.carries_matchEndTag token
  | endTagClose =>
    dsimp only
    split
    next target htarget =>
      have hforgot : d.Carries token { d with endTagTarget := none } := carries_of_eq rfl rfl
      exact hforgot.trans (carries_close _ target token.span.stop)
    next => exact .refl token d
  | _ => exact .refl token d

/-- A `<` closes the start tag in front of it, carries the draft on and begins an element behind the
others. -/
theorem exists_carries_openElement (schema : Schema) (length : Nat) (d : Draft) (token : Token) :
    ∃ d', d.Carries token d' ∧
      d.openElement schema length token.span =
        (d'.noteTopLevel token.span).addChild length token.span.start := by
  have hforgot : d.Carries token { d with endTagTarget := none, pending := none } :=
    carries_of_eq rfl rfl
  exact ⟨_, hforgot.trans (carries_endStartTag schema _ (.inl rfl)), rfl⟩

/-- The end of the text carries the draft on. -/
theorem carries_finish (schema : Schema) {length : Nat} (d : Draft)
    (hlength : length = token.span.stop) : d.Carries token (d.finish schema length) := by
  have hend : ∀ (c : Draft) (id : ElementId), c.Carries token (c.endOpen schema length id) := by
    intro c id
    -- First an open start tag is closed, then the missing end tag is reported.
    obtain ⟨c', hc', hclosed⟩ : ∃ c', (if (c.get? id).any (·.startTagEnd.isNone) then
        resolveAlternation schema (c.adjust id fun e => { e with startTagEnd := some length }) id
      else c) = c' ∧ c.Carries token c' := by
      split
      next hany =>
        obtain ⟨e, he, hnone⟩ := (Option.any_eq_true _ _).1 hany
        refine ⟨_, rfl, carries_setStartTagEnd schema (fun e' he' => ?_) (.inr hlength)⟩
        obtain rfl := Option.some_inj.1 (he.symm.trans he')
        exact Option.isNone_iff_eq_none.1 hnone
      next => exact ⟨c, rfl, .refl token c⟩
    unfold endOpen
    rw [hc']
    dsimp only
    split
    next => exact hclosed
    next e he =>
      have hcause : (if e.endTagStart.isSome then Cause.unfinishedEndTag e.tagText
          else .expectedEndTag e.tagText).code ≠ .repeatedAttribute := by
        split <;> exact fun h => Code.noConfusion h
      refine (hclosed.trans (c'.carries_report hcause e.markSpan)).trans ?_
      exact carries_aside _ id fun _ => .same rfl rfl rfl rfl rfl rfl
  -- The open elements are ended one by one.
  have hfold : ∀ (ids : List ElementId) (c : Draft),
      c.Carries token (ids.foldl (endOpen schema length) c) := by
    intro ids
    induction ids with
    | nil => exact fun c => .refl token c
    | cons id ids ih => exact fun c => (hend c id).trans (ih _)
  exact (hfold _ d).trans (carries_of_eq rfl rfl)

end Draft

end LayoutMarkup
