import LayoutMarkup.Proofs.Document.Drafting
import LayoutMarkup.Proofs.Document.Markup
import LayoutMarkup.Proofs.OrderedMap

/-!
# Growing drafts

What the tokens of canonical markup do to a draft without types. Behind a piece of markup the draft
has the elements of the piece as new elements, the outermost of them as last children of its current
element, and nothing else of it has changed (`Draft.Adds`). Within an element, the draft has grown
by that element alone, which is the current one then (`Draft.Inside`): a start tag only changes this
element, what stands in it makes the draft grow further (`Inside.adds`), and the end of the element
leads back to where it began (`Inside.close`).

Without a type for the root no element gets a type (`Draft.Untyped`), so the schema has no say.
-/

namespace LayoutMarkup

namespace Draft

/-! ## Drafts without types -/

/-- No element has a type or a definition. -/
def Untyped (d : Draft) : Prop :=
  ∀ id e, d.get? id = some e → e.type = none ∧ e.definition = none

variable {d d' d'' : Draft} {ids ids' : List ElementId} {e : Element}

/-- A change that is not about types leaves a draft without types. -/
theorem Untyped.adjust (h : d.Untyped) (id : ElementId) {f : Element → Element}
    (hf : ∀ e, (f e).type = e.type ∧ (f e).definition = e.definition) :
    (d.adjust id f).Untyped := by
  intro j e he
  rw [get?_adjust] at he
  split at he
  next =>
    obtain ⟨e', he', rfl⟩ := Option.map_eq_some_iff.1 he
    rw [(hf e').1, (hf e').2]
    exact h j e' he'
  next => exact h j e he

/-- Without a definition there is no type to be chosen. -/
theorem Untyped.resolveAlternation (h : d.Untyped) (schema : Schema) (id : ElementId) :
    d.resolveAlternation schema id = d := by
  unfold Draft.resolveAlternation
  split
  next => rfl
  next e he =>
    rw [(h id e he).2]
    rfl

/-- Without types, closing a start tag only writes down where it ends. -/
theorem Untyped.closeStartTag (h : d.Untyped) (schema : Schema) (offset : Nat) :
    d.closeStartTag schema offset = { d with pending := none }.adjust d.current
      fun e => { e with startTagEnd := some offset } := by
  unfold Draft.closeStartTag
  have hpending : Untyped { d with pending := none } := h
  refine (hpending.adjust d.current ?_).resolveAlternation schema d.current
  exact fun _ => ⟨rfl, rfl⟩

/-- Without a type of the parent, a tag is only written down. -/
theorem Untyped.nameElement (h : d.Untyped) (hroot : d.current ≠ .root) (schema : Schema)
    (token : Token) : d.nameElement schema token = d.adjust d.current
      fun e => { e with tag := some token.text, tagSpan := some token.span } := by
  -- The parent has no type that could expect the tag or not.
  have hparent : (((d.get? d.current).bind (·.parent)).bind fun p =>
      ((d.get? p).bind (·.type)).bind schema.type?) = none := by
    rw [Option.bind_eq_none_iff]
    intro p _
    cases hp : d.get? p with
    | none => rfl
    | some f =>
      rw [Option.bind_some, (h p f hp).1]
      rfl
  unfold Draft.nameElement
  rw [if_neg hroot, hparent]

/-- Behind a closed start tag there is none to be closed. -/
theorem endStartTag_eq_self (he : d.get? d.current = some e) (hclosed : e.startTagEnd ≠ none)
    (schema : Schema) (offset : Nat) : d.endStartTag schema offset = d := by
  unfold endStartTag
  refine if_neg fun htag => ?_
  obtain ⟨-, e', he', hopen⟩ := (inStartTag_iff d).1 htag
  obtain rfl := Option.some_inj.1 (he.symm.trans he')
  exact hclosed hopen

/-! ## Growing drafts -/

/-- A draft has new elements, some of them as last children of the element that was the current
one. Nothing else has changed, and nothing was reported. -/
structure Grows (d : Draft) (ids : List ElementId) (d' : Draft) : Prop where
  /-- The element that was the current one is there. -/
  current_lt : d.current < d.elements.size
  /-- No element is gone. -/
  size_le : d.elements.size ≤ d'.elements.size
  /-- The element that was the current one has new children. -/
  outer : d'.get? d.current =
    (d.get? d.current).map fun e => { e with children := e.children ++ ids }
  /-- The other elements are the same. -/
  kept : ∀ {id}, id < d.elements.size → id ≠ d.current → d'.get? id = d.get? id
  /-- There are no types. -/
  untyped : d'.Untyped
  /-- Nothing was reported. -/
  log : d'.log = d.log

/-- Growing is seen in the elements and in what was reported. -/
theorem Grows.congr (h : d.Grows ids d') (helements : d''.elements = d'.elements)
    (hlog : d''.log = d'.log) : d.Grows ids d'' := by
  have hget : d''.get? = d'.get? := funext fun id => congrArg (·[id]?) helements
  exact ⟨h.current_lt, helements ▸ h.size_le, hget ▸ h.outer, hget ▸ h.kept,
    fun id f hf => h.untyped id f (hget ▸ hf), hlog.trans h.log⟩

/-- New elements may change. -/
theorem Grows.adjust (h : d.Grows ids d') {id : ElementId} (hid : d.elements.size ≤ id)
    {f : Element → Element} (hf : ∀ e, (f e).type = e.type ∧ (f e).definition = e.definition) :
    d.Grows ids (d'.adjust id f) where
  current_lt := h.current_lt
  size_le := (size_adjust d' id f).symm ▸ h.size_le
  outer := by
    rw [get?_adjust, if_neg (Nat.ne_of_gt (Nat.lt_of_lt_of_le h.current_lt hid)), h.outer]
  kept hlt hne := by
    rw [get?_adjust, if_neg (Nat.ne_of_gt (Nat.lt_of_lt_of_le hlt hid)), h.kept hlt hne]
  untyped := h.untyped.adjust id hf
  log := h.log

/-- A draft that has grown may grow at the same element. -/
theorem Grows.trans (h : d.Grows ids d') (hcurrent : d'.current = d.current)
    (h' : d'.Grows ids' d'') : d.Grows (ids ++ ids') d'' where
  current_lt := h.current_lt
  size_le := Nat.le_trans h.size_le h'.size_le
  outer := by
    have houter := h'.outer
    rw [hcurrent, h.outer, Option.map_map] at houter
    rw [houter]
    refine congrArg (fun f => (d.get? d.current).map f) (funext fun e => ?_)
    simp only [Function.comp, List.append_assoc]
  kept hlt hne := by
    rw [h'.kept (Nat.lt_of_lt_of_le hlt h.size_le) (hcurrent.symm ▸ hne), h.kept hlt hne]
  untyped := h'.untyped
  log := h'.log.trans h.log

/-- A draft that has grown may grow at a new element. -/
theorem Grows.inner (h : d.Grows ids d') (hcurrent : d.elements.size ≤ d'.current)
    (h' : d'.Grows ids' d'') : d.Grows ids d'' where
  current_lt := h.current_lt
  size_le := Nat.le_trans h.size_le h'.size_le
  -- The draft grows at a new element, so no old one changes again.
  outer := by
    rw [h'.kept (Nat.lt_of_lt_of_le h.current_lt h.size_le)
      (Nat.ne_of_lt (Nat.lt_of_lt_of_le h.current_lt hcurrent)), h.outer]
  kept hid hne := by
    rw [h'.kept (Nat.lt_of_lt_of_le hid h.size_le) (Nat.ne_of_lt (Nat.lt_of_lt_of_le hid hcurrent)),
      h.kept hid hne]
  untyped := h'.untyped
  log := h'.log.trans h.log

/-- A draft has grown by the elements of markup, which it shows. -/
structure Adds (d : Draft) (ms : List Markup) (d' : Draft) : Prop
    extends d.Grows (Markup.idsFrom d.elements.size ms) d' where
  /-- The current element is the same. -/
  current : d'.current = d.current
  /-- There are as many new elements as there are in the markup. -/
  size : d'.elements.size = d.elements.size + Markup.sizeAll ms
  /-- The new elements are those of the markup. -/
  shows : Markup.Shows d'.get? d.elements.size ms

/-- A draft has grown by one element, which is the current one. -/
structure Inside (d d' : Draft) (e : Element) : Prop extends d.Grows [d.elements.size] d' where
  /-- The new element is the current one. -/
  current : d'.current = d.elements.size
  /-- The new element. -/
  element : d'.get? d.elements.size = some e
  /-- It stands in the element that was the current one. -/
  parent : e.parent = some d.current

/-- A draft that may go on with content: the start tag of the current element is closed, there are
no types, and there is no top-level element yet if the next one would be one. -/
structure Ready (d : Draft) : Prop where
  /-- The current element. -/
  element : ∃ e, d.get? d.current = some e ∧ e.startTagEnd ≠ none ∧
    (d.current = .root → e.children = [])
  /-- There are no types. -/
  untyped : d.Untyped

/-- The current element is one of the elements. -/
theorem Ready.current_lt (h : d.Ready) : d.current < d.elements.size := by
  obtain ⟨e, he, -⟩ := h.element
  exact (Array.getElem?_eq_some_iff.1 he).1

/-- A draft grows by pieces one after the other. -/
theorem Adds.trans {ms ms' : List Markup} (h : d.Adds ms d') (h' : d'.Adds ms' d'') :
    d.Adds (ms ++ ms') d'' where
  toGrows := by
    rw [Markup.idsFrom_append, ← h.size]
    exact h.toGrows.trans h.current h'.toGrows
  current := h'.current.trans h.current
  size := by rw [h'.size, h.size, Markup.sizeAll_append, Nat.add_assoc]
  shows := by
    -- Among the elements that are there, the next pieces change the current one only, which is not
    -- one of the first pieces.
    refine (h.shows.congr fun i hle hi => ?_).append (h.size ▸ h'.shows)
    refine h'.kept (h.size.symm ▸ hi) ?_
    rw [h.current]
    exact Nat.ne_of_gt (Nat.lt_of_lt_of_le h.current_lt hle)

/-- Inside of an element a draft stays ready while it grows. -/
theorem Ready.adds {ms : List Markup} (h : d.Ready) (hroot : d.current ≠ .root)
    (hadds : d.Adds ms d') : d'.Ready := by
  obtain ⟨e, he, hclosed, -⟩ := h.element
  have houter := hadds.outer
  rw [he, Option.map_some] at houter
  refine ⟨⟨{ e with children := e.children ++ Markup.idsFrom d.elements.size ms }, ?_, hclosed,
    fun hcurrent => ?_⟩, hadds.untyped⟩
  · rw [hadds.current]
    exact houter
  · exact absurd (hadds.current.symm.trans hcurrent) hroot

/-! ## Elements -/

/-- There is no start tag to be closed and no second top-level element to be reported, so a `<` only
begins an element. -/
theorem Ready.openElement_eq (h : d.Ready) (schema : Schema) (length : Nat) (span : Span) :
    d.openElement schema length span =
      { d with endTagTarget := none, pending := none }.addChild length span.start := by
  obtain ⟨e, he, hclosed, hroot⟩ := h.element
  have htag : { d with endTagTarget := none, pending := none }.endStartTag schema span.start =
      { d with endTagTarget := none, pending := none } :=
    endStartTag_eq_self (d := { d with endTagTarget := none, pending := none }) he hclosed schema
      span.start
  have hnote : { d with endTagTarget := none, pending := none }.noteTopLevel span =
      { d with endTagTarget := none, pending := none } := by
    unfold noteTopLevel
    refine if_neg fun ⟨hcurrent, hany, _⟩ => ?_
    have hcurrent : d.current = .root := hcurrent
    have hany : (d.get? .root).any (!·.children.isEmpty) = true := hany
    rw [← hcurrent, he, Option.any_some, hroot hcurrent] at hany
    exact Bool.false_ne_true hany
  unfold Draft.openElement
  dsimp only
  rw [htag, hnote]

/-- A `<` begins a child of the current element. -/
theorem Ready.openElement (h : d.Ready) (schema : Schema) (length : Nat) (span : Span) :
    d.Inside (d.openElement schema length span)
        { start := span.start, stop := length, parent := some d.current } ∧
      (d.openElement schema length span).elements.size = d.elements.size + 1 := by
  have hlt := h.current_lt
  rw [h.openElement_eq]
  refine ⟨⟨⟨hlt, ?_, ?_, fun {id} hid hne => ?_, fun id f hf => ?_, rfl⟩, rfl, ?_, rfl⟩,
    size_addChild ..⟩
  · rw [size_addChild]
    exact Nat.le_succ _
  · rw [get?_addChild]
    exact (if_neg (Nat.ne_of_lt hlt)).trans (if_pos rfl)
  · rw [get?_addChild]
    exact (if_neg (Nat.ne_of_lt hid)).trans (if_neg (Ne.symm hne))
  · rw [get?_addChild] at hf
    split at hf
    next =>
      cases hf
      exact ⟨rfl, rfl⟩
    next =>
      split at hf
      next =>
        obtain ⟨f', hf', rfl⟩ := Option.map_eq_some_iff.1 hf
        exact h.untyped id f' hf'
      next => exact h.untyped id f hf
  · rw [get?_addChild]
    exact if_pos rfl

namespace Inside

/-- What a draft waits for does not matter. -/
theorem congr (h : d.Inside d' e) (helements : d''.elements = d'.elements)
    (hcurrent : d''.current = d'.current) (hlog : d''.log = d'.log) : d.Inside d'' e where
  toGrows := h.toGrows.congr helements hlog
  current := hcurrent.trans h.current
  element := (congrArg (·[d.elements.size]?) helements).trans h.element
  parent := h.parent

/-- Nothing needs to be waited for. -/
theorem forget (h : d.Inside d' e) : d.Inside { d' with endTagTarget := none } e :=
  h.congr rfl rfl rfl

/-- The new element may change. -/
theorem adjust (h : d.Inside d' e) {f : Element → Element}
    (hf : ∀ e, (f e).type = e.type ∧ (f e).definition = e.definition)
    (hparent : (f e).parent = e.parent) : d.Inside (d'.adjust d'.current f) (f e) where
  toGrows := h.toGrows.adjust (Nat.le_of_eq h.current.symm) hf
  current := h.current
  element := by rw [h.current, get?_adjust, if_pos rfl, h.element, Option.map_some]
  parent := hparent.trans h.parent

/-- The new element is not the root. -/
theorem current_ne_root (h : d.Inside d' e) : d'.current ≠ .root := by
  rw [h.current]
  exact Nat.ne_of_gt (Nat.lt_of_le_of_lt (Nat.zero_le _) h.current_lt)

/-- The new element is the one that the draft is at. -/
theorem get?_current (h : d.Inside d' e) : d'.get? d'.current = some e :=
  h.current.symm ▸ h.element

/-- As long as the start tag of the new element is not closed, the draft is in a start tag. -/
theorem inStartTag (h : d.Inside d' e) (hopen : e.startTagEnd = none) : d'.inStartTag = true :=
  (inStartTag_iff d').2 ⟨h.current_ne_root, e, h.get?_current, hopen⟩

/-- The new element gets its tag. -/
theorem nameElement (h : d.Inside d' e) (schema : Schema) (token : Token) :
    d.Inside (d'.nameElement schema token)
      { e with tag := some token.text, tagSpan := some token.span } := by
  rw [h.untyped.nameElement h.current_ne_root]
  exact h.adjust (fun _ => ⟨rfl, rfl⟩) rfl

/-- The new element gets an attribute, which waits for its value. -/
theorem addAttribute (h : d.Inside d' e) (hopen : e.startTagEnd = none) {token : Token}
    (hnew : e.attributes.get? (Text.lower token.text) = none) :
    d.Inside (d'.addAttribute token)
        { e with
          attributes := e.attributes.insert (Text.lower token.text)
            ⟨token.text, token.span, none, none⟩ } ∧
      (d'.addAttribute token).pending = some (Text.lower token.text) := by
  -- A new name first drops the attribute that waits for a value; the elements stay.
  have hcleared : d.Inside { d' with pending := none } e := h.congr rfl rfl rfl
  -- The name is not there yet, so the branch for a repeated one is not taken.
  have hcontains : e.attributes.contains (Text.lower token.text) = false := by
    rw [OrderedMap.contains, hnew]
    rfl
  have hadded : d.Inside ({ d' with pending := none }.adjust d'.current fun e =>
      { e with
        attributes := e.attributes.insert (Text.lower token.text)
          ⟨token.text, token.span, none, none⟩ })
      { e with
        attributes := e.attributes.insert (Text.lower token.text)
          ⟨token.text, token.span, none, none⟩ } :=
    hcleared.adjust (fun _ => ⟨rfl, rfl⟩) rfl
  unfold Draft.addAttribute
  dsimp only
  rw [hcleared.inStartTag hopen, if_neg (by decide), hcleared.get?_current, Option.any_some,
    hcontains, if_neg Bool.false_ne_true]
  exact ⟨hadded.congr rfl rfl rfl, rfl⟩

/-- The attribute that waits for its value gets it. -/
theorem setValue (h : d.Inside d' e) {key : String} (hpending : d'.pending = some key)
    (token : Token) :
    d.Inside (d'.setValue token)
      { e with
        attributes := e.attributes.adjust key fun a =>
          { a with value := some (unquote token.text), valueSpan := some token.span } } := by
  have hcleared : d.Inside { d' with pending := none } e := h.congr rfl rfl rfl
  unfold Draft.setValue
  rw [hpending]
  exact hcleared.adjust (fun _ => ⟨rfl, rfl⟩) rfl

/-- The start tag of the new element is closed. -/
theorem endStartTag (h : d.Inside d' e) (hopen : e.startTagEnd = none) (schema : Schema)
    (offset : Nat) :
    d.Inside (d'.endStartTag schema offset) { e with startTagEnd := some offset } := by
  unfold Draft.endStartTag
  rw [if_pos (h.inStartTag hopen), h.untyped.closeStartTag]
  have hcleared : d.Inside { d' with pending := none } e := h.congr rfl rfl rfl
  exact hcleared.adjust (fun _ => ⟨rfl, rfl⟩) rfl

/-- Something is added to the new element. -/
theorem adds (h : d.Inside d' e) {ms : List Markup} (hadds : d'.Adds ms d'') :
    d.Inside d'' { e with children := e.children ++ Markup.idsFrom d'.elements.size ms } where
  toGrows := h.toGrows.inner (Nat.le_of_eq h.current.symm) hadds.toGrows
  current := hadds.current.trans h.current
  element := by
    have houter := hadds.outer
    rwa [h.current, h.element, Option.map_some] at houter
  parent := h.parent

/-- A `</` behind the start tag of the new element is only remembered. -/
theorem openEndTag (h : d.Inside d' e) (hclosed : e.startTagEnd ≠ none) (schema : Schema)
    (offset : Nat) :
    { { d' with endTagTarget := none }.endStartTag schema offset with endTagOpen := offset } =
      { d' with endTagTarget := none, endTagOpen := offset } := by
  rw [endStartTag_eq_self h.forget.get?_current hclosed]

/-- The end tag of the new element waits for its `>`, and the other elements are the same. -/
theorem matchEndTag (h : d.Inside d' e) {token : Token} (htag : e.tag = some token.text) :
    d.Inside (d'.matchEndTag token) { e with endTagStart := some d'.endTagOpen } ∧
      (d'.matchEndTag token).endTagTarget = some d.elements.size ∧
      (d'.matchEndTag token).elements.size = d'.elements.size ∧
      ∀ {id}, d.elements.size < id → (d'.matchEndTag token).get? id = d'.get? id := by
  have hended : d.Inside
      (d'.adjust d'.current fun e => { e with endTagStart := some d'.endTagOpen })
      { e with endTagStart := some d'.endTagOpen } :=
    h.adjust (fun _ => ⟨rfl, rfl⟩) rfl
  unfold Draft.matchEndTag
  rw [if_neg h.current_ne_root, h.get?_current]
  dsimp only
  rw [if_pos htag]
  refine ⟨hended.congr rfl rfl rfl, congrArg some h.current, size_adjust .., fun {id} hid => ?_⟩
  exact (get?_adjust ..).trans (if_neg (h.current.symm ▸ Nat.ne_of_lt hid))

/-- The new element is closed, and the draft has grown by it and what stands in it. -/
theorem close {tag : String} {attributes : List (String × String)} {children : List Markup}
    (h : d.Inside d' e) (htag : e.tag = some tag)
    (hattributes : e.attributes.values.map (fun a => (a.name, a.value)) =
      attributes.map fun a => (a.1, some a.2))
    (hids : e.children = Markup.idsFrom (d.elements.size + 1) children)
    (hsize : d'.elements.size = d.elements.size + 1 + Markup.sizeAll children)
    (hshows : Markup.Shows d'.get? (d.elements.size + 1) children) (offset : Nat)
    (selfClosed : Bool) :
    d.Adds [.element tag attributes selfClosed children]
      (d'.close d.elements.size offset selfClosed) := by
  have hclosed : d.Inside (d'.adjust d'.current fun e =>
      { e with stop := offset, closed := true, selfClosed := selfClosed })
      { e with stop := offset, closed := true, selfClosed := selfClosed } :=
    h.adjust (fun _ => ⟨rfl, rfl⟩) rfl
  rw [h.current] at hclosed
  refine ⟨hclosed.toGrows.congr rfl rfl, ?_, ?_, ?_⟩
  · show d'.parentOf d.elements.size = d.current
    unfold parentOf
    rw [h.element, Option.bind_some, h.parent, Option.getD_some]
  · show (d'.adjust _ _).elements.size = _
    rw [size_adjust, hsize, Markup.sizeAll, Markup.size, Markup.sizeAll]
    omega
  · -- What stands in the element comes behind it, and closing the element does not change that.
    refine .element hclosed.element htag hattributes rfl rfl hids (hshows.congr fun i hle _ => ?_)
      (.nil _)
    exact (get?_adjust ..).trans (if_neg (Nat.ne_of_lt hle))

end Inside

end Draft

end LayoutMarkup
