import LayoutMarkup.Document.Draft
import LayoutMarkup.Proofs.Document.Nesting
import LayoutMarkup.Proofs.Token.Tiling

/-!
# Drafting

A draft takes the tokens of a text one by one. What it does to the shapes of its elements comes down
to the three changes that keep a layout: a `>`, a `<` or a `</` closes a start tag, `/>` and the `>`
of an end tag close an element, and a `<` begins one. So after each token the elements of the draft
are laid out up to the offset of the scanner (`Draft.InStep.take`).

The name of an end tag needs more: the offset it writes is that of the `</` in front of it. Behind
`</` the draft is laid out up to that offset, and the scanner knows the name of an end tag only
there (`Draft.InStep.endTag`).
-/

namespace LayoutMarkup.Draft

/-- Where the elements of a draft stand. -/
def shapes (d : Draft) : Shapes := fun id =>
  (d.get? id).map Element.shape

/-- The shape of an element that is there. -/
theorem shapes_eq {d : Draft} {id : ElementId} {e : Element} (h : d.get? id = some e) :
    d.shapes id = some e.shape := by
  unfold shapes
  rw [h, Option.map_some]

/-- A shape is that of an element. -/
theorem exists_get? {d : Draft} {id : ElementId} {s : Shape} (h : d.shapes id = some s) :
    ∃ e, d.get? id = some e ∧ e.shape = s :=
  Option.map_eq_some_iff.1 h

/-! ## Changes that nothing of the layout depends on -/

/-- Two drafts that agree in their layout. -/
structure Same (d d' : Draft) : Prop where
  /-- Their elements stand at the same places. -/
  shapes : d'.shapes = d.shapes
  /-- They have as many elements. -/
  size : d'.elements.size = d.elements.size
  /-- They have the same current element. -/
  current : d'.current = d.current
  /-- They remember the same `</`. -/
  endTagOpen : d'.endTagOpen = d.endTagOpen
  /-- They wait for the same end tag. -/
  endTagTarget : d'.endTagTarget = d.endTagTarget

/-- A draft agrees with itself. -/
theorem Same.refl (d : Draft) : d.Same d :=
  ⟨rfl, rfl, rfl, rfl, rfl⟩

/-- Agreement goes on. -/
theorem Same.trans {d d' d'' : Draft} (h : d.Same d') (h' : d'.Same d'') : d.Same d'' where
  shapes := h'.shapes.trans h.shapes
  size := h'.size.trans h.size
  current := h'.current.trans h.current
  endTagOpen := h'.endTagOpen.trans h.endTagOpen
  endTagTarget := h'.endTagTarget.trans h.endTagTarget

/-- The elements after one was changed. -/
theorem get?_adjust (d : Draft) (id j : ElementId) (f : Element → Element) :
    (d.adjust id f).get? j = if id = j then (d.get? j).map f else d.get? j :=
  Array.getElem?_modify

/-- The element that was changed. -/
theorem get?_adjust_self {d : Draft} {id : ElementId} {e : Element} (h : d.get? id = some e)
    (f : Element → Element) : (d.adjust id f).get? id = some (f e) := by
  rw [get?_adjust, if_pos rfl, h]
  rfl

/-- A change of an element leaves their number. -/
theorem size_adjust (d : Draft) (id : ElementId) (f : Element → Element) :
    (d.adjust id f).elements.size = d.elements.size :=
  Array.size_modify

/-- A change that is not about the shape leaves the layout. -/
theorem same_adjust (d : Draft) (id : ElementId) {f : Element → Element}
    (hf : ∀ e, (f e).shape = e.shape) : d.Same (d.adjust id f) := by
  refine ⟨funext fun j => ?_, d.size_adjust id f, rfl, rfl, rfl⟩
  unfold shapes
  rw [get?_adjust]
  split
  next =>
    rw [Option.map_map]
    exact congrArg (fun g => (d.get? j).map g) (funext hf)
  next => rfl

/-- A change of the attributes of an element leaves the layout. -/
theorem same_attributes (d : Draft) (id : ElementId)
    (f : OrderedMap String Attribute → OrderedMap String Attribute) :
    d.Same (d.adjust id fun e => { e with attributes := f e.attributes }) :=
  d.same_adjust id fun _ => rfl

/-- Choosing a type leaves the layout. -/
theorem same_resolveAlternation (schema : Schema) (d : Draft) (id : ElementId) :
    d.Same (resolveAlternation schema d id) := by
  unfold resolveAlternation
  split
  next => exact .refl d
  next =>
    split
    next =>
      split
      next => exact .refl d
      next =>
        dsimp only
        split
        next => exact d.same_adjust id fun _ => rfl
        next =>
          have hfailed : d.Same (d.adjust id fun e => { e with alternationFailed := true }) :=
            d.same_adjust id fun _ => rfl
          exact hfailed.trans ⟨rfl, rfl, rfl, rfl, rfl⟩
    next => exact .refl d

/-- Reporting a second top-level element leaves the layout. -/
theorem same_noteTopLevel (d : Draft) (span : Span) : d.Same (d.noteTopLevel span) := by
  unfold noteTopLevel
  split
  next => exact ⟨rfl, rfl, rfl, rfl, rfl⟩
  next => exact .refl d

/-- Naming an element leaves the layout. -/
theorem same_nameElement (schema : Schema) (d : Draft) (token : Token) :
    d.Same (d.nameElement schema token) := by
  unfold nameElement
  split
  next => exact .refl d
  next =>
    have hnamed : d.Same (d.adjust d.current fun e =>
        { e with tag := some token.text, tagSpan := some token.span }) :=
      d.same_adjust d.current fun _ => rfl
    dsimp only
    split
    next => exact hnamed
    next =>
      split
      next => exact hnamed.trans (same_adjust _ _ fun _ => rfl)
      next =>
        split
        next => exact hnamed
        next => exact hnamed.trans ⟨rfl, rfl, rfl, rfl, rfl⟩

/-- An attribute leaves the layout. -/
theorem same_addAttribute (d : Draft) (token : Token) : d.Same (d.addAttribute token) := by
  have hpending : d.Same { d with pending := none } := ⟨rfl, rfl, rfl, rfl, rfl⟩
  unfold addAttribute
  dsimp only
  split
  next => exact hpending
  next =>
    split
    next => exact hpending.trans ⟨rfl, rfl, rfl, rfl, rfl⟩
    next =>
      have hadded := same_attributes { d with pending := none } d.current
        (·.insert (Text.lower token.text) ⟨token.text, token.span, none, none⟩)
      exact (hpending.trans hadded).trans ⟨rfl, rfl, rfl, rfl, rfl⟩

/-- A value leaves the layout. -/
theorem same_setValue (d : Draft) (token : Token) : d.Same (d.setValue token) := by
  unfold setValue
  split
  next => exact .refl d
  next key hkey =>
    have hpending : d.Same { d with pending := none } := ⟨rfl, rfl, rfl, rfl, rfl⟩
    exact hpending.trans (same_attributes { d with pending := none } d.current
      (·.adjust key fun a =>
        { a with value := some (unquote token.text), valueSpan := some token.span }))

/-! ## Changes of the layout -/

/-- A change of an element that is there is seen in its shape. -/
theorem shapes_adjust {d : Draft} {id : ElementId} {e : Element} (h : d.get? id = some e)
    (f : Element → Element) :
    (d.adjust id f).shapes = Function.update d.shapes id (some (f e).shape) := by
  funext j
  unfold shapes
  rw [get?_adjust]
  by_cases hj : id = j
  · subst hj
    rw [if_pos rfl, Function.update_self, h]
    rfl
  · rw [if_neg hj, Function.update_of_ne fun heq => hj heq.symm]

/-- The start tag of an element is open. -/
def OpenTag (d : Draft) (id : ElementId) : Prop :=
  ∃ s, d.shapes id = some s ∧ s.startTagEnd = none

/-- The elements of the draft are laid out up to a mark, and the stack of open ones ends with the
current element. An end tag that waits for its `>` is that of the current element. -/
structure Fits (P : Nat → Prop) (length mark : Nat) (stack : List ElementId) (d : Draft) :
    Prop where
  /-- The layout. -/
  laid : Laid P length d.shapes d.elements.size stack mark
  /-- The current element is the innermost open one. -/
  current : stack.head? = some d.current
  /-- Only the current element is waited for, and its start tag is closed. -/
  target : ∀ {t}, d.endTagTarget = some t →
    t = d.current ∧ t ≠ .root ∧ ¬ d.OpenTag t

variable {P : Nat → Prop} {length mark : Nat} {stack : List ElementId} {d d' : Draft}

/-- Drafts that agree fit the same stack. -/
theorem Fits.same (h : d.Fits P length mark stack) (hsame : d.Same d') :
    d'.Fits P length mark stack where
  laid := by
    rw [hsame.shapes, hsame.size]
    exact h.laid
  current := by
    rw [hsame.current]
    exact h.current
  target := by
    unfold OpenTag
    rw [hsame.shapes, hsame.current, hsame.endTagTarget]
    exact h.target

/-- Drafts that agree have the same start tag open. -/
theorem Same.openTag_current (hsame : d.Same d') :
    d'.OpenTag d'.current ↔ d.OpenTag d.current := by
  unfold OpenTag
  rw [hsame.shapes, hsame.current]

/-- The mark may be moved on. -/
theorem Fits.mono (h : d.Fits P length mark stack) {mark' : Nat} (hle : mark ≤ mark')
    (hlen : mark' ≤ length) : d.Fits P length mark' stack :=
  { h with laid := h.laid.mono hle hlen }

/-- Nothing is waited for any more. -/
theorem Fits.forget (h : d.Fits P length mark stack) (pending : Option String) :
    Fits P length mark stack { d with endTagTarget := none, pending } :=
  { h with target := fun ht => absurd ht (Option.some_ne_none _).symm }

/-- The parent is that of the shape. -/
theorem parentOf_eq {id p : ElementId} {s : Shape} (hs : d.shapes id = some s)
    (hparent : s.parent = some p) : d.parentOf id = p := by
  obtain ⟨e, he, rfl⟩ := exists_get? hs
  unfold parentOf
  rw [he, Option.bind_some]
  exact congrArg (Option.getD · ElementId.root) hparent

/-- In a start tag the current element is not the root, and its start tag is not closed. -/
theorem inStartTag_iff (d : Draft) : d.inStartTag = true ↔
    d.current ≠ .root ∧ ∃ e, d.get? d.current = some e ∧ e.startTagEnd = none := by
  unfold inStartTag
  rw [Bool.and_eq_true, bne_iff_ne, Option.any_eq_true]
  simp only [Option.isNone_iff_eq_none]

/-- A start tag of the current element that is open is one the draft is in. -/
theorem Fits.inStartTag (h : d.Fits P length mark stack) (hopen : d.OpenTag d.current) :
    d.inStartTag = true := by
  obtain ⟨s, hs, hnone⟩ := hopen
  have hroot := h.laid.ne_root_of_unclosed hs hnone
  obtain ⟨e, he, rfl⟩ := exists_get? hs
  exact (inStartTag_iff d).2 ⟨hroot, e, he, hnone⟩

/-- Closing a start tag is seen in the shape of the current element. -/
theorem shapes_closeStartTag {e : Element} (he : d.get? d.current = some e) (schema : Schema)
    (offset : Nat) : (d.closeStartTag schema offset).shapes =
      Function.update d.shapes d.current (some { e.shape with startTagEnd := some offset }) := by
  unfold closeStartTag
  rw [(same_resolveAlternation ..).shapes]
  exact shapes_adjust he _

/-- Closing a start tag leaves the number of elements, the current one and what is waited for. -/
theorem closeStartTag_keeps (d : Draft) (schema : Schema) (offset : Nat) :
    (d.closeStartTag schema offset).elements.size = d.elements.size ∧
      (d.closeStartTag schema offset).current = d.current ∧
      (d.closeStartTag schema offset).endTagTarget = d.endTagTarget := by
  have hsame := same_resolveAlternation schema ({ d with pending := none }.adjust d.current
    fun e => { e with startTagEnd := some offset }) d.current
  exact ⟨hsame.size.trans (size_adjust ..), hsame.current, hsame.endTagTarget⟩

/-- In a start tag nothing is waited for. -/
theorem Fits.endTagTarget_eq_none (h : d.Fits P length mark stack) (htag : d.inStartTag = true) :
    d.endTagTarget = none := by
  obtain ⟨-, e, he, hnone⟩ := (inStartTag_iff d).1 htag
  by_contra hne
  obtain ⟨t, ht⟩ := Option.ne_none_iff_exists'.1 hne
  obtain ⟨rfl, -, hclosed⟩ := h.target ht
  exact hclosed ⟨_, shapes_eq he, hnone⟩

/-- The start tag of the current element may be closed at an offset behind the mark. -/
theorem Fits.closeStartTag (h : d.Fits P length mark stack) (htag : d.inStartTag = true)
    {offset : Nat} (hle : mark ≤ offset) (hlen : offset ≤ length) (hP : P offset)
    (schema : Schema) : (d.closeStartTag schema offset).Fits P length offset stack := by
  obtain ⟨-, e, he, hnone⟩ := (inStartTag_iff d).1 htag
  obtain ⟨hsize, hcurrent, htarget⟩ := d.closeStartTag_keeps schema offset
  refine ⟨?_, ?_, fun {t} ht => ?_⟩
  · rw [shapes_closeStartTag he, hsize]
    exact (h.laid.mono hle hlen).closeStartTag (shapes_eq he) hnone hP
  · exact h.current.trans (congrArg some hcurrent.symm)
  · rw [htarget, h.endTagTarget_eq_none htag] at ht
    exact absurd ht (Option.some_ne_none t).symm

/-- At an offset behind the mark a start tag that is open is closed. -/
theorem Fits.endStartTag (h : d.Fits P length mark stack) {offset : Nat} (hle : mark ≤ offset)
    (hlen : offset ≤ length) (hP : P offset) (schema : Schema) :
    (d.endStartTag schema offset).Fits P length offset stack ∧
      ¬ (d.endStartTag schema offset).OpenTag (d.endStartTag schema offset).current := by
  unfold Draft.endStartTag
  cases htag : d.inStartTag with
  | false =>
    rw [if_neg Bool.false_ne_true]
    exact ⟨h.mono hle hlen, fun hopen => Bool.false_ne_true (htag.symm.trans (h.inStartTag hopen))⟩
  | true =>
    rw [if_pos rfl]
    have hfits := h.closeStartTag htag hle hlen hP schema
    obtain ⟨-, e, he, -⟩ := (inStartTag_iff d).1 htag
    obtain ⟨-, hcurrent, -⟩ := d.closeStartTag_keeps schema offset
    refine ⟨hfits, fun ⟨s, hs, hopen⟩ => ?_⟩
    rw [hcurrent, shapes_closeStartTag he, Function.update_self] at hs
    obtain rfl := Option.some_inj.1 hs
    exact Option.some_ne_none offset hopen

/-- Closing a start tag leaves what is waited for. -/
theorem endTagTarget_endStartTag (d : Draft) (schema : Schema) (offset : Nat) :
    (d.endStartTag schema offset).endTagTarget = d.endTagTarget := by
  unfold Draft.endStartTag
  split
  next => exact (d.closeStartTag_keeps schema offset).2.2
  next => rfl

/-! ## A new element -/

/-- Beginning an element adds one. -/
theorem size_addChild (d : Draft) (length offset : Nat) :
    (d.addChild length offset).elements.size = d.elements.size + 1 := by
  unfold addChild
  dsimp only
  rw [Array.size_push, size_adjust]

/-- The elements after one was begun. -/
theorem get?_addChild (d : Draft) (length offset : Nat) (id : ElementId) :
    (d.addChild length offset).get? id =
      if id = d.elements.size then
        some { start := offset, stop := length, parent := some d.current }
      else if d.current = id then
        (d.get? id).map fun e => { e with children := e.children ++ [d.elements.size] }
      else d.get? id := by
  rw [← get?_adjust]
  unfold addChild get?
  dsimp only
  rw [Array.getElem?_push, size_adjust]

/-- Beginning an element is seen in its shape and in that of its parent. -/
theorem shapes_addChild {e : Element} (he : d.get? d.current = some e) (length offset : Nat) :
    (d.addChild length offset).shapes =
      Function.update (Function.update d.shapes d.current
        (some { e.shape with children := e.shape.children ++ [d.elements.size] }))
        d.elements.size (some (Laid.fresh length offset d.current)) := by
  have hlinked := shapes_adjust he fun e =>
    { e with children := e.children ++ [d.elements.size] }
  funext j
  unfold shapes Draft.addChild get?
  dsimp only
  rw [Array.getElem?_push, size_adjust]
  by_cases hj : j = d.elements.size
  · rw [if_pos hj, hj, Function.update_self]
    rfl
  · rw [if_neg hj, Function.update_of_ne hj]
    exact congrFun hlinked j

/-- An element may begin at the mark, once the start tag of the current one is closed. -/
theorem Fits.addChild (h : d.Fits P length mark stack) (htag : ¬ d.OpenTag d.current)
    (htarget : d.endTagTarget = none) {mark' : Nat} (hlt : mark < mark') (hlen : mark' ≤ length)
    (hmark : P mark) (hlength : P length) :
    (d.addChild length mark).Fits P length mark' (d.elements.size :: stack) := by
  obtain ⟨rest, rfl⟩ := List.head?_eq_some_iff.1 h.current
  obtain ⟨s, hs⟩ := h.laid.exists_top
  obtain ⟨e, he, rfl⟩ := exists_get? hs
  refine ⟨?_, rfl, fun {t} ht => ?_⟩
  · rw [shapes_addChild he, size_addChild]
    exact h.laid.push hs (fun hnone => htag ⟨_, hs, hnone⟩) hlt hlen hmark hlength
  · exact absurd (htarget.symm.trans ht) (Option.some_ne_none t).symm

/-- A `<` begins an element. -/
theorem Fits.openElement (h : d.Fits P length mark stack) {span : Span} (hle : mark ≤ span.start)
    (hlt : span.start < span.stop) (hlen : span.stop ≤ length) (hstart : P span.start)
    (hlength : P length) (schema : Schema) :
    ∃ stack', (d.openElement schema length span).Fits P length span.stop stack' := by
  obtain ⟨hfits, htag⟩ := (h.forget none).endStartTag hle (Nat.le_trans (Nat.le_of_lt hlt) hlen)
    hstart schema
  have htarget := endTagTarget_endStartTag { d with endTagTarget := none, pending := none } schema
    span.start
  have hnoted := same_noteTopLevel
    ({ d with endTagTarget := none, pending := none }.endStartTag schema span.start) span
  exact ⟨_, (hfits.same hnoted).addChild (mt hnoted.openTag_current.1 htag)
    (hnoted.endTagTarget.trans htarget) hlt hlen hstart hlength⟩

/-! ## The end of an element -/

/-- The current element may be closed at the mark, once its start tag is. -/
theorem Fits.close (h : d.Fits P length mark stack) (hroot : d.current ≠ .root)
    (htag : ¬ d.OpenTag d.current) (htarget : d.endTagTarget = none) {selfClosed : Bool}
    (hbare : ∀ s, d.shapes d.current = some s → Shape.Bare { s with stop := mark, selfClosed })
    (hmark : P mark) : ∃ stack', (d.close d.current mark selfClosed).Fits P length mark stack' := by
  obtain ⟨rest, rfl⟩ := List.head?_eq_some_iff.1 h.current
  obtain ⟨s, p, below, hs, hparent, rfl, -⟩ := h.laid.stacked.exists_parent hroot
  obtain ⟨e, he, rfl⟩ := exists_get? hs
  refine ⟨p :: below, ?_, ?_, fun {t} ht => ?_⟩
  · have hshapes := shapes_adjust he fun e =>
      { e with stop := mark, closed := true, selfClosed := selfClosed }
    have hsize : (d.close d.current mark selfClosed).elements.size = d.elements.size :=
      d.size_adjust ..
    rw [hsize]
    exact hshapes ▸ h.laid.pop hs hroot (fun hnone => htag ⟨_, hs, hnone⟩) (hbare _ hs) hmark
  · exact congrArg some (parentOf_eq hs hparent).symm
  · exact absurd (htarget.symm.trans ht) (Option.some_ne_none t).symm

/-- A `/>` closes the start tag and the element. -/
theorem Fits.selfClose (h : d.Fits P length mark stack) (htag : d.inStartTag = true)
    {offset : Nat} (hle : mark ≤ offset) (hlen : offset ≤ length) (hP : P offset)
    (schema : Schema) :
    ∃ stack', ((d.closeStartTag schema offset).close d.current offset true).Fits P length offset
      stack' := by
  obtain ⟨hroot, e, he, hnone⟩ := (inStartTag_iff d).1 htag
  have hs := shapes_eq he
  have hend : d.endStartTag schema offset = d.closeStartTag schema offset := if_pos htag
  obtain ⟨hfits, hclosed⟩ := h.endStartTag hle hlen hP schema
  rw [hend] at hfits hclosed
  obtain ⟨-, hcurrent, htarget⟩ := d.closeStartTag_keeps schema offset
  rw [← hcurrent]
  refine hfits.close (hcurrent ▸ hroot) hclosed (htarget.trans (h.endTagTarget_eq_none htag))
    (fun s' hs' => ?_) hP
  -- The element had no start tag, so it has no end tag and no children.
  rw [hcurrent, shapes_closeStartTag he, Function.update_self] at hs'
  cases hs'
  obtain ⟨hhead, hchildren⟩ := h.laid.unclosed hs hnone
  have hbelow := (h.laid.opened hs (List.mem_of_mem_head? hhead)).2.2 hroot
  exact fun _ => ⟨rfl, hbelow.endTagStart_eq_none hnone, hchildren⟩

/-- The `>` of an end tag closes the element that waits for it. -/
theorem Fits.endTagClose (h : d.Fits P length mark stack) {offset : Nat} (hle : mark ≤ offset)
    (hlen : offset ≤ length) (hP : P offset) {target : ElementId}
    (ht : d.endTagTarget = some target) : ∃ stack',
      ({ d with endTagTarget := none }.close target offset false).Fits P length offset stack' := by
  obtain ⟨rfl, hroot, hclosed⟩ := h.target ht
  have hforgot := (h.mono hle hlen).forget d.pending
  exact hforgot.close hroot hclosed rfl (fun _ _ hself => absurd hself Bool.false_ne_true) hP

/-! ## End tags -/

/-- An element gets the offset of its end tag, and the draft waits for the `>`. -/
def expect (d : Draft) (id : ElementId) : Draft :=
  { d.adjust id fun e => { e with endTagStart := some d.endTagOpen } with
    current := id, endTagTarget := some id }

/-- The name of an end tag makes no difference, or it is that of the current element, or that of its
parent for whose sake the current element is left, or it is remarked on. -/
theorem matchEndTag_cases {motive : Draft → Prop} (d : Draft) (token : Token) (keep : motive d)
    (fits : ∀ e, d.current ≠ .root → d.get? d.current = some e → e.tag = some token.text →
      motive (d.expect d.current))
    (leaves : ∀ e parent, d.current ≠ .root → d.get? d.current = some e →
      e.parent = some parent → parent ≠ .root →
      (d.get? parent).any (·.tag == some token.text) = true →
      motive (((d.report (.missingEndTag e.tagText) e.markSpan).adjust d.current fun e =>
        { e with stop := d.endTagOpen, closed := false }).expect parent))
    (mismatch : ∀ e, d.get? d.current = some e →
      motive (d.report (.endTagMismatch e.tagText token.text) token.span)) :
    motive (d.matchEndTag token) := by
  unfold matchEndTag
  -- The guards in the order in which they are asked: the root, the tag of the element itself, and
  -- the tag of its parent.
  split
  next => exact keep
  next hroot =>
    split
    next => exact keep
    next e he =>
      dsimp only
      split
      next htag => exact fits e hroot he htag
      next =>
        split
        next parent hparent =>
          split
          next hmatch => exact leaves e parent hroot he hparent hmatch.1 hmatch.2
          next => exact mismatch e he
        next => exact mismatch e he

/-- The innermost open element gets the offset of its end tag and waits for the `>`. -/
theorem fits_expect {top : ElementId} {rest : List ElementId}
    (h : Laid P length d.shapes d.elements.size (top :: rest) mark) (hroot : top ≠ .root)
    (htag : ¬ d.OpenTag top) (hmark : P mark) :
    Fits P length mark (top :: rest)
      { d.adjust top fun e => { e with endTagStart := some mark } with
        current := top, endTagTarget := some top } := by
  -- The end tag begins at the mark, and so behind the start tag.
  obtain ⟨s, hs⟩ := h.exists_top
  obtain ⟨e, he, rfl⟩ := exists_get? hs
  have hbelow := (h.opened hs List.mem_cons_self).2.2 hroot
  have hall := h.all hs
  have hshapes := shapes_adjust he fun e => { e with endTagStart := some mark }
  have hclosed : e.startTagEnd ≠ none := fun hnone => htag ⟨_, hs, hnone⟩
  obtain ⟨t, ht⟩ := Option.ne_none_iff_exists'.1 hclosed
  refine ⟨?_, rfl, fun {t'} ht' => ?_⟩
  · rw [size_adjust]
    refine hshapes ▸ h.amend hs hroot ⟨hbelow.start, hbelow.startTag, fun hend => ?_⟩ id
      ⟨hall.start, hall.stop, hall.startTagEnd, fun hend => ?_⟩
    · cases hend
      exact ⟨t, ht, (hbelow.startTag ht).2, Nat.le_refl mark⟩
    · cases hend
      exact hmark
  · cases ht'
    refine ⟨rfl, hroot, fun ⟨s', hs', hopen⟩ => ?_⟩
    have hnew := (congrFun hshapes top).symm.trans hs'
    rw [Function.update_self] at hnew
    obtain rfl := Option.some_inj.1 hnew
    exact hclosed hopen

/-- The current element may be left at the mark for the sake of its parent, once its start tag is
closed. The start tag of the parent is closed then. -/
theorem Fits.leave (h : d.Fits P length mark stack) (hroot : d.current ≠ .root)
    (htag : ¬ d.OpenTag d.current) (hmark : P mark) {e : Element} {p : ElementId}
    (he : d.get? d.current = some e) (hparent : e.parent = some p) :
    ∃ below, Laid P length
        (d.adjust d.current fun e => { e with stop := mark, closed := false }).shapes
        (d.adjust d.current fun e => { e with stop := mark, closed := false }).elements.size
        (p :: below) mark ∧
      ¬ (d.adjust d.current fun e => { e with stop := mark, closed := false }).OpenTag p := by
  have hs := shapes_eq he
  unfold OpenTag
  rw [shapes_adjust he, size_adjust]
  obtain ⟨rest, rfl⟩ := List.head?_eq_some_iff.1 h.current
  obtain ⟨s, p', below, hs', hp', rfl, -⟩ := h.laid.stacked.exists_parent hroot
  obtain rfl : e.shape = s := Option.some_inj.1 (hs.symm.trans hs')
  have hp : p' = p := Option.some_inj.1 (hp'.symm.trans hparent)
  subst hp
  obtain ⟨-, hself, -⟩ := h.laid.opened hs List.mem_cons_self
  refine ⟨below, h.laid.pop hs hroot (fun hnone => htag ⟨_, hs, hnone⟩) (fun hyes => ?_) hmark,
    fun ⟨f, hf, hopen⟩ => ?_⟩
  · exact absurd (hyes.symm.trans hself) Bool.noConfusion
  · -- Something stands in the parent, so its start tag is closed.
    have hne : p' ≠ d.current := Nat.ne_of_lt (h.laid.lt_of_parent hs hparent).1
    rw [Function.update_of_ne hne] at hf
    obtain ⟨t, ht, -⟩ := h.laid.inside hf hs hparent
    exact Option.some_ne_none t (ht.symm.trans hopen)

/-- Right behind `</` the draft is laid out up to the offset of that. -/
structure AtEndTag (P : Nat → Prop) (length : Nat) (d : Draft) : Prop where
  /-- The layout. -/
  fits : ∃ stack, d.Fits P length d.endTagOpen stack
  /-- The start tag of the current element is closed. -/
  tagClosed : ¬ d.OpenTag d.current
  /-- The offset of `</` has the property. -/
  endTagOpen : P d.endTagOpen

/-- A `</` closes the start tag in front of it. -/
theorem Fits.openEndTag (h : d.Fits P length mark stack) {offset : Nat} (hle : mark ≤ offset)
    (hlen : offset ≤ length) (hP : P offset) (schema : Schema) :
    AtEndTag P length
      { { d with endTagTarget := none }.endStartTag schema offset with endTagOpen := offset } := by
  obtain ⟨hfits, htag⟩ := (h.forget d.pending).endStartTag hle hlen hP schema
  exact ⟨⟨stack, hfits.laid, hfits.current, hfits.target⟩, htag, hP⟩

/-- The name of an end tag changes the current element or, in front of the end tag of its parent,
closes it. -/
theorem AtEndTag.matchEndTag (h : AtEndTag P length d) (token : Token) :
    ∃ stack, (d.matchEndTag token).Fits P length d.endTagOpen stack := by
  obtain ⟨⟨stack, hfits⟩, htag, hP⟩ := h
  have hreport : ∀ cause span, (d.report cause span).Fits P length d.endTagOpen stack :=
    fun cause span => hfits.same ⟨rfl, rfl, rfl, rfl, rfl⟩
  obtain ⟨rest, rfl⟩ := List.head?_eq_some_iff.1 hfits.current
  refine matchEndTag_cases (motive := fun d' => ∃ stack, d'.Fits P length d.endTagOpen stack) d
    token ⟨_, hfits⟩ (fun e hroot _ _ => ?_) (fun e parent hroot he hparent hne _ => ?_)
    fun e _ => ⟨_, hreport _ _⟩
  · exact ⟨_, fits_expect hfits.laid hroot htag hP⟩
  · -- The current element is closed in front of the end tag of its parent.
    obtain ⟨below, hleft, hopen⟩ :=
      (hreport (.missingEndTag e.tagText) e.markSpan).leave hroot htag hP he hparent
    exact ⟨_, fits_expect hleft hne hopen hP⟩

/-- Drafts that agree are behind the same `</`. -/
theorem AtEndTag.same (h : AtEndTag P length d) (hsame : d.Same d') : AtEndTag P length d' := by
  obtain ⟨⟨stack, hfits⟩, htag, hP⟩ := h
  refine ⟨⟨stack, ?_⟩, mt hsame.openTag_current.1 htag, hsame.endTagOpen ▸ hP⟩
  rw [hsame.endTagOpen]
  exact hfits.same hsame

/-! ## Tokens -/

/-- Where a token stands behind the mark. -/
structure Next (P : Nat → Prop) (length mark : Nat) (token : Token) : Prop where
  /-- It begins at the mark. -/
  start : token.span.start = mark
  /-- It does not go back. -/
  le : mark ≤ token.span.stop
  /-- Every token but the last one has characters. -/
  lt : token.kind ≠ .endOfText → mark < token.span.stop
  /-- It stands in the text. -/
  stop_le : token.span.stop ≤ length
  /-- The offset of its beginning has the property. -/
  mark : P mark
  /-- The offset of its end has the property. -/
  stop : P token.span.stop
  /-- The end of the text has the property. -/
  length : P length

/-- A token keeps the layout. The name of an end tag needs the layout up to `</`. -/
theorem Fits.step (h : d.Fits P length mark stack) {token : Token}
    (hnext : Next P length mark token)
    (hname : token.kind = .endTagName → AtEndTag P length d ∧ d.endTagOpen ≤ mark)
    (schema : Schema) :
    ∃ stack', (d.step schema length token).Fits P length token.span.stop stack' := by
  -- What leaves the layout only moves the mark.
  have hkeep : ∀ {d'}, d.Same d' → ∃ stack', d'.Fits P length token.span.stop stack' :=
    fun hsame => ⟨stack, (h.same hsame).mono hnext.le hnext.stop_le⟩
  have hstart := hnext.start
  unfold Draft.step
  cases hkind : token.kind with
  | tagOpen =>
    have hlt := hnext.lt (by rw [hkind]; decide)
    exact h.openElement (Nat.le_of_eq hstart.symm) (hstart.symm ▸ hlt) hnext.stop_le
      (hstart.symm ▸ hnext.mark) hnext.length schema
  | tagName => exact hkeep (d.same_nameElement schema token)
  | attributeName => exact hkeep (d.same_addAttribute token)
  | attributeValue => exact hkeep (d.same_setValue token)
  | tagClose => exact ⟨stack, (h.endStartTag hnext.le hnext.stop_le hnext.stop schema).1⟩
  | tagSelfClose =>
    dsimp only
    split
    next htag => exact h.selfClose htag hnext.le hnext.stop_le hnext.stop schema
    next => exact hkeep (.refl d)
  | endTagOpen =>
    -- A `</` closes a start tag at its own beginning, as `<` does.
    have hopen := h.openEndTag (Nat.le_of_eq hstart.symm)
      (hstart ▸ Nat.le_trans hnext.le hnext.stop_le) (hstart.symm ▸ hnext.mark) schema
    obtain ⟨stack', hfits⟩ := hopen.fits
    exact ⟨stack', hfits.mono (hstart ▸ hnext.le) hnext.stop_le⟩
  | endTagName =>
    -- The layout up to the `</` is the one that the name of the end tag goes by.
    obtain ⟨hat, hle⟩ := hname hkind
    obtain ⟨stack', hfits⟩ := hat.matchEndTag token
    exact ⟨stack', hfits.mono (Nat.le_trans hle hnext.le) hnext.stop_le⟩
  | endTagClose =>
    dsimp only
    split
    next target htarget => exact h.endTagClose hnext.le hnext.stop_le hnext.stop htarget
    next => exact hkeep (.refl d)
  | _ => exact hkeep (.refl d)

/-- After the tokens so far, the draft is laid out up to the offset of the scanner. Right behind
`</` it is laid out up to that. -/
structure InStep (text : List Char) (s : Scanner) (d : Draft) : Prop where
  /-- The scanner stands in the text. -/
  within : s.Within text
  /-- The layout. -/
  fits : ∃ stack, d.Fits (Text.IsBoundary text) (Text.byteLength text) s.offset stack
  /-- The layout behind `</`. -/
  endTag : s.state = .endTagOpened →
    AtEndTag (Text.IsBoundary text) (Text.byteLength text) d ∧ d.endTagOpen ≤ s.offset

/-- The next token of a scanner stands behind its offset. -/
theorem next_scan {text : List Char} {s : Scanner} (h : s.Within text) :
    Next (Text.IsBoundary text) (Text.byteLength text) s.offset s.scan.token := by
  have hspan := s.span_scan
  refine ⟨by rw [hspan], ?_, fun hkind => ?_, ?_, h.isBoundary, ?_, Text.isBoundary_byteLength text⟩
    <;> rw [hspan]
  · exact s.offset_le_scan
  · exact Scanner.offset_lt_scan hkind
  · exact h.scan.offset_le
  · exact h.scan.isBoundary

/-- Every step of the scanner keeps the draft in step with it. -/
theorem InStep.take {text : List Char} {s : Scanner} (h : InStep text s d) (schema : Schema) :
    InStep text s.scan.after (d.take schema (Text.byteLength text) s.scan) := by
  obtain ⟨hwithin, ⟨stack, hfits⟩, hend⟩ := h
  have hlog : d.Same { d with log := s.scan.diagnostic.elim d.log d.log.add } :=
    ⟨rfl, rfl, rfl, rfl, rfl⟩
  have hnext := next_scan hwithin
  have hstop : s.scan.token.span.stop = s.scan.after.offset := by rw [s.span_scan]
  have hstep := (hfits.same hlog).step hnext (fun hkind => ?_) schema
  · refine ⟨hwithin.scan, hstop ▸ hstep, fun hstate => ?_⟩
    rcases s.scan_spec.outcome with ⟨-, hkind, hsame⟩ | ⟨m, -, hmem⟩
    · -- At the end of the text nothing happens.
      obtain ⟨hat, hle⟩ := hend (hsame ▸ hstate)
      unfold Draft.take Draft.step
      rw [hkind]
      exact ⟨hat.same hlog, Nat.le_trans hle s.offset_le_scan⟩
    · rw [hstate] at hmem
      have hkind := Scanner.State.eq_endTagOpen_of_endTagOpened hmem
      unfold Draft.take Draft.step
      rw [hkind]
      have hstart := hnext.start
      refine ⟨(hfits.same hlog).openEndTag (Nat.le_of_eq hstart.symm)
        (hstart ▸ hwithin.offset_le) (hstart.symm ▸ hnext.mark) schema, ?_⟩
      exact hstart.symm ▸ s.offset_le_scan
  · rcases s.scan_spec.outcome with ⟨-, hnone, -⟩ | ⟨m, hm, hmem⟩
    · rw [hnone] at hkind
      exact TokenKind.noConfusion hkind
    · rw [hkind] at hmem
      obtain ⟨hat, hle⟩ := hend (Scanner.State.eq_endTagOpened_of_endTagName hm hmem)
      exact ⟨hat.same hlog, hle⟩

/-! ## The end of the text -/

/-- The elements that are ended with the text are the open ones without the root. -/
theorem openChain_eq {top : ElementId} {rest : List ElementId}
    (h : d.shapes.Stacked (top :: rest)) :
    d.openChain top ++ [ElementId.root] = top :: rest := by
  generalize hstack : top :: rest = stack at h
  induction h generalizing top rest with
  | root =>
    cases hstack
    rw [openChain, if_pos rfl, List.nil_append]
  | @inner id p below s hs hparent hlt hrest ih =>
    cases hstack
    have hroot : id ≠ .root := by
      rintro rfl
      exact Nat.not_lt_zero p hlt
    rw [openChain, if_neg hroot, parentOf_eq hs hparent, if_pos hlt, List.cons_append, ih rfl]

/-- At the end of the text an open start tag is closed. -/
theorem laid_closeAtEnd (h : Laid P length d.shapes d.elements.size stack length) {id : ElementId}
    (hP : P length) {e : Element} (he : d.get? id = some e)
    (hnone : e.startTagEnd = none) (schema : Schema) {d' : Draft}
    (hd' : d' = resolveAlternation schema
      (d.adjust id fun e => { e with startTagEnd := some length }) id) :
    Laid P length d'.shapes d'.elements.size stack length ∧
      ∀ {j}, d'.OpenTag j → j ≠ id ∧ d.OpenTag j := by
  have hsame := same_resolveAlternation schema
    (d.adjust id fun e => { e with startTagEnd := some length }) id
  have hshapes : d'.shapes =
      Function.update d.shapes id (some { e.shape with startTagEnd := some length }) := by
    rw [hd', hsame.shapes]
    exact shapes_adjust he _
  have hsize : d'.elements.size = d.elements.size := by rw [hd', hsame.size, size_adjust]
  rw [hshapes, hsize]
  refine ⟨h.closeStartTag (shapes_eq he) hnone hP, fun {j} hj => ?_⟩
  obtain ⟨s, hs, hopen⟩ := hj
  rw [hshapes] at hs
  -- Other start tags that are open were open before.
  by_cases heq : j = id
  · rw [heq, Function.update_self] at hs
    cases hs
    exact absurd hopen (Option.some_ne_none length)
  · rw [Function.update_of_ne heq] at hs
    exact ⟨heq, s, hs, hopen⟩

/-- Ending an open element closes its start tag, and nothing else of the layout changes. -/
theorem laid_endOpen (h : Laid P length d.shapes d.elements.size stack length) {id : ElementId}
    (hid : id ∈ stack) (hP : P length) (schema : Schema) :
    Laid P length (d.endOpen schema length id).shapes (d.endOpen schema length id).elements.size
        stack length ∧
      ∀ {j}, (d.endOpen schema length id).OpenTag j → j ≠ id ∧ d.OpenTag j := by
  -- First the start tag.
  obtain ⟨d', hd', hlaid, hopen⟩ : ∃ d', (if (d.get? id).any (·.startTagEnd.isNone) then
        resolveAlternation schema (d.adjust id fun e => { e with startTagEnd := some length }) id
      else d) = d' ∧ Laid P length d'.shapes d'.elements.size stack length ∧
      ∀ {j}, d'.OpenTag j → j ≠ id ∧ d.OpenTag j := by
    split
    next hany =>
      obtain ⟨e, he, hnone⟩ := Option.any_eq_true _ _ |>.1 hany
      exact ⟨_, rfl, laid_closeAtEnd h hP he (Option.isNone_iff_eq_none.1 hnone) schema rfl⟩
    next hany =>
      refine ⟨d, rfl, h, fun {j} hj => ⟨?_, hj⟩⟩
      rintro rfl
      obtain ⟨s, hs, hnone⟩ := hj
      obtain ⟨e, he, rfl⟩ := exists_get? hs
      exact hany (Option.any_eq_true _ _ |>.2 ⟨e, he, Option.isNone_iff_eq_none.2 hnone⟩)
  unfold endOpen
  rw [hd']
  dsimp only
  split
  next => exact ⟨hlaid, hopen⟩
  next e he =>
    -- The end of an open element is that of the text already.
    have hs := shapes_eq he
    obtain ⟨hstop, -⟩ := hlaid.opened hs hid
    have hshape : Element.shape { e with stop := length, closed := false } = e.shape := by
      unfold Element.shape
      dsimp only
      rw [← hstop]
      rfl
    have hshapes : ∀ cause span, ((d'.report cause span).adjust id fun e =>
        { e with stop := length, closed := false }).shapes = d'.shapes := by
      intro cause span
      have hreported : (d'.report cause span).get? id = some e := he
      rw [shapes_adjust hreported, hshape, ← hs]
      exact Function.update_eq_self id d'.shapes
    unfold OpenTag
    rw [hshapes, size_adjust]
    exact ⟨hlaid, hopen⟩

/-- Ending open elements closes their start tags. -/
theorem laid_foldl_endOpen (ids : List ElementId) (hP : P length) (schema : Schema)
    (h : Laid P length d.shapes d.elements.size stack length)
    (hids : ∀ id ∈ ids, id ∈ stack) :
    Laid P length (ids.foldl (endOpen schema length) d).shapes
        (ids.foldl (endOpen schema length) d).elements.size stack length ∧
      ∀ {j}, (ids.foldl (endOpen schema length) d).OpenTag j → j ∉ ids ∧ d.OpenTag j := by
  induction ids generalizing d with
  | nil => exact ⟨h, fun hj => ⟨List.not_mem_nil, hj⟩⟩
  | cons id ids ih =>
    obtain ⟨hlaid, hopen⟩ := laid_endOpen h (hids id List.mem_cons_self) hP schema
    obtain ⟨hlaid', hopen'⟩ := ih hlaid fun j hj => hids j (List.mem_cons_of_mem _ hj)
    refine ⟨hlaid', fun {j} hj => ?_⟩
    obtain ⟨hnot, hstep⟩ := hopen' hj
    obtain ⟨hne, hfirst⟩ := hopen hstep
    exact ⟨fun hmem => (List.mem_cons.1 hmem).elim hne hnot, hfirst⟩

/-- At the end of the text all elements are laid out, and all start tags are closed. -/
theorem Fits.finish (h : d.Fits P length mark stack) (hP : P length) (schema : Schema) :
    Laid P length (d.finish schema length).shapes (d.finish schema length).elements.size stack
        length ∧
      ∀ {j}, ¬ (d.finish schema length).OpenTag j := by
  obtain ⟨rest, rfl⟩ := List.head?_eq_some_iff.1 h.current
  have hchain := openChain_eq h.laid.stacked
  have hids : ∀ id ∈ d.openChain d.current, id ∈ d.current :: rest := by
    intro id hid
    rw [← hchain]
    exact List.mem_append_left _ hid
  obtain ⟨hlaid, hopen⟩ := laid_foldl_endOpen (d.openChain d.current) hP schema
    (h.laid.mono h.laid.mark_le (Nat.le_refl length)) hids
  refine ⟨hlaid, fun {j} hj => ?_⟩
  obtain ⟨hnot, s, hs, hnone⟩ := hopen hj
  -- Only the current element might have had an open start tag, and it is not the root then.
  obtain ⟨hhead, -⟩ := h.laid.unclosed hs hnone
  have hmem := List.mem_of_mem_head? hhead
  rw [← hchain, List.mem_append, List.mem_singleton] at hmem
  exact h.laid.ne_root_of_unclosed hs hnone (hmem.resolve_left hnot)

/-- In the beginning the root is laid out alone. -/
theorem fits_start (hzero : P 0) (hlength : P length) (rootType : Option TypeId) :
    (start length rootType).Fits P length 0 [.root] := by
  have hroot : (start length rootType).shapes .root =
      some ⟨0, length, some 0, none, false, none, []⟩ := rfl
  -- There is nothing else.
  have honly : ∀ {id s}, (start length rootType).shapes id = some s →
      id = .root ∧ s = ⟨0, length, some 0, none, false, none, []⟩ := by
    intro id s hs
    cases id with
    | zero => exact ⟨rfl, Option.some_inj.1 (hs.symm.trans hroot)⟩
    | succ id => exact absurd hs (Option.some_ne_none s).symm
  -- Every shape is that of the root, so each field is about this one.
  refine ⟨⟨⟨fun id => ?_, ⟨_, hroot, rfl⟩, fun hs hne => ?_, fun hf hc => ?_, fun hf => ?_⟩, .root,
    Nat.zero_le length, ⟨_, hroot, rfl, rfl, rfl⟩, fun hi hj hne => ?_, fun hs _ => ?_,
    fun hs hnot => ?_, fun hs hnone => ?_, fun _ hs hparent => ?_, fun hs _ hparent => ?_,
    fun hs => ?_⟩, rfl, fun ht => ?_⟩
  · cases id with
    | zero => exact ⟨fun _ => Nat.zero_lt_one, fun _ => Option.some_ne_none _⟩
    | succ id =>
      refine ⟨fun hne => absurd rfl hne, fun hlt => ?_⟩
      exact absurd (Nat.lt_of_succ_lt_succ hlt) (Nat.not_lt_zero id)
  · exact absurd (honly hs).1 hne
  · obtain ⟨-, rfl⟩ := honly hf
    exact absurd hc List.not_mem_nil
  · obtain ⟨-, rfl⟩ := honly hf
    exact List.Pairwise.nil
  · exact absurd (honly hi).1 hne
  · obtain ⟨rfl, rfl⟩ := honly hs
    exact ⟨rfl, rfl, fun hne => absurd rfl hne⟩
  · exact absurd (List.mem_singleton.2 (honly hs).1) hnot
  · obtain ⟨-, rfl⟩ := honly hs
    exact absurd hnone (Option.some_ne_none 0)
  · obtain ⟨-, rfl⟩ := honly hs
    exact absurd hparent.symm (Option.some_ne_none _)
  · obtain ⟨-, rfl⟩ := honly hs
    exact absurd hparent.symm (Option.some_ne_none _)
  · obtain ⟨-, rfl⟩ := honly hs
    refine ⟨hzero, hlength, fun ht => ?_, fun he => ?_⟩
    · cases ht
      exact hzero
    · exact absurd he.symm (Option.some_ne_none _)
  · exact absurd ht.symm (Option.some_ne_none _)

/-- In the beginning the draft is in step with the scanner. -/
theorem inStep_start (rootType : Option TypeId) (text : String) :
    InStep text.toList (Scanner.ofText text) (start (Text.byteLength text.toList) rootType) where
  within := Scanner.within_ofText text
  fits := ⟨_, fits_start (Text.isBoundary_zero text.toList)
    (Text.isBoundary_byteLength text.toList) rootType⟩
  endTag hstate := Scanner.State.noConfusion hstate

/-- The elements of a text are laid out, and all start tags are closed. -/
theorem laid_ofText (schema : Schema) (rootType : Option TypeId) (text : String) :
    ∃ stack, Laid (Text.IsBoundary text.toList) (Text.byteLength text.toList)
        (ofText schema rootType text).shapes (ofText schema rootType text).elements.size stack
        (Text.byteLength text.toList) ∧
      ∀ {j}, ¬ (ofText schema rootType text).OpenTag j := by
  obtain ⟨s, hstep⟩ := Scanner.run_induction (fun h => h.take schema) (inStep_start rootType text)
  obtain ⟨stack, hfits⟩ := hstep.fits
  exact ⟨stack, hfits.finish (Text.isBoundary_byteLength text.toList) schema⟩

end LayoutMarkup.Draft
