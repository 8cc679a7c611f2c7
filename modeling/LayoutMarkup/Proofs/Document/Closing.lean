import LayoutMarkup.Proofs.Document.Checking
import LayoutMarkup.Proofs.Document.Ending

/-!
# Closing

What becomes of the elements of a text. The account of the elements that are not closed is kept by
every token (`Draft.Tallied.step`). It takes three facts about the characters of the tokens: the
name of a start tag stands right behind `<`, the name of an end tag right behind `</`, and the token
that closes an end tag is `>`. At the end of the text the elements that are still open are left, one
by one.

So in every document that was read each element is closed, by `/>` or by an end tag that the text
has, or it is left open and there is one remark on it (`Document.ends_parse`).
-/

namespace LayoutMarkup

/-! ## Characters of tokens -/

namespace Scanner

/-- A token is what its kind reads. -/
theorem reads_advance (offset : Nat) (cs : List Char) (state : State)
    (pending : Option Diagnostic) :
    (advance offset cs state pending).token.kind.Reads
      (advance offset cs state pending).token.text.toList
      (advance offset cs state pending).after.rest := by
  fun_induction advance offset cs state pending with
  | case1 state pending kind lexeme rest next cause hm span =>
    have hreads := state.move_reads cs
    rw [hm] at hreads
    dsimp only
    rw [String.toList_ofList]
    exact hreads
  | case2 state pending next cause hm ih => exact ih

/-- The next token is what its kind reads. -/
theorem reads_scan (s : Scanner) :
    s.scan.token.kind.Reads s.scan.token.text.toList s.scan.after.rest :=
  reads_advance s.offset s.rest s.state none

/-- The characters of a token are those in front of the rest. -/
theorem rest_scan (s : Scanner) : s.rest = s.scan.token.text.toList ++ s.scan.after.rest := by
  obtain ⟨lexeme, hrest, htext, -⟩ := s.scan_spec.lexeme
  rw [htext, String.toList_ofList]
  exact hrest

/-- The scanner goes on behind the characters of the token. -/
theorem offset_scan (s : Scanner) :
    s.scan.after.offset = s.offset + Text.byteLength s.scan.token.text.toList := by
  obtain ⟨lexeme, -, htext, hspan, -⟩ := s.scan_spec.lexeme
  rw [s.scan_spec.offset, hspan, htext, String.toList_ofList]

/-- At the end of the text nothing is taken. -/
theorem scan_of_nil {s : Scanner} (h : s.rest = []) :
    s.scan.after.offset = s.offset ∧ s.scan.after.rest = [] := by
  have hrest := s.rest_scan
  rw [h] at hrest
  obtain ⟨htext, hafter⟩ := List.append_eq_nil_iff.1 hrest.symm
  refine ⟨?_, hafter⟩
  rw [s.offset_scan, htext]
  rfl

/-- The name of a start tag comes right behind `<`. -/
theorem state_eq_tagOpened {s : Scanner} (h : s.scan.token.kind = .tagName) :
    s.state = .tagOpened := by
  rcases s.scan_spec.outcome with ⟨-, hkind, -⟩ | ⟨m, hm, hmem⟩
  · exact TokenKind.noConfusion (hkind.symm.trans h)
  · rw [h] at hmem
    exact State.eq_tagOpened_of_tagName hm hmem

/-- The name of an end tag comes right behind `</`. -/
theorem state_eq_endTagOpened {s : Scanner} (h : s.scan.token.kind = .endTagName) :
    s.state = .endTagOpened := by
  rcases s.scan_spec.outcome with ⟨-, hkind, -⟩ | ⟨m, hm, hmem⟩
  · exact TokenKind.noConfusion (hkind.symm.trans h)
  · rw [h] at hmem
    exact State.eq_endTagOpened_of_endTagName hm hmem

/-- An end tag is closed behind a `>`. -/
theorem Within.bracket {text : List Char} {s : Scanner} (h : s.Within text)
    (hkind : s.scan.token.kind = .endTagClose) :
    Text.BracketBefore text s.scan.token.span.stop := by
  obtain ⟨front, htext, hoffset⟩ := h
  have hreads := s.reads_scan
  have hrest := s.rest_scan
  rw [hkind] at hreads
  rw [hreads] at hrest
  have hsplit := Text.splitBytes?_append (front ++ ['>']) s.scan.after.rest
  rw [List.append_assoc, ← hrest, ← htext, Text.byteLength_append, ← hoffset] at hsplit
  refine ⟨front, s.scan.after.rest, ?_⟩
  rw [s.span_scan, s.offset_scan, hreads]
  exact hsplit

end Scanner

namespace Draft

variable {text : List Char} {left : List ElementId} {d d' : Draft} {id : ElementId} {e : Element}
  {P : Nat → Prop} {length mark : Nat} {stack : List ElementId}

/-! ## Tokens -/

/-- The elements that are not closed are accounted for, and the text has the end tag that waits for
its `>`. -/
structure Tallied (text : List Char) (d : Draft) : Prop where
  /-- The account. -/
  accounted : ∃ left, d.Accounted text left (d.openChain d.current)
  /-- The end tag that waits for its `>`. -/
  awaited : ∀ t ∈ d.endTagTarget, ∃ e, d.get? t = some e ∧ e.EndTagged text

/-- Changes that no end depends on keep the account. -/
theorem Tallied.same (h : d.Tallied text) (hsame : d.SameEnds d') : d'.Tallied text := by
  obtain ⟨⟨left, haccount⟩, hawaited⟩ := h
  refine ⟨⟨left, ?_⟩, fun t ht => ?_⟩
  · rw [hsame.openChain]
    exact haccount.same hsame
  · rw [hsame.endTagTarget] at ht
    obtain ⟨e, he, htagged⟩ := hawaited t ht
    obtain ⟨e', he', hends⟩ := hsame.exists_get? he
    have hview : e'.ends.EndTagged text := by
      rw [hends]
      exact htagged
    exact ⟨e', he', hview⟩

/-- Nothing is waited for any more. -/
theorem Tallied.forget (h : d.Tallied text) (pending : Option String) :
    Tallied text { d with endTagTarget := none, pending } := by
  obtain ⟨⟨left, haccount⟩, -⟩ := h
  have hchain : openChain { d with endTagTarget := none, pending } d.current =
      d.openChain d.current := openChain_congr fun _ _ => rfl
  refine ⟨⟨left, ?_⟩, fun _ ht => nomatch ht⟩
  rw [hchain]
  exact haccount.congr rfl rfl rfl

/-- A `<` begins an element. -/
theorem Tallied.openElement (h : d.Tallied text) (hfits : d.Fits P length mark stack)
    (schema : Schema) (span : Span) : (d.openElement schema length span).Tallied text := by
  -- The start tag of the element around it is closed first, which ends nothing.
  have hsame := sameEnds_endStartTag schema { d with endTagTarget := none, pending := none }
    span.start
  have htallied := (h.forget none).same hsame
  obtain ⟨e, he⟩ := hfits.exists_current
  have hcurrent' : get? { d with endTagTarget := none, pending := none } d.current = some e := he
  obtain ⟨e', he', -⟩ := hsame.exists_get? hcurrent'
  unfold Draft.openElement
  dsimp only
  generalize ({ d with endTagTarget := none, pending := none } : Draft).endStartTag schema
    span.start = d' at hsame htallied he'
  have hlt : d'.current < d'.elements.size := by
    rw [hsame.current]
    exact (Array.getElem?_eq_some_iff.1 he').1
  obtain ⟨left, haccount⟩ := htallied.accounted
  obtain ⟨helements, -, htarget⟩ := d'.noteTopLevel_keeps span
  have hcurrent : ((d'.noteTopLevel span).addChild length span.start).current =
      d'.elements.size := congrArg Array.size helements
  refine ⟨⟨left, ?_⟩, fun t ht => ?_⟩
  · rw [hcurrent, openChain_begin hlt]
    exact haccount.begin span length span.start
  · have hnone : ((d'.noteTopLevel span).addChild length span.start).endTagTarget = none :=
      htarget.trans hsame.endTagTarget
    rw [hnone] at ht
    exact nomatch ht

/-- The element that has just begun gets its tag. -/
theorem Tallied.nameElement (h : d.Tallied text) (htarget : d.endTagTarget = none)
    (hfits : d.Fits P length mark stack) (schema : Schema) {token : Token}
    (hbehind : ∀ e, d.get? d.current = some e → token.span.start = e.start + 1)
    (hlt : token.span.start < token.span.stop) : (d.nameElement schema token).Tallied text := by
  by_cases hroot : d.current = .root
  · have hsame : d.nameElement schema token = d := if_pos hroot
    rw [hsame]
    exact h
  · obtain ⟨left, haccount⟩ := h.accounted
    -- The element is open, and its mark goes from its `<` to the end of its name.
    have hmem : d.current ∈ d.openChain d.current := by
      rw [hfits.openChain_current hroot]
      exact List.mem_cons_self
    have hnamed := haccount.amend hmem
      (f := fun e => { e with tag := some token.text, tagSpan := some token.span })
      (fun _ hopen => hopen) (fun e he _ span hspan => by
        obtain rfl := Option.some_inj.1 hspan
        exact ⟨hbehind e he, hlt⟩)
    have hchain : (d.adjust d.current fun e =>
        { e with tag := some token.text, tagSpan := some token.span }).openChain d.current =
        d.openChain d.current := by
      refine openChain_congr fun j _ => d.parentOf_adjust d.current ?_ j
      exact fun _ => rfl
    refine Tallied.same ⟨⟨left, ?_⟩, fun t ht => ?_⟩ (sameEnds_nameElement schema d token hroot)
    · exact hchain ▸ hnamed
    · exact nomatch htarget.symm.trans ht

/-- The current element is closed, by `/>` or by the end tag that the text has. -/
theorem Tallied.close (h : d.Tallied text) (htarget : d.endTagTarget = none)
    (hfits : d.Fits P length mark stack) (hroot : d.current ≠ .root) {offset : Nat}
    {selfClosed : Bool} (hended : selfClosed = false → ∀ e, d.get? d.current = some e →
      e.EndTagged text ∧ Text.BracketBefore text offset) :
    (d.close d.current offset selfClosed).Tallied text := by
  obtain ⟨left, haccount⟩ := h.accounted
  obtain ⟨e, he⟩ := hfits.exists_current
  rw [hfits.openChain_current hroot] at haccount
  have hclosed := haccount.close he
    (f := fun e => { e with stop := offset, closed := true, selfClosed := selfClosed }) rfl
    (fun hmarked => hmarked) fun hself => ⟨(hended hself e he).1, (hended hself e he).2⟩
  have hchain : (d.close d.current offset selfClosed).openChain (d.parentOf d.current) =
      d.openChain (d.parentOf d.current) := by
    refine openChain_congr fun j _ => d.parentOf_adjust d.current ?_ j
    exact fun _ => rfl
  refine ⟨⟨left, ?_⟩, fun t ht => nomatch htarget.symm.trans ht⟩
  exact hchain.symm ▸ hclosed.congr rfl rfl rfl

/-- The first open element waits for the `>` of the end tag that was read. -/
theorem Accounted.expect (h : d.Accounted text left (d.openChain id)) (hroot : id ≠ .root)
    (he : d.get? id = some e) {tag : String} (htag : e.tag = some tag)
    (hread : Text.EndTagAt text d.endTagOpen tag) :
    (d.expect id).Tallied text := by
  have hmem : id ∈ d.openChain id := by
    rw [openChain, if_neg hroot]
    split <;> exact List.mem_cons_self
  have hamended := h.amend hmem (f := fun e => { e with endTagStart := some d.endTagOpen })
    (fun _ hopen => hopen) fun _ _ hmarked => hmarked
  have hchain : (d.expect id).openChain id = d.openChain id := by
    refine openChain_congr fun j _ => d.parentOf_adjust id ?_ j
    exact fun _ => rfl
  refine ⟨⟨left, ?_⟩, fun t ht => ?_⟩
  · exact hchain.symm ▸ hamended.congr rfl rfl rfl
  · obtain rfl := Option.some_inj.1 ht
    exact ⟨_, get?_adjust_self he _, tag, d.endTagOpen, htag, rfl, hread⟩

/-- The name of an end tag is that of the current element, or of its parent for whose sake the
current element is left, or it makes no difference. -/
theorem Tallied.matchEndTag (h : d.Tallied text) (hfits : d.Fits P length mark stack)
    {token : Token} (hread : Text.EndTagAt text d.endTagOpen token.text) :
    (d.matchEndTag token).Tallied text := by
  obtain ⟨left, haccount⟩ := h.accounted
  refine matchEndTag_cases d token h
    (fun e hroot he htag => haccount.expect hroot he htag hread)
    (fun e parent hroot he hparent hne hmatch => ?_) fun e _ =>
      h.same (d.sameEnds_report rfl (fun heq => Code.noConfusion heq) token.span)
  obtain ⟨f, hf, htag⟩ := (Option.any_eq_true _ _).1 hmatch
  have hparentOf : d.parentOf d.current = parent := by
    unfold parentOf
    rw [he, Option.bind_some, hparent]
    rfl
  have hother : parent ≠ d.current :=
    Nat.ne_of_lt (hfits.laid.lt_of_parent (shapes_eq he) hparent).1
  rw [hfits.openChain_current hroot, hparentOf] at haccount
  -- The current element is left without an end tag, for the sake of its parent.
  have hcause : Cause.missingEndTag e.tagText ∈ e.lapses := List.mem_cons_self
  have hleft := haccount.leave he hcause d.endTagOpen
  have hchain : ((d.report (.missingEndTag e.tagText) e.markSpan).adjust d.current
      fun e => { e with stop := d.endTagOpen, closed := false }).openChain parent =
      d.openChain parent := by
    refine openChain_congr fun j _ => d.parentOf_adjust d.current ?_ j
    exact fun _ => rfl
  rw [← hchain] at hleft
  exact hleft.expect hne ((get?_adjust_of_ne hother _).trans hf) (beq_iff_eq.1 htag) hread

/-- A token keeps the account. The tag of an element stands right behind its `<`, the name of an end
tag behind the latest `</`, and what closes an end tag is `>`. -/
theorem Tallied.step (h : d.Tallied text) (hfits : d.Fits P length mark stack) {token : Token}
    (hnext : Next P length mark token)
    (htag : token.kind = .tagName → d.endTagTarget = none ∧
      ∀ e, d.get? d.current = some e → token.span.start = e.start + 1)
    (hname : token.kind = .endTagName → Text.EndTagAt text d.endTagOpen token.text)
    (hbracket : token.kind = .endTagClose → Text.BracketBefore text token.span.stop)
    (schema : Schema) : (d.step schema length token).Tallied text := by
  unfold Draft.step
  cases hkind : token.kind with
  | tagOpen => exact h.openElement hfits schema token.span
  | tagName =>
    obtain ⟨htarget, hbehind⟩ := htag hkind
    have hlt := hnext.lt (by rw [hkind]; decide)
    exact h.nameElement htarget hfits schema hbehind (hnext.start.symm ▸ hlt)
  | attributeName => exact h.same (d.sameEnds_addAttribute token)
  | attributeValue => exact h.same (d.sameEnds_setValue token)
  | tagClose => exact h.same (sameEnds_endStartTag schema d token.span.stop)
  | tagSelfClose =>
    dsimp only
    split
    next hin =>
      -- A `/>` needs no end tag, so nothing is to be shown for one.
      have hsame := sameEnds_closeStartTag schema d token.span.stop
      have hfits' := hfits.closeStartTag hin hnext.le hnext.stop_le hnext.stop schema
      have hroot := ((inStartTag_iff d).1 hin).1
      rw [← hsame.current]
      exact (h.same hsame).close (hsame.endTagTarget.trans (hfits.endTagTarget_eq_none hin)) hfits'
        (hsame.current.symm ▸ hroot) fun hself => Bool.noConfusion hself
    next => exact h
  | endTagOpen =>
    have hclosed := (h.forget d.pending).same
      (sameEnds_endStartTag schema { d with endTagTarget := none } token.span.start)
    exact hclosed.same ⟨fun _ => rfl, rfl, rfl, rfl, rfl, rfl⟩
  | endTagName => exact h.matchEndTag hfits (hname hkind)
  | endTagClose =>
    dsimp only
    split
    next target htarget =>
      -- The `>` closes the element whose end tag was named.
      obtain ⟨rfl, hroot, -⟩ := hfits.target htarget
      obtain ⟨e, he, htagged⟩ := h.awaited d.current htarget
      refine (h.forget d.pending).close rfl (hfits.forget d.pending) hroot fun _ e' he' => ?_
      obtain rfl := Option.some_inj.1 (he.symm.trans he')
      exact ⟨htagged, hbracket hkind⟩
    next => exact h
  | _ => exact h

/-- What the scanner finds is not about the ends of elements. -/
theorem sameEnds_found (d : Draft) {found : Option Diagnostic} (h : Scanner.Lexical found) :
    d.SameEnds { d with log := found.elim d.log d.log.add } := by
  cases found with
  | none => exact .refl d
  | some x =>
    obtain ⟨code, hcode, hlexical⟩ := h x rfl
    refine d.sameEnds_add ?_ ?_
    · rw [hcode, Option.any_some]
      cases code <;> first | rfl | exact Bool.noConfusion hlexical
    · rw [hcode]
      rintro ⟨⟩
      exact Bool.noConfusion hlexical

/-- After the tokens so far the elements are accounted for. Right behind `<` the current element has
just begun there, and right behind `</` the text reads that at the offset the draft remembers. -/
structure TalliedInStep (text : List Char) (s : Scanner) (d : Draft) : Prop
    extends InStep text s d, Tallied text d where
  /-- The element behind `<`. -/
  begun : s.state = .tagOpened → d.endTagTarget = none ∧
    ∀ e, d.get? d.current = some e → s.offset = e.start + 1
  /-- The text behind `</`. -/
  opened : s.state = .endTagOpened →
    ∃ front, text = front ++ '<' :: '/' :: s.rest ∧ Text.byteLength front = d.endTagOpen

/-- A `<` begins an element at its offset, and nothing is waited for. -/
theorem openElement_begun (length : Nat) (schema : Schema) (d : Draft) (span : Span) :
    (d.openElement schema length span).endTagTarget = none ∧
      ∀ e, (d.openElement schema length span).get? (d.openElement schema length span).current =
        some e → e.start = span.start := by
  unfold Draft.openElement
  dsimp only
  have hforgot := endTagTarget_endStartTag { d with endTagTarget := none, pending := none } schema
    span.start
  generalize ({ d with endTagTarget := none, pending := none } : Draft).endStartTag schema
    span.start = d' at hforgot
  obtain ⟨-, -, htarget⟩ := d'.noteTopLevel_keeps span
  have hnew := (d'.noteTopLevel span).get?_addChild length span.start
    (d'.noteTopLevel span).elements.size
  rw [if_pos rfl] at hnew
  refine ⟨htarget.trans hforgot, fun e he => ?_⟩
  obtain rfl := Option.some_inj.1 (hnew.symm.trans he)
  rfl

/-- Behind `<` an element has begun there. -/
theorem TalliedInStep.begun_take {s : Scanner} (h : TalliedInStep text s d) (schema : Schema)
    (hstate : s.scan.after.state = .tagOpened) :
    (d.take schema length s.scan).endTagTarget = none ∧
      ∀ e, (d.take schema length s.scan).get? (d.take schema length s.scan).current = some e →
        s.scan.after.offset = e.start + 1 := by
  unfold Draft.take Draft.step
  rcases s.scan_spec.outcome with ⟨hnil, hkind, hstay⟩ | ⟨m, -, hmem⟩
  · -- At the end of the text nothing happens.
    rw [hkind, (Scanner.scan_of_nil hnil).1]
    exact h.begun (hstay ▸ hstate)
  · rw [hstate] at hmem
    have hkind := Scanner.State.eq_tagOpen_of_tagOpened hmem
    have hreads := s.reads_scan
    rw [hkind] at hreads
    obtain ⟨htarget, hbegun⟩ := openElement_begun length schema
      { d with log := s.scan.diagnostic.elim d.log d.log.add } s.scan.token.span
    rw [hkind]
    refine ⟨htarget, fun e he => ?_⟩
    rw [hbegun e he, s.span_scan, s.offset_scan, hreads]
    rfl

/-- Behind `</` the draft remembers where that stands. -/
theorem TalliedInStep.opened_take {s : Scanner} (h : TalliedInStep text s d) (schema : Schema)
    (hstate : s.scan.after.state = .endTagOpened) :
    ∃ front, text = front ++ '<' :: '/' :: s.scan.after.rest ∧
      Text.byteLength front = (d.take schema length s.scan).endTagOpen := by
  unfold Draft.take Draft.step
  rcases s.scan_spec.outcome with ⟨hnil, hkind, hstay⟩ | ⟨m, -, hmem⟩
  · rw [hkind, (Scanner.scan_of_nil hnil).2, ← hnil]
    exact h.opened (hstay ▸ hstate)
  · rw [hstate] at hmem
    have hkind := Scanner.State.eq_endTagOpen_of_endTagOpened hmem
    have hreads := s.reads_scan
    have hrest := s.rest_scan
    rw [hkind] at hreads
    rw [hreads] at hrest
    obtain ⟨front, htext, hoffset⟩ := h.within
    rw [hkind, s.span_scan]
    exact ⟨front, htext.trans (congrArg (front ++ ·) hrest), hoffset.symm⟩

/-- The name of an end tag is what the text reads behind the latest `</`. -/
theorem TalliedInStep.endTagAt {s : Scanner} (h : TalliedInStep text s d)
    (hkind : s.scan.token.kind = .endTagName) :
    Text.EndTagAt text d.endTagOpen s.scan.token.text := by
  obtain ⟨front, htext, hfront⟩ := h.opened (Scanner.state_eq_endTagOpened hkind)
  have hreads := s.reads_scan
  rw [hkind] at hreads
  have hsplit := Text.splitBytes?_append front ('<' :: '/' :: s.rest)
  rw [hfront, ← htext, s.rest_scan] at hsplit
  exact ⟨front, s.scan.after.rest, hsplit, hreads⟩

/-- Every step of the scanner keeps the account. -/
theorem TalliedInStep.take {s : Scanner} (h : TalliedInStep text s d) (schema : Schema) :
    TalliedInStep text s.scan.after (d.take schema (Text.byteLength text) s.scan) := by
  obtain ⟨stack, hfits⟩ := h.fits
  have hlog := d.sameEnds_found s.lexical_scan
  have hsame : d.Same { d with log := s.scan.diagnostic.elim d.log d.log.add } :=
    ⟨rfl, rfl, rfl, rfl, rfl⟩
  have hbegun : s.scan.token.kind = .tagName → d.endTagTarget = none ∧
      ∀ e, d.get? d.current = some e → s.scan.token.span.start = e.start + 1 := by
    intro hkind
    rw [s.span_scan]
    exact h.begun (Scanner.state_eq_tagOpened hkind)
  have hstep := (h.toTallied.same hlog).step (hfits.same hsame) (next_scan h.within) hbegun
    h.endTagAt h.within.bracket schema
  exact { h.toInStep.take schema, hstep with
    begun := h.begun_take schema, opened := h.opened_take schema }

/-! ## The end of the text -/

/-- At the end of the text an open element is left. -/
theorem Accounted.endOpen {opens : List ElementId} (h : d.Accounted text left (id :: opens))
    (schema : Schema) (length : Nat) :
    (d.endOpen schema length id).Accounted text (left ++ [id]) opens := by
  -- Its start tag is closed first.
  obtain ⟨d', hd', haccount⟩ : ∃ d', (if (d.get? id).any (·.startTagEnd.isNone) then
        resolveAlternation schema (d.adjust id fun e => { e with startTagEnd := some length }) id
      else d) = d' ∧ d'.Accounted text left (id :: opens) := by
    split
    next =>
      have hclosed := d.sameEnds_adjust id
        (f := fun e => { e with startTagEnd := some length }) fun _ => rfl
      exact ⟨_, rfl, h.same (hclosed.trans (sameEnds_resolveAlternation ..))⟩
    next => exact ⟨d, rfl, h⟩
  obtain ⟨-, e, he, -⟩ := haccount.unclosed List.mem_cons_self
  have hcause : (if e.endTagStart.isSome then Cause.unfinishedEndTag e.tagText
      else .expectedEndTag e.tagText) ∈ e.lapses := by
    unfold Element.lapses
    split <;> simp
  unfold Draft.endOpen
  rw [hd']
  dsimp only
  rw [he]
  exact haccount.leave he hcause length

/-- At the end of the text all open elements are left. -/
theorem Accounted.foldl_endOpen {opens : List ElementId} (h : d.Accounted text left opens)
    (schema : Schema) (length : Nat) :
    (opens.foldl (Draft.endOpen schema length) d).Accounted text (left ++ opens) [] := by
  induction opens generalizing d left with
  | nil =>
    rw [List.append_nil]
    exact h
  | cons id opens ih =>
    have hrest := ih (h.endOpen schema length)
    rw [List.append_assoc] at hrest
    exact hrest

/-- In the beginning there is nothing to account for. -/
theorem accounted_start (text : List Char) (length : Nat) (rootType : Option TypeId) :
    (start length rootType).Accounted text [] [] := by
  have honly : ∀ {id e}, (start length rootType).get? id = some e →
      id = .root ∧ e.closed = true ∧ e.tagSpan = none := by
    intro id e he
    cases id with
    | zero =>
      obtain rfl := Option.some_inj.1 he
      exact ⟨rfl, rfl, rfl⟩
    | succ id => exact nomatch he
  refine ⟨.nil, List.nodup_nil, ⟨fun hmem => (nomatch hmem), fun hunclosed => ?_⟩,
    fun he hroot => ?_, fun he span hspan => ?_, _, rfl, ?_, rfl⟩
  · obtain ⟨hroot, e, he, -⟩ := hunclosed
    exact absurd (honly he).1 hroot
  · exact absurd (honly he).1 hroot
  · rw [(honly he).2.2] at hspan
    exact nomatch hspan
  · exact iff_of_false Bool.false_ne_true (Nat.not_succ_le_zero 1)

/-- In the beginning the account is in step with the scanner. -/
theorem talliedInStep_start (rootType : Option TypeId) (text : String) :
    TalliedInStep text.toList (Scanner.ofText text)
      (start (Text.byteLength text.toList) rootType) where
  toInStep := inStep_start rootType text
  accounted := by
    have hchain : (start (Text.byteLength text.toList) rootType).openChain .root = [] := by
      rw [openChain, if_pos rfl]
    exact ⟨[], hchain.symm ▸ accounted_start text.toList _ rootType⟩
  awaited _ ht := nomatch ht
  begun hstate := Scanner.State.noConfusion hstate
  opened hstate := Scanner.State.noConfusion hstate

/-- The elements of a text are accounted for, and none is open any more. -/
theorem exists_accounted_ofText (schema : Schema) (rootType : Option TypeId) (text : String) :
    ∃ left, (ofText schema rootType text).Accounted text.toList left [] := by
  obtain ⟨s, hstep⟩ := Scanner.run_induction (fun h => h.take schema)
    (talliedInStep_start rootType text)
  obtain ⟨left, haccount⟩ := hstep.accounted
  exact ⟨_, (haccount.foldl_endOpen schema _).congr rfl rfl rfl⟩

end Draft

/-! ## Documents that were read -/

/-- Elements that begin at different offsets have different marks. -/
theorem Element.Marked.start_eq {e f : Element} (he : e.Marked) (hf : f.Marked)
    (h : e.markSpan = f.markSpan) : e.start = f.start := by
  unfold markSpan at h
  cases hspan : e.tagSpan with
  | none =>
    rw [hspan] at h
    cases hspan' : f.tagSpan with
    | none =>
      rw [hspan'] at h
      exact congrArg Span.start h
    | some span' =>
      -- A tag is not empty.
      rw [hspan'] at h
      have hlt := (hf span' hspan').2
      obtain rfl : Span.point e.start = span' := h
      exact absurd hlt (Nat.lt_irrefl e.start)
  | some span =>
    rw [hspan] at h
    obtain ⟨hstart, hlt⟩ := he span hspan
    cases hspan' : f.tagSpan with
    | none =>
      rw [hspan'] at h
      obtain rfl : span = Span.point f.start := h
      exact absurd hlt (Nat.lt_irrefl f.start)
    | some span' =>
      rw [hspan'] at h
      obtain rfl : span = span' := h
      exact Nat.succ.inj (hstart.symm.trans (hf span hspan').1)

namespace Document

/-- What becomes of the elements of a document. The root stands for the whole text and needs no
end. -/
structure Ends (doc : Document) : Prop where
  /-- The remarks on elements left open correspond one to one to the elements that are not closed.
  Each names the tag of its element and points at it, or at its beginning when there is no tag. -/
  unclosed : ∃ left : List ElementId, left.Nodup ∧
    (∀ id, id ∈ left ↔ id ≠ .root ∧ ∃ e, doc.get? id = some e ∧ e.closed = false) ∧
    List.Forall₂ (fun id x => ∃ e, doc.get? id = some e ∧ e.Blamed x) left
      (Diagnostic.unclosed doc.diagnostics)
  /-- No such remark points at an element that is closed. -/
  spared : ∀ {id e x}, doc.get? id = some e → id ≠ .root → e.closed = true →
    x ∈ Diagnostic.unclosed doc.diagnostics → x.span ≠ e.markSpan
  /-- An element that is closed, and not by `/>`, is closed by its end tag. -/
  ended : ∀ {id e}, doc.get? id = some e → id ≠ .root → e.closed = true → e.selfClosed = false →
    e.Ended doc.text.toList
  /-- A second top-level element is reported once, and only if there is one. -/
  topLevel : (Diagnostic.withCode .manyTopLevel doc.diagnostics).length =
    if 2 ≤ (doc.childrenOf .root).length then 1 else 0

/-- What is said about elements left open is said while the text is read. -/
theorem unclosed_parse (name text : String) (schema : Schema) (rootType : Option TypeId) :
    Diagnostic.unclosed (parse name text schema rootType).diagnostics =
      Diagnostic.unclosed (Draft.ofText schema rootType text).log.toList := by
  have hvalid : Diagnostic.unclosed (validateElements schema
      (Draft.ofText schema rootType text).elements) = [] := by
    refine List.filter_eq_nil_iff.2 fun x hx hcode => ?_
    obtain ⟨code, hsome, hunclosed⟩ := (Option.any_eq_true _ _).1 hcode
    -- What is said about attributes has other codes.
    have hother : ∀ code' : Code, code'.isUnclosed = false → code ≠ code' := by
      rintro code' hfalse rfl
      exact Bool.false_ne_true (hfalse.symm.trans hunclosed)
    have hnone := withCode_validateElements (hother _ rfl) (hother _ rfl) schema
      (Draft.ofText schema rootType text).elements
    exact List.filter_eq_nil_iff.1 hnone x hx (beq_iff_eq.2 hsome)
  unfold parse Diagnostic.unclosed
  rw [List.filter_append]
  exact (congrArg _ hvalid).trans (List.append_nil _)

/-- Elements other than the root are told apart by what a remark on them points at. -/
theorem Placed.eq_of_markSpan {doc : Document} (h : doc.Placed)
    (hmarked : ∀ {id e}, doc.get? id = some e → e.Marked) {i j : ElementId} {e f : Element}
    (he : doc.get? i = some e) (hf : doc.get? j = some f) (hi : i ≠ .root) (hj : j ≠ .root)
    (hmark : e.markSpan = f.markSpan) : i = j := by
  have hstart := (hmarked he).start_eq (hmarked hf) hmark
  rcases Nat.lt_trichotomy i j with hlt | heq | hlt
  · exact absurd hstart (Nat.ne_of_lt (h.starts he hf hi hlt))
  · exact heq
  · exact absurd hstart.symm (Nat.ne_of_lt (h.starts hf he hj hlt))

/-- For every text, schema and root type, each element of the document other than the root is closed
by `/>` or by its end tag, or there is one remark on it. -/
theorem ends_parse (name text : String) (schema : Schema) (rootType : Option TypeId) :
    (parse name text schema rootType).Ends := by
  obtain ⟨left, haccount⟩ := Draft.exists_accounted_ofText schema rootType text
  obtain ⟨stack, hlaid, hopen⟩ := Draft.laid_ofText schema rootType text
  -- At the end of the text no start tag is open, and the elements that are left are the unclosed
  -- ones.
  have hplaced : (parse name text schema rootType).Placed :=
    placed_of_laid hlaid fun he hnone => hopen ⟨_, Draft.shapes_eq he, hnone⟩
  have hunclosed := unclosed_parse name text schema rootType
  have hremarks := haccount.remarks
  rw [← hunclosed] at hremarks
  have hleft : ∀ id, id ∈ left ↔ (Draft.ofText schema rootType text).Unclosed id := by
    intro id
    rw [← haccount.mem_iff, List.append_nil]
  obtain ⟨r, hr, hmany, hlength⟩ := haccount.counts
  refine ⟨⟨left, (List.append_nil left) ▸ haccount.nodup, hleft, hremarks⟩,
    fun {id e x} he hid hclosed hx hspan => ?_, haccount.ended, ?_⟩
  · -- The remark is on an element that is not closed, and its mark is no other one's.
    rw [hunclosed] at hx
    obtain ⟨j, hj, f, hf, cause, -, rfl⟩ := haccount.exists_blames hx
    obtain ⟨hroot, f', hf', hnot⟩ := (hleft j).1 hj
    obtain rfl := Option.some_inj.1 (hf.symm.trans hf')
    obtain rfl := hplaced.eq_of_markSpan haccount.marked hf he hroot hid hspan
    obtain rfl := Option.some_inj.1 (hf.symm.trans he)
    exact Bool.false_ne_true (hnot.symm.trans hclosed)
  · have hchildren : (parse name text schema rootType).childrenOf .root = r.children :=
      Placed.childrenOf_eq hr
    rw [withCode_parse (fun h => Code.noConfusion h) (fun h => Code.noConfusion h), hlength,
      hchildren]
    split
    next htwo =>
      rw [hmany.2 htwo]
      rfl
    next htwo =>
      rw [Bool.eq_false_iff.2 (mt hmany.1 htwo)]
      rfl

/-- One element is left for the sake of its parent, the end tag of another breaks off, and a third
has none. -/
example : (Diagnostic.unclosed (parse "Main" "<a><b></a><c><d></d" {} none).diagnostics).map
    (fun x => (x.code.map Code.label, x.span.start)) =
      [(some "E101", 4), (some "E103", 14), (some "E102", 11)] := by
  decide +kernel

end Document

end LayoutMarkup
