import LayoutMarkup.Proofs.Document.Drafting
import LayoutMarkup.Proofs.Document.Typing

/-!
# Amending typings

What the changes of a draft do to the typings of its elements. Most of them leave the typings alone
(`Draft.SameTyping`): they are about places in the text, or about the attributes of a start tag that
is open. The tag of an element and the end of its start tag change one typing, and say what there is
to say about it (`Draft.Amends`). A new element adds one.

So the typings are right after each change (`IsTyped.nameElement`, `IsTyped.settle`,
`IsTyped.addChild`).
-/

namespace LayoutMarkup

/-- The diagnostics with a code. -/
def Diagnostic.withCode (code : Code) (found : List Diagnostic) : List Diagnostic :=
  found.filter (·.code == some code)

/-- A diagnostic with another code does not count. -/
theorem Diagnostic.withCode_add {code : Code} {x : Diagnostic} (h : x.code ≠ some code)
    (log : Log) : withCode code (log.add x).toList = withCode code log.toList := by
  unfold withCode Log.add Log.toList
  rw [Array.toList_push, List.filter_append, List.filter_singleton, beq_eq_false_iff_ne.2 h]
  exact List.append_nil _

/-- A diagnostic with the code is the last one. -/
theorem Diagnostic.withCode_add_self {code : Code} {x : Diagnostic} (h : x.code = some code)
    (log : Log) : withCode code (log.add x).toList = withCode code log.toList ++ [x] := by
  unfold withCode Log.add Log.toList
  rw [Array.toList_push, List.filter_append, List.filter_singleton, beq_iff_eq.2 h]
  rfl

/-! ## Drafts -/

namespace Draft

/-- The typings of the elements. -/
def typings (d : Draft) : List Typing :=
  d.elements.toList.map Element.typing

/-- What was said about tags. -/
def strays (d : Draft) : List Diagnostic :=
  Diagnostic.withCode .unknownElement d.log.toList

/-- What was said about `type` attributes. -/
def refusals (d : Draft) : List Diagnostic :=
  Diagnostic.withCode .unknownType d.log.toList

/-- The typings of the elements so far are right, and there is a remark wherever one is due. -/
def IsTyped (schema : Schema) (rootType : Option TypeId) (d : Draft) : Prop :=
  Typing.Grown schema rootType d.typings d.strays d.refusals

variable {schema : Schema} {rootType : Option TypeId} {d d' : Draft} {id : ElementId} {e : Element}

/-- The typings by number. -/
theorem getElem?_typings (d : Draft) (j : ElementId) :
    d.typings[j]? = (d.get? j).map Element.typing := by
  unfold typings get?
  rw [List.getElem?_map, Array.getElem?_toList]

/-- The typing of an element that is there. -/
theorem typings_eq (he : d.get? id = some e) : d.typings[id]? = some e.typing := by
  rw [getElem?_typings, he]
  rfl

/-- A change of an element that is there is seen in its typing. -/
theorem typings_adjust (he : d.get? id = some e) (f : Element → Element) :
    (d.adjust id f).typings = d.typings.set id (f e).typing := by
  have hlt := (List.getElem?_eq_some_iff.1 (typings_eq he)).1
  refine List.ext_getElem? fun j => ?_
  rw [getElem?_typings, get?_adjust, List.getElem?_set, getElem?_typings, if_pos hlt]
  split
  next hj =>
    subst hj
    rw [he]
    rfl
  next => rfl

/-! ## What leaves the typings -/

/-- Two drafts with the same typings and the same remarks on them. -/
structure SameTyping (d d' : Draft) : Prop where
  /-- The typings are the same. -/
  typings : d'.typings = d.typings
  /-- The same was said about tags. -/
  strays : d'.strays = d.strays
  /-- The same was said about `type` attributes. -/
  refusals : d'.refusals = d.refusals

/-- A draft has its own typings. -/
theorem SameTyping.refl (d : Draft) : d.SameTyping d :=
  ⟨rfl, rfl, rfl⟩

/-- Agreement goes on. -/
theorem SameTyping.trans {d'' : Draft} (h : d.SameTyping d') (h' : d'.SameTyping d'') :
    d.SameTyping d'' where
  typings := h'.typings.trans h.typings
  strays := h'.strays.trans h.strays
  refusals := h'.refusals.trans h.refusals

/-- The same typings are right. -/
theorem IsTyped.same (h : d.IsTyped schema rootType) (hsame : d.SameTyping d') :
    d'.IsTyped schema rootType := by
  unfold IsTyped
  rw [hsame.typings, hsame.strays, hsame.refusals]
  exact h

/-- A change that is not about the typing leaves it. -/
theorem sameTyping_adjust (d : Draft) (id : ElementId) {f : Element → Element}
    (hf : ∀ e, d.get? id = some e → (f e).typing = e.typing) :
    d.SameTyping (d.adjust id f) := by
  refine ⟨List.ext_getElem? fun j => ?_, rfl, rfl⟩
  rw [getElem?_typings, get?_adjust, getElem?_typings]
  split
  next hj =>
    subst hj
    cases he : d.get? id with
    | none => rfl
    | some e => exact congrArg some (hf e he)
  next => rfl

/-- A diagnostic with another code leaves the typings. -/
theorem sameTyping_add (d : Draft) {x : Diagnostic} (hstray : x.code ≠ some .unknownElement)
    (hrefusal : x.code ≠ some .unknownType) : d.SameTyping { d with log := d.log.add x } :=
  ⟨rfl, Diagnostic.withCode_add hstray d.log, Diagnostic.withCode_add hrefusal d.log⟩

/-- A report that is not about types leaves the typings. -/
theorem sameTyping_report (d : Draft) {cause : Cause} (hstray : cause.code ≠ .unknownElement)
    (hrefusal : cause.code ≠ .unknownType) (span : Span) : d.SameTyping (d.report cause span) :=
  d.sameTyping_add (mt Option.some_inj.1 hstray) (mt Option.some_inj.1 hrefusal)

/-- Reporting a second top-level element leaves the typings. -/
theorem sameTyping_noteTopLevel (d : Draft) (span : Span) :
    d.SameTyping (d.noteTopLevel span) := by
  unfold noteTopLevel
  split
  next =>
    have hreport : d.SameTyping (d.report .manyTopLevel span) :=
      d.sameTyping_report (fun h => Code.noConfusion h) (fun h => Code.noConfusion h) span
    exact ⟨hreport.typings, hreport.strays, hreport.refusals⟩
  next => exact .refl d

/-- Closing an element leaves the typings. -/
theorem sameTyping_close (d : Draft) (id : ElementId) (offset : Nat) (selfClosed : Bool) :
    d.SameTyping (d.close id offset selfClosed) := by
  have hadjust := d.sameTyping_adjust id (f := fun e =>
    { e with stop := offset, closed := true, selfClosed := selfClosed }) fun _ _ => rfl
  exact ⟨hadjust.typings, hadjust.strays, hadjust.refusals⟩

/-- The attributes of an open start tag are not settled yet. -/
theorem sameTyping_attributes (d : Draft) (he : d.get? id = some e) (hopen : e.startTagEnd = none)
    (f : OrderedMap String Attribute → OrderedMap String Attribute) :
    d.SameTyping (d.adjust id fun e => { e with attributes := f e.attributes }) := by
  refine d.sameTyping_adjust id fun e' he' => ?_
  obtain rfl := Option.some_inj.1 (he.symm.trans he')
  unfold Element.typing
  rw [hopen]
  rfl

/-- An attribute leaves the typings. -/
theorem sameTyping_addAttribute (d : Draft) (token : Token) :
    d.SameTyping (d.addAttribute token) := by
  have hpending : d.SameTyping { d with pending := none } := ⟨rfl, rfl, rfl⟩
  unfold addAttribute
  dsimp only
  split
  next => exact hpending
  next htag =>
    split
    next =>
      exact hpending.trans (sameTyping_report _ (fun h => Code.noConfusion h)
        (fun h => Code.noConfusion h) _)
    next =>
      obtain ⟨-, e, he, hnone⟩ := (inStartTag_iff { d with pending := none }).1
        (by simpa using htag)
      have hadded := sameTyping_attributes { d with pending := none } he hnone
        (·.insert (Text.lower token.text) ⟨token.text, token.span, none, none⟩)
      exact (hpending.trans hadded).trans ⟨rfl, rfl, rfl⟩

/-- A value that an open start tag waits for leaves the typings. -/
theorem sameTyping_setValue (hwaits : d.pending ≠ none → d.OpenTag d.current) (token : Token) :
    d.SameTyping (d.setValue token) := by
  unfold setValue
  split
  next => exact .refl d
  next key hkey =>
    obtain ⟨s, hs, hnone⟩ := hwaits (by rw [hkey]; exact Option.some_ne_none key)
    obtain ⟨e, he, rfl⟩ := exists_get? hs
    have hpending : d.SameTyping { d with pending := none } := ⟨rfl, rfl, rfl⟩
    exact hpending.trans (sameTyping_attributes { d with pending := none } he hnone
      (·.adjust key fun a =>
        { a with value := some (unquote token.text), valueSpan := some token.span }))

/-- The name of an end tag leaves the typings. -/
theorem sameTyping_matchEndTag (d : Draft) (token : Token) :
    d.SameTyping (d.matchEndTag token) := by
  -- The offset of an end tag is not part of the typing.
  have hexpect : ∀ (d : Draft) (id : ElementId), d.SameTyping (d.expect id) := by
    intro d id
    have hadjust := d.sameTyping_adjust id
      (f := fun e => { e with endTagStart := some d.endTagOpen }) fun _ _ => rfl
    exact ⟨hadjust.typings, hadjust.strays, hadjust.refusals⟩
  refine matchEndTag_cases d token (.refl d) (fun _ _ _ _ => hexpect d d.current)
    (fun e parent _ _ _ _ _ => ?_) fun e _ =>
      d.sameTyping_report (fun h => Code.noConfusion h) (fun h => Code.noConfusion h) _
  have hreport : d.SameTyping (d.report (.missingEndTag e.tagText) e.markSpan) :=
    d.sameTyping_report (fun h => Code.noConfusion h) (fun h => Code.noConfusion h) _
  have hleft := sameTyping_adjust (d.report (.missingEndTag e.tagText) e.markSpan)
    d.current (f := fun e => { e with stop := d.endTagOpen, closed := false }) fun _ _ => rfl
  exact (hreport.trans hleft).trans (hexpect _ parent)

/-! ## What changes the typings -/

/-- One draft comes from another by giving an element another typing and making remarks. -/
structure Amends (d : Draft) (id : ElementId) (x : Typing) (stray refusal : Option Diagnostic)
    (d' : Draft) : Prop where
  /-- The typing of the element is the new one. -/
  typings : d'.typings = d.typings.set id x
  /-- What there is to say about the tag is said. -/
  strays : d'.strays = d.strays ++ stray.toList
  /-- What there is to say about the `type` attribute is said. -/
  refusals : d'.refusals = d.refusals ++ refusal.toList

/-- A change of an element without a remark. -/
theorem amends_adjust (he : d.get? id = some e) {f : Element → Element} {x : Typing}
    (hx : (f e).typing = x) : d.Amends id x none none (d.adjust id f) :=
  ⟨hx ▸ typings_adjust he f, (List.append_nil _).symm, (List.append_nil _).symm⟩

/-- An element may keep its typing. -/
theorem amends_self (he : d.get? id = some e) {x : Typing} (hx : e.typing = x) :
    d.Amends id x none none d := by
  have hsame := (d.sameTyping_adjust id (f := fun e => e) fun _ _ => rfl).typings
  exact ⟨hsame.symm.trans (hx ▸ typings_adjust he _), (List.append_nil _).symm,
    (List.append_nil _).symm⟩

/-- One amendment after the other. -/
theorem Amends.trans {d'' : Draft} {x x' : Typing} {stray refusal : Option Diagnostic}
    (h : d.Amends id x none none d') (h' : d'.Amends id x' stray refusal d'') :
    d.Amends id x' stray refusal d'' where
  typings := by rw [h'.typings, h.typings, List.set_set]
  strays := by rw [h'.strays, h.strays, Option.toList_none, List.append_nil]
  refusals := by rw [h'.refusals, h.refusals, Option.toList_none, List.append_nil]

/-- A remark on the tag. -/
theorem Amends.reportStray {x : Typing} (h : d.Amends id x none none d') (tag scope : String)
    (span : Span) :
    d.Amends id x (some ((Cause.unknownElement tag scope).on span)) none
      (d'.report (.unknownElement tag scope) span) where
  typings := h.typings
  strays := by
    have hsaid := h.strays
    rw [Option.toList_none, List.append_nil] at hsaid
    exact hsaid ▸ Diagnostic.withCode_add_self rfl d'.log
  refusals := by
    have hcode : ((Cause.unknownElement tag scope).on span).code ≠ some .unknownType :=
      fun h => Code.noConfusion (Option.some_inj.1 h)
    exact (Diagnostic.withCode_add hcode d'.log).trans h.refusals

/-- A remark on the `type` attribute. -/
theorem Amends.reportRefusal {x : Typing} (h : d.Amends id x none none d')
    (value definition : String) (span : Span) :
    d.Amends id x none (some ((Cause.unknownType value definition).on span))
      (d'.report (.unknownType value definition) span) where
  typings := h.typings
  strays := by
    have hcode : ((Cause.unknownType value definition).on span).code ≠ some .unknownElement :=
      fun h => Code.noConfusion (Option.some_inj.1 h)
    exact (Diagnostic.withCode_add hcode d'.log).trans h.strays
  refusals := by
    have hsaid := h.refusals
    rw [Option.toList_none, List.append_nil] at hsaid
    exact hsaid ▸ Diagnostic.withCode_add_self rfl d'.log

/-- The type of the parent is that of the element with its number. -/
theorem scope?_typing (schema : Schema) (d : Draft) (e : Element) :
    e.typing.scope? schema d.typings =
      e.parent.bind fun p => ((d.get? p).bind (·.type)).bind schema.type? := by
  refine congrArg (e.parent.bind ·) (funext fun p => ?_)
  rw [getElem?_typings]
  cases d.get? p <;> rfl

/-- The typing with a tag is that of the element with the tag, the definition and its type. -/
theorem typing_named {ts : List Typing} {token : Token} {definition : Option DefinitionId}
    (h : (e.typing.scope? schema ts).bind (·.children.get? token.text) = definition) :
    Element.typing { e with
      tag := some token.text, tagSpan := some token.span, definition
      type := (definition.bind schema.definition?).map (·.type) } =
    e.typing.named schema ts token := by
  subst h
  rfl

/-- The tag of an element that had none amends its typing. -/
theorem amends_nameElement (he : d.get? d.current = some e) (hroot : d.current ≠ .root)
    (hdefinition : e.definition = none) (htype : e.type = none) (schema : Schema)
    (token : Token) :
    d.Amends d.current (e.typing.named schema d.typings token)
      ((e.typing.named schema d.typings token).stray? schema d.typings) none
      (d.nameElement schema token) := by
  have hstray : (e.typing.named schema d.typings token).stray? schema d.typings =
      (e.typing.scope? schema d.typings).bind (·.stray? token.text token.span) := rfl
  -- Where there is no entry for the tag, the element stays untyped.
  have huntyped : ((e.typing.scope? schema d.typings).bind (·.children.get? token.text)) = none →
      d.Amends d.current (e.typing.named schema d.typings token) none none
        (d.adjust d.current fun e =>
          { e with tag := some token.text, tagSpan := some token.span }) := by
    intro hnone
    refine amends_adjust he ?_
    rw [← typing_named hnone, hdefinition, htype]
    rfl
  unfold nameElement
  rw [if_neg hroot, he, Option.bind_some, ← scope?_typing, hstray]
  dsimp only
  cases hscope : e.typing.scope? schema d.typings with
  | none => exact huntyped (by rw [hscope]; rfl)
  | some scope =>
    rw [hscope, Option.bind_some] at huntyped
    dsimp only [Option.bind_some]
    unfold ComplexType.stray?
    cases hchild : scope.children.get? token.text with
    | some child =>
      -- The tag has an entry, which gives the definition and the type.
      have hfound : (e.typing.scope? schema d.typings).bind (·.children.get? token.text) =
          some child := by rw [hscope, Option.bind_some, hchild]
      rw [if_neg fun h => Bool.noConfusion h.1]
      exact (amends_adjust he rfl).trans
        (amends_adjust (get?_adjust_self he _) (typing_named hfound))
    | none =>
      dsimp only
      -- Without an entry it is reported, unless the scope takes any tag.
      cases scope.extraChildren with
      | true =>
        rw [if_neg fun h => Bool.noConfusion h.2, if_pos rfl]
        exact huntyped hchild
      | false =>
        rw [if_pos ⟨rfl, rfl⟩, if_neg Bool.false_ne_true]
        exact (huntyped hchild).reportStray token.text scope.name token.span

/-- The typing with a closed start tag is that of the element with the type that was chosen. -/
theorem typing_settled (hclosed : e.startTagEnd.isSome) {type : Option TypeId} {failed : Bool}
    (htype : (e.definition.bind schema.definition?).map (·.typeFor (e.attribute? "type")) = type)
    (hfailed : ((e.definition.bind schema.definition?).bind fun d =>
      (e.attribute? "type").bind d.refusal?).isSome = failed) :
    Element.typing { e with type, alternationFailed := failed } =
      e.typing.settled schema (e.attribute? "type") := by
  subst htype hfailed
  unfold Element.typing Typing.settled
  dsimp only
  rw [hclosed]
  rfl

/-- Choosing the type of an element whose start tag is closed amends its typing. -/
theorem amends_resolveAlternation (he : d.get? id = some e) (hclosed : e.startTagEnd.isSome)
    (hfailed : e.alternationFailed = false)
    (htype : e.type = (e.definition.bind schema.definition?).map (·.type)) :
    d.Amends id (e.typing.settled schema (e.attribute? "type")) none
      ((e.typing.settled schema (e.attribute? "type")).refusal? schema)
      (resolveAlternation schema d id) := by
  -- The draft and the typing ask the same questions one after the other.
  have hsettled := @typing_settled schema e hclosed
  have hrefusal : (e.typing.settled schema (e.attribute? "type")).refusal? schema =
      (e.definition.bind schema.definition?).bind fun d => (e.attribute? "type").bind d.refusal? :=
    rfl
  rw [hrefusal]
  unfold resolveAlternation
  rw [he]
  dsimp only
  cases hdefinition : e.definition.bind schema.definition? with
  | none =>
    rw [hdefinition] at htype hsettled
    exact amends_self he (hsettled htype.symm hfailed.symm)
  | some definition =>
    rw [hdefinition] at htype hsettled
    cases hchoice : e.attribute? "type" with
    | none =>
      rw [hchoice] at hsettled
      exact amends_self he (hsettled htype.symm hfailed.symm)
    | some choice =>
      rw [hchoice] at hsettled
      dsimp only [Option.bind_some, Option.map_some] at htype hsettled ⊢
      rw [hfailed, Bool.false_or]
      cases hvalue : definition.alternative? (choice.value.getD "") with
      | some type =>
        -- A value that is among the alternatives gives the type, and nothing is said.
        have hsome : definition.alternatives.isNone = false := by
          unfold ElementDef.alternative? at hvalue
          obtain ⟨alternatives, halternatives, -⟩ := Option.bind_eq_some_iff.1 hvalue
          rw [halternatives]
          rfl
        obtain ⟨hchosen, hsilent⟩ := ElementDef.typeFor_eq hvalue
        rw [hchosen, hsilent] at hsettled
        rw [hsilent, hsome]
        exact amends_adjust he (hsettled rfl hfailed.symm)
      | none =>
        obtain ⟨hchosen, hsaid⟩ := ElementDef.typeFor_eq_type hvalue
        rw [hchosen, hsaid] at hsettled
        rw [hsaid]
        cases halternatives : definition.alternatives with
        | none =>
          -- Without alternatives there is nothing to choose.
          rw [halternatives] at hsettled
          exact amends_self he (hsettled htype.symm hfailed.symm)
        | some alternatives =>
          rw [halternatives] at hsettled
          -- A value that is not among them is remembered as failed, and reported.
          have hamends := amends_adjust he (f := fun e => { e with alternationFailed := true })
            (hsettled htype.symm rfl)
          exact hamends.reportRefusal (choice.value.getD "") definition.name
            (choice.valueSpan.getD choice.nameSpan)

/-- What the typing of an element with an open start tag is. -/
theorem IsTyped.follows (h : d.IsTyped schema rootType) (he : d.get? id = some e)
    (hopen : e.startTagEnd = none) :
    e.typing.closed = false ∧ e.typing.choice = none ∧ e.typing.Follows schema d.typings := by
  have hclosed : e.typing.closed = false := by
    unfold Element.typing
    rw [hopen]
    rfl
  have hchoice : e.typing.choice = none := by
    unfold Element.typing
    rw [hopen]
    rfl
  exact ⟨hclosed, hchoice, Typing.Grown.follows_of_open h (typings_eq he) hclosed⟩

/-- The element that has just begun may get its tag. -/
theorem IsTyped.nameElement (h : d.IsTyped schema rootType) (he : d.get? d.current = some e)
    (hopen : e.startTagEnd = none) (htag : e.tag = none) (hroot : d.current ≠ .root)
    (token : Token) : (d.nameElement schema token).IsTyped schema rootType := by
  obtain ⟨hclosed, hchoice, hfollows⟩ := h.follows he hopen
  have hdefinition : e.definition = none := by
    have hscope := hfollows.definition
    have hnone : e.typing.tag = none := htag
    rw [hnone] at hscope
    cases hparent : e.typing.scope? schema d.typings <;> rw [hparent] at hscope <;> exact hscope
  have htype : e.type = none := by
    have hnone : e.typing.definition = none := hdefinition
    have hchosen := hfollows.type
    rw [hnone] at hchosen
    exact hchosen
  have hamends := amends_nameElement he hroot hdefinition htype schema token
  unfold IsTyped
  rw [hamends.typings, hamends.strays, hamends.refusals, Option.toList_none, List.append_nil]
  exact Typing.Grown.name h (typings_eq he) hclosed hchoice htag token

/-- An open start tag may be closed. -/
theorem IsTyped.settle (h : d.IsTyped schema rootType) (he : d.get? id = some e)
    (hopen : e.startTagEnd = none) (offset : Nat) :
    (resolveAlternation schema
      (d.adjust id fun e => { e with startTagEnd := some offset }) id).IsTyped schema rootType := by
  obtain ⟨hclosed, hchoice, hfollows⟩ := h.follows he hopen
  have hfailed : e.alternationFailed = false :=
    hfollows.failed.trans (congrArg Option.isSome (Typing.refusal?_eq_none hchoice))
  have htype : e.type = (e.definition.bind schema.definition?).map (·.type) := by
    have hchosen := hfollows.type
    rw [hchoice] at hchosen
    exact hchosen
  have hget := get?_adjust_self he fun e => { e with startTagEnd := some offset }
  have hamends := (amends_adjust he rfl).trans
    (amends_resolveAlternation hget rfl hfailed htype)
  unfold IsTyped
  rw [hamends.typings, hamends.strays, hamends.refusals, Option.toList_none, List.append_nil]
  exact Typing.Grown.settle h (typings_eq he) hclosed hchoice (e.attribute? "type")

/-- An element may begin once all start tags are closed. -/
theorem IsTyped.addChild (h : d.IsTyped schema rootType) (he : d.get? d.current = some e)
    (hclosed : ∀ {j}, ¬ d.OpenTag j) (length offset : Nat) :
    (d.addChild length offset).IsTyped schema rootType := by
  -- The current element gets a child id, which its type does not depend on; so the table of types
  -- only grows by the new element.
  have hlinked := d.sameTyping_adjust d.current (f := fun e =>
    { e with children := e.children ++ [d.elements.size] }) fun _ _ => rfl
  have htypings : (d.addChild length offset).typings =
      d.typings ++ [.fresh (.point offset) d.current] := by
    unfold typings Draft.addChild
    dsimp only
    rw [Array.toList_push, List.map_append]
    exact congrArg (· ++ _) hlinked.typings
  -- An element that is not closed would be an open start tag, which `hclosed` excludes.
  have hold : ∀ y ∈ d.typings, y.closed = true := by
    intro y hy
    obtain ⟨j, hj⟩ := List.getElem?_of_mem hy
    rw [getElem?_typings] at hj
    obtain ⟨e, he, rfl⟩ := Option.map_eq_some_iff.1 hj
    exact Option.isSome_iff_ne_none.2 fun hnone => hclosed ⟨_, shapes_eq he, hnone⟩
  have hlt := (List.getElem?_eq_some_iff.1 (typings_eq he)).1
  unfold IsTyped
  rw [htypings]
  exact Typing.Grown.begin h hold (.point offset) hlt

end Draft

end LayoutMarkup
