import LayoutMarkup.Proofs.Document.Carrying
import LayoutMarkup.Proofs.Document.Closing
import LayoutMarkup.Proofs.Token.Succession

/-!
# Scanner and draft in lockstep

What the draft owes to the tokens so far. As long as the scanner is inside a start tag, that of the
current element is open, and the current element is the last one (`Draft.Locked`). The converse does
not hold: a start tag that another `<` interrupts is open until that is taken.

So each `<` begins one element, each start tag ends where a token does, and what comes right behind
the `<` of an element decides on its tag (`Element.Led`).
-/

namespace LayoutMarkup

/-! ## Start tags in the scanner -/

/-- Whether tokens of the kind may stand inside a start tag without ending it. -/
def TokenKind.isInside : TokenKind → Bool
  | tagName | attributeName | assign | attributeValue | blank | unknown => true
  | _ => false

namespace Scanner.State

/-- Whether the state is inside a start tag. -/
def isStartTag : State → Bool
  | tagOpened | inTag | afterName | beforeValue => true
  | _ => false

/-- Turning does not lead into a start tag. -/
theorem isStartTag_of_reach {state m : State} (hm : m ∈ state.reach) (h : m.isStartTag = true) :
    state.isStartTag = true := by
  cases state <;> cases m <;> first | rfl | exact Bool.noConfusion h | exact absurd hm (by decide)

/-- Into a start tag leads a `<`, or what stands inside. -/
theorem isStartTag_cases {m next : State} {kind : TokenKind} (h : (kind, next) ∈ m.outcomes)
    (hnext : next.isStartTag = true) :
    kind = .tagOpen ∨ m.isStartTag = true ∧ kind.isInside = true ∧ next ≠ tagOpened := by
  cases m <;>
    simp only [outcomes, List.mem_cons, Prod.mk.injEq, List.not_mem_nil, or_false] at h <;>
    grind [isStartTag, TokenKind.isInside]

end Scanner.State

/-! ## Elements and tokens -/

/-- Where an element begins, and its tag with its place. -/
def Element.head (e : Element) : Nat × Option String × Option Span :=
  (e.start, e.tag, e.tagSpan)

/-- The token right behind the `<` of an element. If it is a name, it is the tag of the element, and
if it is a `>`, the element is not closed by its start tag. -/
structure Element.Led (e : Element) (t : Token) : Prop where
  /-- The token comes right behind `<`. -/
  start : t.span.start = e.start + 1
  /-- A name is the tag. -/
  tag : e.tag = if t.kind = .tagName then some t.text else none
  /-- A `>` closes the start tag and no more. -/
  closed : t.kind = .tagClose → e.startTagEnd ≠ none ∧ e.selfClosed = false

/-- An element that keeps its tag is led by the same token. -/
theorem Element.Led.carries {e e' : Element} {t token : Token} (h : e.Led t)
    (hcarries : e.Carries token e') (htag : e'.tag = e.tag) : e'.Led t where
  start := hcarries.start ▸ h.start
  tag := htag.trans h.tag
  closed hkind := by
    obtain ⟨hclosed, hself⟩ := h.closed hkind
    refine ⟨hcarries.ne_none hclosed ▸ hclosed, Bool.eq_false_iff.2 fun hself' => ?_⟩
    rcases hcarries.selfClosed hself' with hwas | ⟨hnone, -⟩
    · exact Bool.false_ne_true (hself.symm.trans hwas)
    · exact hclosed hnone

namespace Draft

variable {text : List Char} {past : List Token} {s : Scanner} {d d' : Draft} {id : ElementId}
  {e e' : Element} {token : Token} {P : Nat → Prop} {length mark : Nat} {stack : List ElementId}

/-- What is the same in each element is the same in all of them. -/
theorem map_toList_congr {α : Type} {f g : Element → α}
    (h : ∀ id, (d'.get? id).map g = (d.get? id).map f) :
    d'.elements.toList.map g = d.elements.toList.map f := by
  refine List.ext_getElem? fun id => ?_
  rw [List.getElem?_map, List.getElem?_map, Array.getElem?_toList, Array.getElem?_toList]
  exact h id

/-- What changes in the last element only, stays in front of it. -/
theorem map_of_last {α : Type} {f g : Element → α} {x : α} {last : Nat}
    (hlast : last + 1 = d.elements.size)
    (h : ∀ n, (d'.get? n).map g = if n = last then some x else (d.get? n).map f) :
    d'.elements.toList.map g = (d.elements.toList.map f).dropLast ++ [x] := by
  have hlen : (d.elements.toList.map f).dropLast.length = last := by simp [← hlast]
  refine List.ext_getElem? fun n => ?_
  have hn : (d'.elements.toList.map g)[n]? = if n = last then some x else (d.get? n).map f := by
    rw [List.getElem?_map, Array.getElem?_toList]
    exact h n
  rw [hn]
  rcases Nat.lt_trichotomy n last with hlt | rfl | hlt
  · rw [if_neg (Nat.ne_of_lt hlt), List.getElem?_append_left (by omega), List.getElem?_dropLast,
      if_pos (by simp; omega), List.getElem?_map, Array.getElem?_toList]
    rfl
  · rw [if_pos rfl, List.getElem?_append_right (by omega), hlen, Nat.sub_self]
    rfl
  · have hnone : d.get? n = none := Array.getElem?_eq_none (by omega)
    rw [if_neg (Nat.ne_of_gt hlt), hnone, List.getElem?_eq_none (by simp; omega)]
    rfl

/-- What is the same in all elements that are carried on is the same in the draft. -/
theorem Carries.map_toList {α : Type} {f g : Element → α} (h : d.Carries token d')
    (hfg : ∀ {id e e'}, d.get? id = some e → e.Carries token e' → g e' = f e) :
    d'.elements.toList.map g = d.elements.toList.map f := by
  refine map_toList_congr fun id => ?_
  cases he' : d'.get? id with
  | some e' =>
    obtain ⟨e, he, hcarries⟩ := h.elements he'
    rw [he, Option.map_some, Option.map_some, hfg he hcarries]
  | none =>
    cases he : d.get? id with
    | none => rfl
    | some e =>
      obtain ⟨e', hsome, -⟩ := h.exists_get? he
      exact nomatch he'.symm.trans hsome

/-- A new element comes last, and the others keep all but their children. -/
theorem map_toList_begin {α : Type} {g : Element → α}
    (hg : ∀ (e : Element) children, g { e with children } = g e) (d : Draft) (span : Span)
    (length offset : Nat) :
    ((d.noteTopLevel span).addChild length offset).elements.toList.map g =
      d.elements.toList.map g ++
        [g { start := offset, stop := length, parent := some d.current }] := by
  obtain ⟨helements, hcurrent, -⟩ := d.noteTopLevel_keeps span
  -- The parent of the new element is changed only in its children, of which `g` does not depend.
  have hlinked : ((d.noteTopLevel span).adjust d.current fun e =>
      { e with children := e.children ++ [d.elements.size] }).elements.toList.map g =
      d.elements.toList.map g := by
    refine map_toList_congr fun id => ?_
    have hget : (d.noteTopLevel span).get? id = d.get? id := congrArg (·[id]?) helements
    rw [get?_adjust, hget]
    split
    next =>
      rw [Option.map_map]
      exact congrArg (fun k => (d.get? id).map k) (funext fun e => hg e _)
    next => rfl
  unfold addChild
  dsimp only
  rw [hcurrent, helements, Array.toList_push, List.map_append]
  exact congrArg (· ++ _) hlinked

/-! ## One token -/

/-- Every token but `<` carries the draft on, with what the scanner found. -/
theorem carries_take (schema : Schema) (length : Nat) (d : Draft)
    (hkind : s.scan.token.kind ≠ .tagOpen) :
    d.Carries s.scan.token (d.take schema length s.scan) :=
  (d.carries_found s.lexical_scan).trans (carries_step schema length _ hkind)

/-- A `<` carries the draft on and begins an element behind the others. -/
theorem exists_carries_take (schema : Schema) (length : Nat) (d : Draft)
    (hkind : s.scan.token.kind = .tagOpen) :
    ∃ d', d.Carries s.scan.token d' ∧ d.take schema length s.scan =
      (d'.noteTopLevel s.scan.token.span).addChild length s.scan.token.span.start := by
  obtain ⟨d', hcarries, hopen⟩ := exists_carries_openElement schema length
    { d with log := s.scan.diagnostic.elim d.log d.log.add } s.scan.token
  refine ⟨d', (d.carries_found s.lexical_scan).trans hcarries, ?_⟩
  unfold take step
  rw [hkind]
  exact hopen

/-- Behind a token an element is carried on, or it is the one that a `<` has begun. -/
theorem get?_take_cases {schema : Schema}
    (he' : (d.take schema length s.scan).get? id = some e') :
    (∃ e, d.get? id = some e ∧ e.Carries s.scan.token e') ∨
      s.scan.token.kind = .tagOpen ∧ id = d.elements.size ∧
        ∃ parent, e' = { start := s.scan.token.span.start, stop := length, parent } := by
  by_cases hkind : s.scan.token.kind = .tagOpen
  · obtain ⟨d', hcarries, htake⟩ := exists_carries_take schema length d hkind
    rw [htake] at he'
    rcases get?_begin_cases he' with ⟨hid, hnew⟩ | ⟨e₀, children, he₀, rfl⟩
    · exact .inr ⟨hkind, hid.trans hcarries.size, _, hnew⟩
    · obtain ⟨e, he, h⟩ := hcarries.elements he₀
      exact .inl ⟨e, he, h.start, h.startTagEnd, h.selfClosed, h.tag, h.attributes, h.tagSpan⟩
  · exact .inl ((carries_take schema length d hkind).elements he')

/-- A `<` adds an element behind the others, and what it carries on in these stays. -/
theorem exists_map_take {α : Type} {g : Element → α}
    (hg : ∀ (e : Element) children, g { e with children } = g e)
    (hcarried : ∀ {e e'}, e.Carries s.scan.token e' → g e' = g e) (schema : Schema) (length : Nat)
    (hne : d.elements.toList ≠ []) (hkind : s.scan.token.kind = .tagOpen) :
    ∃ parent, (d.take schema length s.scan).elements.toList.tail.map g =
      d.elements.toList.tail.map g ++
        [g { start := s.scan.token.span.start, stop := length, parent }] := by
  obtain ⟨d', hcarries, htake⟩ := exists_carries_take schema length d hkind
  have hkeep := hcarries.map_toList (f := g) (g := g) fun _ hcarries => hcarried hcarries
  refine ⟨some d'.current, ?_⟩
  rw [htake, List.map_tail, map_toList_begin hg, hkeep,
    List.tail_append_of_ne_nil (by simpa using hne), List.map_tail]

/-- What stands inside a start tag leaves the layout. -/
theorem same_take (schema : Schema) (length : Nat) (d : Draft)
    (hkind : s.scan.token.kind.isInside = true) : d.Same (d.take schema length s.scan) := by
  have hlog : d.Same { d with log := s.scan.diagnostic.elim d.log d.log.add } :=
    ⟨rfl, rfl, rfl, rfl, rfl⟩
  refine hlog.trans ?_
  unfold take step
  cases hk : s.scan.token.kind with
  | tagName => exact same_nameElement ..
  | attributeName => exact same_addAttribute ..
  | attributeValue => exact same_setValue ..
  | assign | blank | unknown => exact .refl _
  | _ =>
    rw [hk] at hkind
    exact Bool.noConfusion hkind

/-! ## Lockstep -/

/-- What the draft owes to the tokens so far. -/
structure Locked (text : List Char) (past : List Token) (s : Scanner) (d : Draft) : Prop
    extends TalliedInStep text s d where
  /-- Every token has characters and ends in front of the scanner. -/
  before : ∀ t ∈ past, t.span.start < t.span.stop ∧ t.span.stop ≤ s.offset
  /-- Inside a start tag, that of the current element is open. -/
  tagged : s.state.isStartTag = true → d.OpenTag d.current
  /-- An element whose start tag is open is the last one. -/
  last : ∀ {id}, d.OpenTag id → id + 1 = d.elements.size
  /-- Apart from the root, the elements begin at the `<` of the text, in the same order. -/
  starts : d.elements.toList.tail.map Element.start =
    (past.filter (·.kind = .tagOpen)).map (·.span.start)
  /-- No token goes on behind the end of a start tag. -/
  ended : ∀ {id e stop}, d.get? id = some e → e.startTagEnd = some stop →
    stop ≤ s.offset ∧ ∀ t ∈ past, t.span.start < stop → t.span.stop ≤ stop
  /-- Something comes right behind the `<` of each element, unless that was the last token. -/
  led : ∀ {id e}, d.get? id = some e → id ≠ .root →
    (∃ t ∈ past, e.Led t) ∨ id = d.current ∧ s.state = .tagOpened ∧ e.tag = none

/-- The next token begins where the scanner stands. -/
theorem start_scan (s : Scanner) : s.scan.token.span.start = s.offset :=
  congrArg Span.start s.span_scan

/-- The next token ends where the scanner stands then. -/
theorem stop_scan (s : Scanner) : s.scan.token.span.stop = s.scan.after.offset :=
  congrArg Span.stop s.span_scan

/-- In front of the end of the text the next token has characters. -/
theorem start_lt_stop_scan (hrest : s.rest ≠ []) :
    s.scan.token.span.start < s.scan.token.span.stop := by
  rw [start_scan, stop_scan]
  refine Scanner.offset_lt_scan ?_
  rcases s.scan_spec.outcome with ⟨hnil, -⟩ | ⟨m, -, hmem⟩
  · exact absurd hnil hrest
  · exact Scanner.kind_ne_of_mem_outcomes hmem

/-- A `<` begins the current element behind the others. -/
theorem begin_take (schema : Schema) (length : Nat) (d : Draft)
    (hkind : s.scan.token.kind = .tagOpen) :
    (d.take schema length s.scan).current = d.elements.size ∧
      (d.take schema length s.scan).elements.size = d.elements.size + 1 ∧
      ∃ parent, (d.take schema length s.scan).get? d.elements.size =
        some { start := s.scan.token.span.start, stop := length, parent } := by
  obtain ⟨d', hcarries, htake⟩ := exists_carries_take schema length d hkind
  obtain ⟨helements, -⟩ := d'.noteTopLevel_keeps s.scan.token.span
  have hsize : (d'.noteTopLevel s.scan.token.span).elements.size = d.elements.size :=
    (congrArg Array.size helements).trans hcarries.size
  rw [htake, size_addChild, hsize, get?_addChild, hsize, if_pos rfl]
  exact ⟨hsize, rfl, _, rfl⟩

/-- The name of a start tag is the tag of the current element, and no other one changes its head. -/
theorem head_take {schema : Schema} (hkind : s.scan.token.kind = .tagName)
    (hroot : d.current ≠ .root) (he' : (d.take schema length s.scan).get? id = some e') :
    ∃ e, d.get? id = some e ∧ e'.head =
      if d.current = id then (e.start, some s.scan.token.text, some s.scan.token.span)
      else e.head := by
  have hname : d.take schema length s.scan = nameElement schema
      { d with log := s.scan.diagnostic.elim d.log d.log.add } s.scan.token := by
    unfold take step
    rw [hkind]
  rw [hname] at he'
  -- What naming does beyond tag and span is about types, so the ends of the elements stay.
  have hsame := sameEnds_nameElement schema
    { d with log := s.scan.diagnostic.elim d.log d.log.add } s.scan.token hroot
  obtain ⟨f, hf, hends⟩ := hsame.symm.exists_get? he'
  have hhead : f.ends.head = e'.ends.head := congrArg Element.head hends
  rw [get?_adjust] at hf
  refine hhead ▸ ?_
  split at hf
  next heq =>
    obtain ⟨e, he, rfl⟩ := Option.map_eq_some_iff.1 hf
    exact ⟨e, he, (if_pos heq).symm⟩
  next hne => exact ⟨f, hf, (if_neg hne).symm⟩

/-- The name of a start tag is the tag of the current element and of no other one. -/
theorem tag_take {schema : Schema} (hkind : s.scan.token.kind = .tagName)
    (hroot : d.current ≠ .root) (he' : (d.take schema length s.scan).get? id = some e') :
    ∃ e, d.get? id = some e ∧
      e'.tag = if d.current = id then some s.scan.token.text else e.tag := by
  obtain ⟨e, he, hhead⟩ := head_take hkind hroot he'
  refine ⟨e, he, ?_⟩
  have htag : e'.tag = e'.head.2.1 := rfl
  rw [htag, hhead]
  split <;> rfl

/-- Behind a `>` the start tag of the current element is closed, and the element is not. -/
theorem closed_take {schema : Schema} (hfits : d.Fits P length s.offset stack)
    (hnext : Next P length s.offset s.scan.token) (hkind : s.scan.token.kind = .tagClose)
    (he : d.get? d.current = some e) (hcarries : e.Carries s.scan.token e')
    (he' : (d.take schema length s.scan).get? d.current = some e') :
    e'.startTagEnd ≠ none ∧ e'.selfClosed = false := by
  have hlog : d.Same { d with log := s.scan.diagnostic.elim d.log d.log.add } :=
    ⟨rfl, rfl, rfl, rfl, rfl⟩
  have hend : d.take schema length s.scan = endStartTag schema
      { d with log := s.scan.diagnostic.elim d.log d.log.add } s.scan.token.span.stop := by
    unfold take step
    rw [hkind]
  rw [hend] at he'
  obtain ⟨-, hclosed⟩ := (hfits.same hlog).endStartTag hnext.le hnext.stop_le hnext.stop schema
  have hcurrent := (sameEnds_endStartTag schema
    { d with log := s.scan.diagnostic.elim d.log d.log.add } s.scan.token.span.stop).current
  refine ⟨fun hnone => hclosed ?_, Bool.eq_false_iff.2 fun hself => ?_⟩
  · rw [hcurrent]
    exact ⟨_, shapes_eq he', hnone⟩
  · -- The element was open, and only `/>` closes it with its start tag.
    obtain ⟨-, hopen, -⟩ := hfits.laid.opened (shapes_eq he) (List.mem_of_mem_head? hfits.current)
    rcases hcarries.selfClosed hself with hwas | ⟨-, hslash⟩
    · exact Bool.false_ne_true (hopen.symm.trans hwas)
    · exact TokenKind.noConfusion (hkind.symm.trans hslash)

namespace Locked

/-- The tokens so far and the next one have characters. -/
theorem before_take (h : d.Locked text past s) (hrest : s.rest ≠ []) :
    ∀ t ∈ past ++ [s.scan.token],
      t.span.start < t.span.stop ∧ t.span.stop ≤ s.scan.after.offset := by
  intro t ht
  rcases List.mem_append.1 ht with ht | ht
  · obtain ⟨hlt, hle⟩ := h.before t ht
    exact ⟨hlt, Nat.le_trans hle s.offset_le_scan⟩
  · rw [List.mem_singleton.1 ht]
    exact ⟨start_lt_stop_scan hrest, Nat.le_of_eq (stop_scan s)⟩

/-- Inside a start tag, that of the current element is open. -/
theorem tagged_take (h : d.Locked text past s) (hrest : s.rest ≠ []) (schema : Schema)
    (hstate : s.scan.after.state.isStartTag = true) :
    (d.take schema length s.scan).OpenTag (d.take schema length s.scan).current := by
  rcases s.scan_spec.outcome with ⟨hnil, -⟩ | ⟨m, hm, hmem⟩
  · exact absurd hnil hrest
  rcases Scanner.State.isStartTag_cases hmem hstate with hkind | ⟨hin, hkind, -⟩
  · obtain ⟨hcurrent, -, parent, hnew⟩ := begin_take schema length d hkind
    rw [hcurrent]
    exact ⟨_, shapes_eq hnew, rfl⟩
  · exact (same_take schema length d hkind).openTag_current.2
      (h.tagged (Scanner.State.isStartTag_of_reach hm hin))

/-- An element whose start tag is open is the last one. -/
theorem last_take (h : d.Locked text past s) (schema : Schema)
    (hopen : (d.take schema (Text.byteLength text) s.scan).OpenTag id) :
    id + 1 = (d.take schema (Text.byteLength text) s.scan).elements.size := by
  by_cases hkind : s.scan.token.kind = .tagOpen
  · obtain ⟨hcurrent, hsize, -⟩ := begin_take schema (Text.byteLength text) d hkind
    obtain ⟨stack, hfits⟩ := (h.toInStep.take schema).fits
    rw [hsize, hfits.eq_current hopen, hcurrent]
  · have hcarries := carries_take schema (Text.byteLength text) d hkind
    rw [hcarries.size]
    exact h.last (hcarries.openTag hopen)

/-- The root is there. -/
theorem toList_ne_nil (h : d.Locked text past s) : d.elements.toList ≠ [] := by
  obtain ⟨stack, hfits⟩ := h.fits
  obtain ⟨e, he⟩ := hfits.exists_current
  exact List.ne_nil_of_mem (Array.mem_toList_iff.2 (Array.mem_of_getElem? he))

/-- The elements begin at the `<` of the text. -/
theorem starts_take (h : d.Locked text past s) (schema : Schema) (length : Nat) :
    (d.take schema length s.scan).elements.toList.tail.map Element.start =
      ((past ++ [s.scan.token]).filter (·.kind = .tagOpen)).map (·.span.start) := by
  rw [List.filter_append, List.map_append, ← h.starts]
  by_cases hkind : s.scan.token.kind = .tagOpen
  · obtain ⟨parent, hadded⟩ := exists_map_take (g := Element.start) (fun _ _ => rfl)
      (fun hcarries => hcarries.start) schema length h.toList_ne_nil hkind
    rw [hadded]
    simp [hkind]
  · have hkeep := (carries_take schema length d hkind).map_toList (f := Element.start)
      (g := Element.start) fun _ hcarries => hcarries.start
    rw [List.map_tail, hkeep, List.map_tail]
    simp [hkind]

/-- No token goes on behind the end of the start tag of an element that is carried on. -/
theorem ended_carries (h : d.Locked text past s) {stop : Nat} (he : d.get? id = some e)
    (hcarries : e.Carries s.scan.token e') (hstop : e'.startTagEnd = some stop) :
    stop ≤ s.scan.after.offset ∧
      ∀ t ∈ past ++ [s.scan.token], t.span.start < stop → t.span.stop ≤ stop := by
  have hstart := start_scan s
  have hafter := stop_scan s
  have hle := s.offset_le_scan
  rcases hcarries.startTagEnd with heq | ⟨-, hset⟩
  · -- The start tag was closed in front of the token.
    obtain ⟨hstop', hpast⟩ := h.ended he (heq.symm.trans hstop)
    refine ⟨Nat.le_trans hstop' hle, fun t ht hlt => ?_⟩
    rcases List.mem_append.1 ht with ht | ht
    · exact hpast t ht hlt
    · rw [List.mem_singleton.1 ht] at hlt
      omega
  · have hends : stop = s.scan.token.span.start ∨ stop = s.scan.token.span.stop := by
      rw [hstop] at hset
      exact hset.imp Option.some_inj.1 Option.some_inj.1
    refine ⟨by omega, fun t ht hlt => ?_⟩
    rcases List.mem_append.1 ht with ht | ht
    · have hbefore := (h.before t ht).2
      omega
    · rw [List.mem_singleton.1 ht] at hlt ⊢
      omega

/-- No token goes on behind the end of a start tag. -/
theorem ended_take (h : d.Locked text past s) (schema : Schema) {stop : Nat}
    (he' : (d.take schema length s.scan).get? id = some e') (hstop : e'.startTagEnd = some stop) :
    stop ≤ s.scan.after.offset ∧
      ∀ t ∈ past ++ [s.scan.token], t.span.start < stop → t.span.stop ≤ stop := by
  rcases get?_take_cases he' with ⟨e, he, hcarries⟩ | ⟨-, -, parent, rfl⟩
  · exact h.ended_carries he hcarries hstop
  · exact nomatch hstop

/-- Something comes right behind the `<` of each element, unless that was the last token. -/
theorem led_take (h : d.Locked text past s) (schema : Schema)
    (he' : (d.take schema (Text.byteLength text) s.scan).get? id = some e') (hid : id ≠ .root) :
    (∃ t ∈ past ++ [s.scan.token], e'.Led t) ∨
      id = (d.take schema (Text.byteLength text) s.scan).current ∧
        s.scan.after.state = .tagOpened ∧ e'.tag = none := by
  obtain ⟨stack, hfits⟩ := h.fits
  rcases get?_take_cases he' with ⟨e, he, hcarries⟩ | ⟨hkind, rfl, parent, rfl⟩
  · refine .inl ?_
    -- The name of a start tag comes right behind the `<` of the current element.
    have htag : s.scan.token.kind = .tagName → s.state = .tagOpened ∧
        e'.tag = if d.current = id then some s.scan.token.text else e.tag := by
      intro hkind
      have hstate := Scanner.state_eq_tagOpened hkind
      obtain ⟨shape, hs, hnone⟩ := h.tagged (by rw [hstate]; rfl)
      obtain ⟨f, hf, htag⟩ := tag_take hkind (hfits.laid.ne_root_of_unclosed hs hnone) he'
      obtain rfl := Option.some_inj.1 (he.symm.trans hf)
      exact ⟨hstate, htag⟩
    rcases h.led he hid with ⟨t, ht, hled⟩ | ⟨rfl, hstate, hnone⟩
    · refine ⟨t, List.mem_append_left _ ht, hled.carries hcarries ?_⟩
      by_cases hkind : s.scan.token.kind = .tagName
      · obtain ⟨hstate, hname⟩ := htag hkind
        -- A name goes to the newest element, and that has nothing behind its `<` so far.
        rw [hname, if_neg]
        rintro rfl
        have hbegun := (h.begun hstate).2 e he
        have hbefore := h.before t ht
        have hstart := hled.start
        omega
      · exact hcarries.tag hkind
    · -- The element is the newest one, and this token stands right behind its `<`.
      refine ⟨s.scan.token, List.mem_append_right _ (List.mem_singleton_self _), ?_, ?_, ?_⟩
      · rw [start_scan, (h.begun hstate).2 e he, hcarries.start]
      · split
        next hkind => rw [(htag hkind).2, if_pos rfl]
        next hkind => rw [hcarries.tag hkind, hnone]
      · exact fun hkind => closed_take hfits (next_scan h.within) hkind he hcarries he'
  · exact .inr ⟨(begin_take schema _ d hkind).1.symm, Scanner.state_after_tagOpen hkind, rfl⟩

/-- Every step in front of the end of the text keeps the lockstep. -/
theorem take (h : d.Locked text past s) (hrest : s.rest ≠ []) (schema : Schema) :
    (d.take schema (Text.byteLength text) s.scan).Locked text (past ++ [s.scan.token])
      s.scan.after :=
  { h.toTalliedInStep.take schema with
    before := h.before_take hrest
    tagged := h.tagged_take hrest schema
    last := h.last_take schema
    starts := h.starts_take schema _
    ended := h.ended_take schema
    led := h.led_take schema }

/-- At the end of the text the elements begin at its `<`. -/
theorem starts_finish (h : d.Locked text past s) (schema : Schema) (length : Nat) :
    (d.finish schema length).elements.toList.tail.map Element.start =
      (past.filter (·.kind = .tagOpen)).map (·.span.start) := by
  have hcarries : d.Carries ⟨.endOfText, .point length, ""⟩ (d.finish schema length) :=
    carries_finish schema d rfl
  have hkeep := hcarries.map_toList (f := Element.start) (g := Element.start)
    fun _ hcarries => hcarries.start
  rw [← h.starts, List.map_tail, List.map_tail, hkeep]

/-- At the end of the text something comes right behind the `<` of each element, unless it has
neither a tag nor a `/>`. -/
theorem led_finish (h : d.Locked text past s) (schema : Schema) (length : Nat)
    (he' : (d.finish schema length).get? id = some e') (hid : id ≠ .root) :
    (∃ t ∈ past, e'.Led t) ∨ e'.tag = none ∧ e'.selfClosed = false := by
  have hfinish : d.Carries ⟨.endOfText, .point length, ""⟩ (d.finish schema length) :=
    carries_finish schema d rfl
  obtain ⟨e, he, hcarries⟩ := hfinish.elements he'
  have htag := hcarries.tag fun hkind => TokenKind.noConfusion hkind
  rcases h.led he hid with ⟨t, ht, hled⟩ | ⟨rfl, hstate, hnone⟩
  · exact .inl ⟨t, ht, hled.carries hcarries htag⟩
  · -- The element has only just begun, so it is open.
    obtain ⟨stack, hfits⟩ := h.fits
    obtain ⟨-, hopen, -⟩ := hfits.laid.opened (shapes_eq he) (List.mem_of_mem_head? hfits.current)
    refine .inr ⟨htag.trans hnone, Bool.eq_false_iff.2 fun hself => ?_⟩
    rcases hcarries.selfClosed hself with hwas | ⟨-, hkind⟩
    · exact Bool.false_ne_true (hopen.symm.trans hwas)
    · exact TokenKind.noConfusion hkind

end Locked

/-- In the beginning there are no tokens to account for. -/
theorem locked_start (rootType : Option TypeId) (text : String) :
    (start (Text.byteLength text.toList) rootType).Locked text.toList [] (Scanner.ofText text) := by
  -- There is only the root, and its start tag counts as closed.
  have honly : ∀ {id e}, (start (Text.byteLength text.toList) rootType).get? id = some e →
      id = .root ∧ e.startTagEnd = some 0 := by
    intro id e he
    cases id with
    | zero =>
      obtain rfl := Option.some_inj.1 he
      exact ⟨rfl, rfl⟩
    | succ id => exact nomatch he
  refine { talliedInStep_start rootType text with
    before := fun t ht => nomatch ht
    tagged := fun hstate => Bool.noConfusion hstate
    last := fun {id} ⟨shape, hs, hnone⟩ => ?_
    starts := rfl
    ended := fun he hstop => ?_
    led := fun he hid => absurd (honly he).1 hid }
  · obtain ⟨e, he, rfl⟩ := Draft.exists_get? hs
    exact nomatch (honly he).2.symm.trans hnone
  · obtain rfl := Option.some_inj.1 ((honly he).2.symm.trans hstop)
    exact ⟨Nat.zero_le _, fun t ht => nomatch ht⟩

/-- At the end of the text the last token takes nothing. -/
theorem take_of_nil (schema : Schema) (length : Nat) (d : Draft) (hnil : s.rest = []) :
    d.take schema length s.scan = d := by
  have hkind : s.scan.token.kind = .endOfText := by rw [Scanner.token_scan_of_nil hnil]
  unfold take step
  rw [hkind, Scanner.diagnostic_scan_of_nil hnil]
  rfl

/-- What holds in the beginning and is kept by every step in front of the end of the text, holds
with all tokens but the last one of a draft that only has to be finished. -/
theorem exists_history {P : List Token → Scanner → Draft → Prop} (schema : Schema)
    {rootType : Option TypeId} {text : String}
    (hstart : P [] (Scanner.ofText text) (start (Text.byteLength text.toList) rootType))
    (hstep : ∀ {past s d}, s.rest ≠ [] → P past s d → P (past ++ [s.scan.token]) s.scan.after
      (d.take schema (Text.byteLength text.toList) s.scan)) :
    ∃ past s d, s.rest = [] ∧ P past s d ∧
      (tokenize text).map Scanned.token = past ++ [s.scan.token] ∧
      ofText schema rootType text = d.finish schema (Text.byteLength text.toList) := by
  obtain ⟨past, s, d, hnil, hP, htokens, hfold⟩ := Scanner.run_history hstep hstart
  refine ⟨past, s, d, hnil, hP, htokens, ?_⟩
  rw [take_of_nil schema _ d hnil] at hfold
  exact congrArg (finish schema (Text.byteLength text.toList)) hfold

end Draft

namespace Document

/-- The tokens of the text. -/
def tokens (doc : Document) : List Token :=
  (tokenize doc.text).map Scanned.token

/-- For every text, schema and root type, the elements but the root begin at the `<` of the text, in
the same order. -/
theorem starts_parse (name text : String) (schema : Schema) (rootType : Option TypeId) :
    (parse name text schema rootType).elements.toList.tail.map Element.start =
      ((parse name text schema rootType).tokens.filter (·.kind = .tagOpen)).map (·.span.start) := by
  obtain ⟨past, s, d, hnil, hlocked, htokens, hfinish⟩ := Draft.exists_history schema
    (Draft.locked_start rootType text) fun hrest hP => hP.take hrest schema
  have hstarts := hlocked.starts_finish schema (Text.byteLength text.toList)
  have hlast : s.scan.token.kind ≠ .tagOpen := by
    rw [Scanner.token_scan_of_nil hnil]
    exact fun hkind => TokenKind.noConfusion hkind
  unfold parse tokens
  dsimp only
  rw [hfinish, hstarts, htokens, List.filter_append]
  simp [hlast]

end Document

end LayoutMarkup
