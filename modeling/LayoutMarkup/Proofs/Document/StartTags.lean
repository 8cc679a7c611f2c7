import LayoutMarkup.Proofs.Document.Lockstep
import LayoutMarkup.Proofs.OrderedMap
import LayoutMarkup.Proofs.Token.Assigning

/-!
# Attributes of start tags

The attributes that the draft gives to its elements are those that the tokens of their start tags
write: of each name the first one, with the value that is assigned to it, and there is one remark
for every repeated one (`Draft.Attributed`).

The draft gives a value to the attribute that waits for it. What is waiting is known only by its
key, and when the start tag is left it may go on waiting. Yet a value is taken only behind `=`, and
that only behind a name (`Scanner.State.seek?`); so whenever there is a value, the attribute that
waits is the one whose name stands in front of it, or none waits since that name is a repeated one
(`Draft.Awaits`).
-/

namespace LayoutMarkup

/-! ## What the tokens of a start tag write -/

namespace Written

/-- The attribute of an element. -/
def toAttribute (w : Written) : Attribute where
  name := w.name.text
  nameSpan := w.name.span
  value := w.value.map (unquote ·.text)
  valueSpan := w.value.map (·.span)

/-- The attribute under its key. -/
def entry (w : Written) : String × Attribute :=
  (w.key, w.toAttribute)

/-- The remark on an attribute that the element has already. -/
def remark (w : Written) : Diagnostic :=
  (Cause.repeatedAttribute w.name.text).on w.name.span

end Written

namespace Element

variable {past : List Token} {e e' : Element} {t : Token} {stop : Nat}

/-- The tokens behind the `<` of an element and in front of the end of its start tag. -/
def startTag (tokens : List Token) (e : Element) : List Token :=
  tokens.filter fun t => e.start < t.span.start ∧ ∀ stop ∈ e.startTagEnd, t.span.start < stop

/-- The attributes that the start tag writes. -/
def written (tokens : List Token) (e : Element) : List Written :=
  Written.ofTokens (e.startTag tokens)

/-- The remarks on attributes that are written more than once. -/
def repeats (tokens : List Token) (e : Element) : List Diagnostic :=
  (Written.repeats (e.written tokens)).map Written.remark

/-- The element has the first attributes of each name that its start tag writes. -/
def Faithful (tokens : List Token) (e : Element) : Prop :=
  e.attributes.entries = (Written.firsts (e.written tokens)).map Written.entry

/-- An element that keeps its attributes is faithful to the same ones that are written. -/
theorem Faithful.congr {tokens tokens' : List Token} (h : e.Faithful tokens)
    (hwritten : e'.written tokens' = e.written tokens)
    (hattributes : e'.attributes = e.attributes) : e'.Faithful tokens' := by
  unfold Faithful
  rw [hwritten, hattributes]
  exact h

/-- The tokens of a start tag depend on where it begins and ends. -/
theorem startTag_congr (hstart : e'.start = e.start) (hend : e'.startTagEnd = e.startTagEnd)
    (tokens : List Token) : e'.startTag tokens = e.startTag tokens := by
  unfold startTag
  rw [hstart, hend]

/-- What comes behind the end of a start tag does not belong to it. -/
theorem startTag_concat_of_le (hstop : e.startTagEnd = some stop) (hle : stop ≤ t.span.start)
    (past : List Token) : e.startTag (past ++ [t]) = e.startTag past := by
  unfold startTag
  rw [List.filter_append, List.filter_singleton, decide_eq_false, cond_false, List.append_nil]
  exact fun h => Nat.not_lt_of_le hle (h.2 stop hstop)

/-- What comes into an open start tag belongs to it. -/
theorem startTag_concat_of_open (hopen : e.startTagEnd = none) (hlt : e.start < t.span.start)
    (past : List Token) : e.startTag (past ++ [t]) = e.startTag past ++ [t] := by
  unfold startTag
  rw [List.filter_append, List.filter_singleton, decide_eq_true, cond_true]
  refine ⟨hlt, fun stop hstop => ?_⟩
  rw [hopen] at hstop
  exact nomatch hstop

/-- Closing a start tag behind all tokens leaves it as it is. -/
theorem startTag_close (hstart : e'.start = e.start) (hopen : e.startTagEnd = none)
    (hstop : e'.startTagEnd = some stop) (hlt : ∀ t ∈ past, t.span.start < stop) :
    e'.startTag past = e.startTag past := by
  unfold startTag
  refine List.filter_congr fun t ht => ?_
  rw [hstart, hopen, hstop]
  simp [hlt t ht]

/-- Nothing of what comes in front of an element belongs to its start tag. -/
theorem startTag_eq_nil (hle : ∀ t ∈ past, t.span.start ≤ e.start) : e.startTag past = [] := by
  refine List.filter_eq_nil_iff.2 fun t ht hin => ?_
  exact Nat.not_lt_of_le (hle t ht) (of_decide_eq_true hin).1

/-- An element that is carried on by something else than a name or a value keeps the attributes that
its start tag writes. -/
theorem Carries.written (h : e.Carries t e') (hname : t.kind ≠ .attributeName)
    (hvalue : t.kind ≠ .attributeValue) (hbefore : ∀ t' ∈ past, t'.span.start < t.span.start)
    (hle : t.span.start ≤ t.span.stop) (hopen : e.startTagEnd = none → e.start < t.span.start)
    (hclosed : ∀ stop, e.startTagEnd = some stop → stop ≤ t.span.start) :
    e'.written (past ++ [t]) = e.written past := by
  unfold Element.written
  rcases h.startTagEnd with heq | ⟨hnone, hset⟩
  · rw [startTag_congr h.start heq]
    cases hend : e.startTagEnd with
    | none =>
      rw [startTag_concat_of_open hend (hopen hend), Written.ofTokens_concat hname hvalue]
    | some stop => rw [startTag_concat_of_le hend (hclosed stop hend)]
  · -- The token closes the start tag in front of it or behind it.
    obtain ⟨stop, hstop, hat⟩ : ∃ stop, e'.startTagEnd = some stop ∧
        (stop = t.span.start ∨ stop = t.span.stop) := by
      rcases hset with hset | hset
      · exact ⟨_, hset, .inl rfl⟩
      · exact ⟨_, hset, .inr rfl⟩
    by_cases hin : t.span.start < stop
    · have hall : ∀ t' ∈ past ++ [t], t'.span.start < stop := by
        intro t' ht'
        rcases List.mem_append.1 ht' with ht' | ht'
        · exact Nat.lt_trans (hbefore t' ht') hin
        · rw [List.mem_singleton.1 ht']
          exact hin
      rw [startTag_close h.start hnone hstop hall, startTag_concat_of_open hnone (hopen hnone),
        Written.ofTokens_concat hname hvalue]
    · obtain rfl : stop = t.span.start := by omega
      rw [startTag_concat_of_le hstop (Nat.le_refl _), startTag_close h.start hnone hstop hbefore]

end Element

/-! ## Where values are looked for -/

namespace Scanner.State

/-- What is looked for behind the name of an attribute: an `=` with a value, or the value alone. -/
def seek? : State → Option (List Token → Option Token)
  | afterName => some Token.assigned?
  | beforeValue => some Token.value?
  | _ => none

/-- Turning does not lead to where a value is looked for. -/
theorem eq_of_seek? {state m : State} {seek : List Token → Option Token} (hm : m ∈ state.reach)
    (h : m.seek? = some seek) : state = m := by
  cases m <;> simp only [seek?, reduceCtorEq] at h
  all_goals cases state <;> first | rfl | exact absurd hm (by decide)

/-- A value is looked for only inside a start tag. -/
theorem isStartTag_of_seek? {state : State} {seek : List Token → Option Token}
    (h : state.seek? = some seek) : state.isStartTag = true := by
  cases state <;> first | rfl | exact nomatch h

/-- A value is looked for behind a name, and behind what is passed over until it comes. -/
theorem seek?_cases {m next : State} {kind : TokenKind} {seek : List Token → Option Token}
    (h : (kind, next) ∈ m.outcomes) (hnext : next.seek? = some seek) :
    kind = .attributeName ∧ seek = Token.assigned? ∨
      (kind = .blank ∨ kind = .assign) ∧ ∃ seek', m.seek? = some seek' ∧
        ∀ (t : Token) (more : List Token), t.kind = kind → seek' (t :: more) = seek more := by
  cases next <;> simp only [seek?, reduceCtorEq] at hnext
  case afterName =>
    obtain rfl := Option.some_inj.1 hnext
    -- Only the name of an attribute leads here.
    cases m <;> simp [outcomes] at h
    · exact .inl ⟨h, rfl⟩
    · subst h
      refine .inr ⟨.inl rfl, _, rfl, fun t more ht => ?_⟩
      rw [Token.assigned?, ht]
  case beforeValue =>
    obtain rfl := Option.some_inj.1 hnext
    -- A blank or the `=` leads here, and the search goes on behind it as before it.
    cases m <;> simp [outcomes] at h
    · subst h
      refine .inr ⟨.inr rfl, _, rfl, fun t more ht => ?_⟩
      rw [Token.assigned?, ht]
    · subst h
      refine .inr ⟨.inl rfl, _, rfl, fun t more ht => ?_⟩
      rw [Token.value?, ht]

/-- A value is taken only where it is looked for. -/
theorem eq_beforeValue_of_value {m next : State}
    (h : (TokenKind.attributeValue, next) ∈ m.outcomes) :
    m = beforeValue := by
  cases m <;> first | rfl | simp [outcomes] at h

/-- The name of an attribute is taken only inside a start tag. -/
theorem eq_inTag_of_name {m next : State} (h : (TokenKind.attributeName, next) ∈ m.outcomes) :
    m = inTag := by
  cases m <;> first | rfl | simp [outcomes] at h

end Scanner.State

/-! ## Attributes of the current element -/

namespace Draft

variable {text : List Char} {past : List Token} {s : Scanner} {d d' : Draft} {id : ElementId}
  {e e' : Element} {token : Token} {length : Nat} {tokens : List Token} {pending : Option String}
  {seek seek' : List Token → Option Token}

/-- The start tag so far ends with the name of an attribute and what has come behind that, and a
value that comes where it is looked for is assigned to the name. The attribute waits for it, unless
it is a repeated one. -/
def Awaits (tokens : List Token) (seek : List Token → Option Token) (pending : Option String) :
    Prop :=
  ∃ front name gap, tokens = front ++ name :: gap ∧ name.kind = .attributeName ∧
    (∀ t ∈ gap, t.kind ≠ .attributeName) ∧ (∀ more, Token.assigned? (gap ++ more) = seek more) ∧
    pending = if Text.lower name.text ∈ (Written.ofTokens front).map Written.key then none
      else some (Text.lower name.text)

/-- One more token is passed over. -/
theorem Awaits.pass (h : Awaits tokens seek pending) (hname : token.kind ≠ .attributeName)
    (hseek : ∀ more, seek (token :: more) = seek' more) :
    Awaits (tokens ++ [token]) seek' pending := by
  obtain ⟨front, name, gap, rfl, hkind, hgap, hassigned, hpending⟩ := h
  refine ⟨front, name, gap ++ [token], by simp, hkind, fun t ht => ?_, fun more => ?_, hpending⟩
  · rcases List.mem_append.1 ht with ht | ht
    · exact hgap t ht
    · rw [List.mem_singleton.1 ht]
      exact hname
  · rw [List.append_assoc, hassigned]
    exact hseek more

/-- Before the value comes, the last attribute has none. -/
theorem Awaits.written (h : Awaits tokens seek pending) (hseek : seek [] = none) :
    ∃ front name, Written.ofTokens tokens = front ++ [⟨name, none⟩] ∧
      pending = (if Text.lower name.text ∈ front.map Written.key then none
        else some (Text.lower name.text)) ∧
      ∀ t, t.kind ≠ .attributeName →
        Written.ofTokens (tokens ++ [t]) = front ++ [⟨name, seek [t]⟩] := by
  obtain ⟨front, name, gap, rfl, hkind, hgap, hassigned, hpending⟩ := h
  have hnone := hassigned []
  rw [List.append_nil, hseek] at hnone
  refine ⟨Written.ofTokens front, name, ?_, hpending, fun t ht => ?_⟩
  · rw [Written.ofTokens_append_name hkind, Written.ofTokens_eq_nil hgap, hnone]
  · have hgap' : ∀ t' ∈ gap ++ [t], t'.kind ≠ .attributeName := by
      intro t' ht'
      rcases List.mem_append.1 ht' with ht' | ht'
      · exact hgap t' ht'
      · rw [List.mem_singleton.1 ht']
        exact ht
    rw [List.append_assoc, List.cons_append, Written.ofTokens_append_name hkind,
      Written.ofTokens_eq_nil hgap', hassigned]

/-- The elements behind a change of the attributes of the current one. -/
theorem get?_attributes (he : d.get? d.current = some e)
    (f : OrderedMap String Attribute → OrderedMap String Attribute) (id : ElementId) :
    (d.adjust d.current fun e => { e with attributes := f e.attributes }).get? id =
      if id = d.current then some { e with attributes := f e.attributes } else d.get? id := by
  by_cases hid : id = d.current
  · subst hid
    rw [if_pos rfl, get?_adjust_self he]
  · rw [if_neg hid, get?_adjust_of_ne hid]

/-- What the last element gains comes behind what the elements have. -/
theorem flatMap_of_last {α : Type} {f g : Element → List α} {more : List α}
    (hlast : id + 1 = d.elements.size)
    (h : ∀ n, (d'.get? n).map g = (d.get? n).map fun e => f e ++ if n = id then more else []) :
    d'.elements.toList.flatMap g = d.elements.toList.flatMap f ++ more := by
  obtain ⟨init, e, hinit⟩ : ∃ init e, d.elements.toList = init ++ [e] := by
    refine (List.eq_nil_or_concat' _).resolve_left fun hnil => ?_
    rw [← Array.length_toList, hnil] at hlast
    exact nomatch hlast
  have hid : id = init.length := by
    rw [← Array.length_toList, hinit, List.length_append] at hlast
    exact Nat.succ_inj.1 hlast
  have hget : d.get? id = some e := by
    show d.elements[id]? = some e
    rw [← Array.getElem?_toList, hinit, hid]
    simp
  -- By `h` the lists of all but the last element are as before.
  have hmap : d'.elements.toList.map g = (d.elements.toList.map f).dropLast ++ [f e ++ more] := by
    refine map_of_last hlast fun n => ?_
    rw [h n]
    split
    next heq => rw [heq, hget, Option.map_some]
    next => simp
  rw [List.flatMap_def, List.flatMap_def, hmap, hinit]
  simp

/-- What the name of an attribute does inside the start tag of the current element: the first of a
name is added and waits, and a repeated one is reported. -/
structure AddsName (token : Token) (e : Element) (d d' : Draft) : Prop where
  /-- The current element gets the attribute, if it does not have it. -/
  elements : ∀ id, d'.get? id = if id = d.current then
    some { e with
      attributes := if e.attributes.contains (Text.lower token.text) then e.attributes
        else e.attributes.insert (Text.lower token.text) ⟨token.text, token.span, none, none⟩ }
    else d.get? id
  /-- It waits then. -/
  pending : d'.pending = if e.attributes.contains (Text.lower token.text) then none
    else some (Text.lower token.text)
  /-- Otherwise there is a remark. -/
  repeated : Diagnostic.withCode .repeatedAttribute d'.log.toList =
    Diagnostic.withCode .repeatedAttribute d.log.toList ++
      if e.attributes.contains (Text.lower token.text) then
        [(Cause.repeatedAttribute token.text).on token.span]
      else []

/-- The name of an attribute inside the start tag of the current element. -/
theorem addsName_addAttribute (he : d.get? d.current = some e) (htag : d.inStartTag = true)
    (token : Token) : AddsName token e d (d.addAttribute token) := by
  have htag' : inStartTag { d with pending := none } = true := htag
  have he' : get? { d with pending := none } d.current = some e := he
  unfold addAttribute
  dsimp only
  rw [htag', if_neg (by decide), he', Option.any_some]
  -- A name that the element has is reported and not added; otherwise it is added and nothing is
  -- reported.
  by_cases hcontains : e.attributes.contains (Text.lower token.text) = true
  · rw [if_pos hcontains]
    refine ⟨fun id => ?_, (if_pos hcontains).symm, ?_⟩
    · rw [if_pos hcontains]
      split
      next hid => exact hid ▸ he
      next => rfl
    · rw [if_pos hcontains]
      exact Diagnostic.withCode_add_self rfl d.log
  · rw [if_neg hcontains]
    refine ⟨fun id => ?_, (if_neg hcontains).symm, ?_⟩
    · rw [if_neg hcontains]
      exact get?_attributes he (·.insert (Text.lower token.text)
        ⟨token.text, token.span, none, none⟩) id
    · rw [if_neg hcontains]
      exact (List.append_nil _).symm

/-- A value goes to the attribute of the current element that waits for it. -/
theorem get?_setValue (he : d.get? d.current = some e) (token : Token) (id : ElementId) :
    (d.setValue token).get? id = if id = d.current then
      some { e with attributes := d.pending.elim e.attributes fun key =>
        e.attributes.adjust key fun a =>
          { a with value := some (unquote token.text), valueSpan := some token.span } }
      else d.get? id := by
  unfold setValue
  split
  next hpending =>
    rw [hpending]
    split
    next hid => exact hid ▸ he
    next => rfl
  next key hpending =>
    rw [hpending]
    exact get?_attributes (d := { d with pending := none }) he (·.adjust key fun a =>
      { a with value := some (unquote token.text), valueSpan := some token.span }) id

/-! ## One token -/

/-- There is one remark for each repeated attribute of the start tags. -/
def Remarks (tokens : List Token) (d : Draft) : Prop :=
  Diagnostic.withCode .repeatedAttribute d.log.toList =
    d.elements.toList.flatMap (Element.repeats tokens)

/-- After the tokens so far, the attributes of every element are those that its start tag writes. -/
structure Attributed (text : List Char) (past : List Token) (s : Scanner) (d : Draft) : Prop
    extends Locked text past s d where
  /-- The first attributes of each name. -/
  attributes : ∀ {id e}, d.get? id = some e → e.Faithful past
  /-- One remark for each repeated attribute. -/
  repeated : d.Remarks past
  /-- Where a value is looked for, the attribute in front of it waits. -/
  waits : ∀ {seek e}, s.state.seek? = some seek → d.get? d.current = some e →
    Awaits (e.startTag past) seek d.pending

namespace Locked

/-- The start tag of an element that is not the current one is closed. -/
theorem exists_stop (h : d.Locked text past s) (he : d.get? id = some e) (hid : id ≠ d.current) :
    ∃ stop, e.startTagEnd = some stop ∧ stop ≤ s.scan.token.span.start := by
  obtain ⟨stack, hfits⟩ := h.fits
  have hne : e.startTagEnd ≠ none := fun hnone => hid (hfits.eq_current ⟨_, shapes_eq he, hnone⟩)
  obtain ⟨stop, hstop⟩ := Option.ne_none_iff_exists'.1 hne
  refine ⟨stop, hstop, ?_⟩
  rw [start_scan]
  exact (h.ended he hstop).1

/-- An element whose start tag is open begins in front of the next token. -/
theorem start_lt (h : d.Locked text past s) (he : d.get? id = some e)
    (hopen : e.startTagEnd = none) :
    e.start < s.scan.token.span.start := by
  obtain ⟨stack, hfits⟩ := h.fits
  have hs := shapes_eq he
  rw [start_scan]
  exact hfits.laid.start_lt hs (hfits.laid.ne_root_of_unclosed hs hopen)

/-- Inside a start tag the current element is there, and its start tag is open. -/
theorem exists_open (h : d.Locked text past s) (hstate : s.state.isStartTag = true) :
    ∃ e, d.get? d.current = some e ∧ e.startTagEnd = none ∧ d.inStartTag = true := by
  obtain ⟨stack, hfits⟩ := h.fits
  have hopen := h.tagged hstate
  have htag := hfits.inStartTag hopen
  obtain ⟨-, e, he, hnone⟩ := (inStartTag_iff d).1 htag
  exact ⟨e, he, hnone, htag⟩

/-- What is no part of an attribute leaves the attributes that start tags write. -/
theorem written_carries (h : d.Locked text past s) (hname : s.scan.token.kind ≠ .attributeName)
    (hvalue : s.scan.token.kind ≠ .attributeValue) (he : d.get? id = some e)
    (hcarries : e.Carries s.scan.token e') :
    e'.written (past ++ [s.scan.token]) = e.written past := by
  refine hcarries.written hname hvalue (fun t ht => ?_) ?_ (h.start_lt he) fun stop hstop => ?_
  · rw [start_scan]
    obtain ⟨hlt, hle⟩ := h.before t ht
    exact Nat.lt_of_lt_of_le hlt hle
  · rw [start_scan, stop_scan]
    exact s.offset_le_scan
  · rw [start_scan]
    exact (h.ended he hstop).1

/-- Other elements than the current one keep the attributes that their start tags write. -/
theorem written_of_ne (h : d.Locked text past s) (he : d.get? id = some e) (hid : id ≠ d.current) :
    e.written (past ++ [s.scan.token]) = e.written past := by
  obtain ⟨stop, hstop, hle⟩ := h.exists_stop he hid
  unfold Element.written
  rw [Element.startTag_concat_of_le hstop hle]

/-- An element that begins at the next token writes nothing so far. -/
theorem written_fresh (h : d.Locked text past s) (hstart : e.start = s.scan.token.span.start) :
    e.written (past ++ [s.scan.token]) = [] := by
  have hnil : e.startTag (past ++ [s.scan.token]) = [] := by
    refine Element.startTag_eq_nil fun t ht => ?_
    rw [hstart]
    rcases List.mem_append.1 ht with ht | ht
    · obtain ⟨hlt, hle⟩ := h.before t ht
      rw [start_scan]
      exact Nat.le_of_lt (Nat.lt_of_lt_of_le hlt hle)
    · rw [List.mem_singleton.1 ht]
  unfold Element.written
  rw [hnil]
  rfl

end Locked

namespace Attributed

/-- The keys of an element are those that its start tag writes. -/
theorem contains_iff (h : d.Attributed text past s) (he : d.get? id = some e) (k : String) :
    e.attributes.contains k = true ↔ k ∈ (e.written past).map Written.key := by
  have hkeys : e.attributes.keys = (Written.firsts (e.written past)).map Written.key := by
    unfold OrderedMap.keys
    rw [h.attributes he, List.map_map]
    rfl
  have hmem : k ∈ e.attributes.keys ↔ k ∈ (e.written past).map Written.key := by
    rw [hkeys]
    exact Written.mem_map_sift.trans (and_iff_left List.not_mem_nil)
  rw [← hmem, OrderedMap.contains, Option.isSome_iff_ne_none, ne_eq, OrderedMap.get?_eq_none_iff,
    Decidable.not_not]

/-- Inside a start tag stands the name of an attribute, and the current element is the one it adds
to. -/
theorem addsName_take (h : d.Attributed text past s) (hkind : s.scan.token.kind = .attributeName)
    (schema : Schema) (length : Nat) :
    ∃ e, d.get? d.current = some e ∧ e.startTagEnd = none ∧
      AddsName s.scan.token e d (d.take schema length s.scan) := by
  -- A name is only read in a start tag, so the tag of some element is open.
  have hstate : s.state.isStartTag = true := by
    rcases s.scan_spec.outcome with ⟨-, hend, -⟩ | ⟨m, hm, hmem⟩
    · exact TokenKind.noConfusion (hend.symm.trans hkind)
    · rw [hkind] at hmem
      obtain rfl := Scanner.State.eq_inTag_of_name hmem
      exact Scanner.State.isStartTag_of_reach hm rfl
  obtain ⟨e, he, hopen, htag⟩ := h.exists_open hstate
  -- A diagnostic of the scanner comes into the log before, and it is not about a repeated name.
  have hfound : d.Carries ⟨.blank, .point 0, ""⟩
      { d with log := s.scan.diagnostic.elim d.log d.log.add } := d.carries_found s.lexical_scan
  have hadds := addsName_addAttribute
    (d := { d with log := s.scan.diagnostic.elim d.log d.log.add }) he htag s.scan.token
  have htake : d.take schema length s.scan = addAttribute
      { d with log := s.scan.diagnostic.elim d.log d.log.add } s.scan.token := by
    unfold take step
    rw [hkind]
  refine ⟨e, he, hopen, htake ▸ ⟨hadds.elements, hadds.pending, ?_⟩⟩
  rw [hadds.repeated, hfound.repeated fun hname => TokenKind.noConfusion hname]

/-- The value of an attribute comes where one is looked for, and goes to the attribute that waits.
-/
theorem get?_value_take (h : d.Attributed text past s) (hkind : s.scan.token.kind = .attributeValue)
    (schema : Schema) (length : Nat) :
    ∃ e front name, d.get? d.current = some e ∧
      e.written past = front ++ [⟨name, none⟩] ∧
      e.written (past ++ [s.scan.token]) = front ++ [⟨name, some s.scan.token⟩] ∧
      ∀ id, (d.take schema length s.scan).get? id = if id = d.current then
        some { e with attributes :=
          if Text.lower name.text ∈ front.map Written.key then e.attributes
          else e.attributes.adjust (Text.lower name.text) fun a =>
            { a with
              value := some (unquote s.scan.token.text)
              valueSpan := some s.scan.token.span } }
        else d.get? id := by
  -- Only behind `=` a value is taken.
  have hstate : s.state = .beforeValue := by
    rcases s.scan_spec.outcome with ⟨-, hend, -⟩ | ⟨m, hm, hmem⟩
    · exact TokenKind.noConfusion (hend.symm.trans hkind)
    · rw [hkind] at hmem
      obtain rfl := Scanner.State.eq_beforeValue_of_value hmem
      exact Scanner.State.eq_of_seek? hm rfl
  obtain ⟨e, he, hopen, -⟩ := h.exists_open (by rw [hstate]; rfl)
  -- The last thing written in the start tag is a name, and the value goes to that.
  have hwaits := h.waits (by rw [hstate]; rfl) he
  obtain ⟨front, name, hwritten, hpending, hnext⟩ := hwaits.written rfl
  have hvalue : Token.value? [s.scan.token] = some s.scan.token := by rw [Token.value?, hkind]
  have htag := Element.startTag_concat_of_open hopen (h.start_lt he hopen) past
  have hconcat := hnext s.scan.token (by rw [hkind]; exact fun heq => TokenKind.noConfusion heq)
  rw [hvalue, ← htag] at hconcat
  refine ⟨e, front, name, he, hwritten, hconcat, fun id => ?_⟩
  have hset := get?_setValue (d := { d with log := s.scan.diagnostic.elim d.log d.log.add }) he
    s.scan.token id
  unfold take step
  rw [hkind]
  dsimp only at hset ⊢
  rw [hset, hpending]
  -- A name that was written before has no attribute of its own, and its value is dropped.
  by_cases hrepeated : Text.lower name.text ∈ front.map Written.key
  · rw [if_pos hrepeated, if_pos hrepeated]
    rfl
  · rw [if_neg hrepeated, if_neg hrepeated]
    rfl

/-- A name writes one more attribute, without a value so far. -/
theorem written_name (h : d.Attributed text past s) (hkind : s.scan.token.kind = .attributeName)
    (he : d.get? id = some e) (hopen : e.startTagEnd = none) :
    e.written (past ++ [s.scan.token]) = e.written past ++ [⟨s.scan.token, none⟩] := by
  unfold Element.written
  rw [Element.startTag_concat_of_open hopen (h.start_lt he hopen),
    Written.ofTokens_append_name hkind]
  rfl

/-- What is no part of an attribute leaves those of an element. -/
theorem attributes_carries (h : d.Attributed text past s)
    (hname : s.scan.token.kind ≠ .attributeName) (hvalue : s.scan.token.kind ≠ .attributeValue)
    (he : d.get? id = some e) (hcarries : e.Carries s.scan.token e') :
    e'.Faithful (past ++ [s.scan.token]) := by
  exact (h.attributes he).congr (h.written_carries hname hvalue he hcarries)
    (hcarries.attributes hname hvalue)

/-- A name adds an attribute to the current element, if it comes for the first time. -/
theorem attributes_name (h : d.Attributed text past s) (hkind : s.scan.token.kind = .attributeName)
    (schema : Schema) (he' : (d.take schema length s.scan).get? id = some e') :
    e'.Faithful (past ++ [s.scan.token]) := by
  obtain ⟨e, he, hopen, hadds⟩ := h.addsName_take hkind schema length
  rw [hadds.elements] at he'
  by_cases hid : id = d.current
  · subst hid
    rw [if_pos rfl] at he'
    obtain rfl := Option.some_inj.1 he'
    have hold : e.attributes.entries = _ := h.attributes he
    have hiff := h.contains_iff he (Text.lower s.scan.token.text)
    show _ = (Written.firsts (e.written (past ++ [s.scan.token]))).map Written.entry
    rw [h.written_name hkind he hopen, Written.firsts_concat, Written.key_mk]
    -- By `contains_iff` the element has the key iff an earlier token of its tag wrote it.
    by_cases hcontains : e.attributes.contains (Text.lower s.scan.token.text) = true
    · rw [if_pos hcontains, if_pos (hiff.1 hcontains)]
      exact hold
    · have hnone : e.attributes.get? (Text.lower s.scan.token.text) = none :=
        Option.not_isSome_iff_eq_none.1 hcontains
      rw [if_neg hcontains, if_neg (mt hiff.2 hcontains),
        OrderedMap.entries_insert_of_get?_eq_none hnone, hold, List.map_append]
      rfl
  · rw [if_neg hid] at he'
    exact (h.attributes he').congr (h.written_of_ne he' hid) rfl

/-- A value goes to the last attribute of the current element, if its name came for the first time.
-/
theorem attributes_value (h : d.Attributed text past s)
    (hkind : s.scan.token.kind = .attributeValue) (schema : Schema)
    (he' : (d.take schema length s.scan).get? id = some e') :
    e'.Faithful (past ++ [s.scan.token]) := by
  obtain ⟨e, front, name, he, hwritten, hnext, hget⟩ := h.get?_value_take hkind schema length
  rw [hget] at he'
  by_cases hid : id = d.current
  · subst hid
    rw [if_pos rfl] at he'
    obtain rfl := Option.some_inj.1 he'
    have hold : e.attributes.entries = _ := h.attributes he
    rw [hwritten, Written.firsts_concat, Written.key_mk] at hold
    show _ = (Written.firsts (e.written (past ++ [s.scan.token]))).map Written.entry
    rw [hnext, Written.firsts_concat, Written.key_mk]
    -- The value of a repeated name is dropped here and is not among the first occurrences there.
    by_cases hrepeated : Text.lower name.text ∈ front.map Written.key
    · rw [if_pos hrepeated] at hold
      rw [if_pos hrepeated, if_pos hrepeated]
      exact hold
    · rw [if_neg hrepeated, List.map_append] at hold
      rw [if_neg hrepeated, if_neg hrepeated, List.map_append]
      exact OrderedMap.entries_adjust_concat hold _
  · rw [if_neg hid] at he'
    exact (h.attributes he').congr (h.written_of_ne he' hid) rfl

/-- The attributes of every element are those that its start tag writes. -/
theorem attributes_take (h : d.Attributed text past s) (schema : Schema)
    (he' : (d.take schema length s.scan).get? id = some e') :
    e'.Faithful (past ++ [s.scan.token]) := by
  by_cases hname : s.scan.token.kind = .attributeName
  · exact h.attributes_name hname schema he'
  by_cases hvalue : s.scan.token.kind = .attributeValue
  · exact h.attributes_value hvalue schema he'
  rcases get?_take_cases he' with ⟨e, he, hcarries⟩ | ⟨-, -, parent, rfl⟩
  · exact h.attributes_carries hname hvalue he hcarries
  · unfold Element.Faithful
    rw [h.written_fresh rfl]
    rfl

/-- The remarks on other elements than the current one stay. -/
theorem map_repeats_of_ne (h : d.Attributed text past s) (hid : id ≠ d.current) :
    (d.get? id).map (Element.repeats (past ++ [s.scan.token])) =
      (d.get? id).map (Element.repeats past) := by
  cases he : d.get? id with
  | none => rfl
  | some e =>
    unfold Element.repeats
    rw [Option.map_some, Option.map_some, h.written_of_ne he hid]

/-- What is no part of an attribute leaves the remarks on repeated ones. -/
theorem map_repeats_carries (h : d.Attributed text past s)
    (hname : s.scan.token.kind ≠ .attributeName) (hvalue : s.scan.token.kind ≠ .attributeValue)
    (hcarries : d.Carries s.scan.token d') :
    d'.elements.toList.map (Element.repeats (past ++ [s.scan.token])) =
      d.elements.toList.map (Element.repeats past) := by
  refine hcarries.map_toList fun he hcarries => ?_
  unfold Element.repeats
  rw [h.written_carries hname hvalue he hcarries]

/-- What is no part of an attribute repeats none. -/
theorem repeated_carries (h : d.Attributed text past s)
    (hname : s.scan.token.kind ≠ .attributeName) (hvalue : s.scan.token.kind ≠ .attributeValue)
    (hcarries : d.Carries s.scan.token d') :
    d'.Remarks (past ++ [s.scan.token]) := by
  have hbefore := h.repeated
  unfold Remarks at hbefore ⊢
  rw [hcarries.repeated hname, hbefore, List.flatMap_def, List.flatMap_def,
    h.map_repeats_carries hname hvalue hcarries]

/-- A `<` begins an element that writes nothing so far. -/
theorem repeated_tagOpen (h : d.Attributed text past s) (hkind : s.scan.token.kind = .tagOpen)
    (schema : Schema) (length : Nat) :
    (d.take schema length s.scan).Remarks (past ++ [s.scan.token]) := by
  obtain ⟨d', hcarries, htake⟩ := exists_carries_take schema length d hkind
  have hname : s.scan.token.kind ≠ .attributeName := hkind ▸ TokenKind.noConfusion
  have hvalue : s.scan.token.kind ≠ .attributeValue := hkind ▸ TokenKind.noConfusion
  have hnoted : d'.Carries s.scan.token (d'.noteTopLevel s.scan.token.span) :=
    d'.carries_noteTopLevel s.scan.token.span
  have hfresh : Element.repeats (past ++ [s.scan.token])
      { start := s.scan.token.span.start, stop := length, parent := some d'.current } = [] := by
    unfold Element.repeats
    rw [h.written_fresh rfl]
    rfl
  unfold Remarks
  rw [htake, List.flatMap_def, map_toList_begin (fun _ _ => rfl), hfresh, List.flatten_concat,
    List.append_nil, ← List.flatMap_def]
  exact (hnoted.repeated hname).trans (h.repeated_carries hname hvalue hcarries)

/-- A repeated name is reported behind all others, since the current element is the last one. -/
theorem repeated_name (h : d.Attributed text past s) (hkind : s.scan.token.kind = .attributeName)
    (schema : Schema) (length : Nat) :
    (d.take schema length s.scan).Remarks (past ++ [s.scan.token]) := by
  obtain ⟨e, he, hopen, hadds⟩ := h.addsName_take hkind schema length
  have hiff := h.contains_iff he (Text.lower s.scan.token.text)
  have hbefore := h.repeated
  unfold Remarks at hbefore ⊢
  rw [hadds.repeated, hbefore]
  -- The reports are grouped by element. The new one stands last because the element it is about is
  -- last.
  refine (flatMap_of_last (h.last ⟨_, shapes_eq he, hopen⟩) fun id => ?_).symm
  rw [hadds.elements]
  by_cases hid : id = d.current
  · subst hid
    rw [if_pos rfl, if_pos rfl, he]
    refine congrArg some ?_
    show (Written.repeats (e.written (past ++ [s.scan.token]))).map Written.remark = _
    rw [h.written_name hkind he hopen, Written.repeats_concat, Written.key_mk]
    by_cases hcontains : e.attributes.contains (Text.lower s.scan.token.text) = true
    · rw [if_pos hcontains, if_pos (hiff.1 hcontains), List.map_append]
      rfl
    · rw [if_neg hcontains, if_neg (mt hiff.2 hcontains)]
      exact (List.append_nil _).symm
  · rw [if_neg hid, if_neg hid, h.map_repeats_of_ne hid]
    simp only [List.append_nil]

/-- A value changes no remark, since remarks are about names. -/
theorem repeated_value (h : d.Attributed text past s)
    (hkind : s.scan.token.kind = .attributeValue) (schema : Schema) (length : Nat) :
    (d.take schema length s.scan).Remarks (past ++ [s.scan.token]) := by
  obtain ⟨e, front, name, he, hwritten, hnext, hget⟩ := h.get?_value_take hkind schema length
  have hopen : s.scan.token.kind ≠ .tagOpen := hkind ▸ TokenKind.noConfusion
  have hname : s.scan.token.kind ≠ .attributeName := hkind ▸ TokenKind.noConfusion
  have hbefore := h.repeated
  unfold Remarks at hbefore ⊢
  rw [(carries_take schema length d hopen).repeated hname, hbefore]
  refine congrArg List.flatten (map_toList_congr fun id => ?_).symm
  rw [hget]
  by_cases hid : id = d.current
  · subst hid
    rw [if_pos rfl, he]
    refine congrArg some ?_
    show (Written.repeats (e.written (past ++ [s.scan.token]))).map Written.remark =
      (Written.repeats (e.written past)).map Written.remark
    rw [hnext, hwritten, Written.repeats_concat, Written.repeats_concat, Written.key_mk,
      Written.key_mk]
    -- In either case the remark is made of key and name, which the value does not touch.
    by_cases hrepeated : Text.lower name.text ∈ front.map Written.key
    · rw [if_pos hrepeated, if_pos hrepeated, List.map_append, List.map_append]
      rfl
    · rw [if_neg hrepeated, if_neg hrepeated]
  · rw [if_neg hid, h.map_repeats_of_ne hid]

/-- There is a remark for each repeated attribute. -/
theorem repeated_take (h : d.Attributed text past s) (schema : Schema) (length : Nat) :
    (d.take schema length s.scan).Remarks (past ++ [s.scan.token]) := by
  by_cases hopen : s.scan.token.kind = .tagOpen
  · exact h.repeated_tagOpen hopen schema length
  by_cases hname : s.scan.token.kind = .attributeName
  · exact h.repeated_name hname schema length
  by_cases hvalue : s.scan.token.kind = .attributeValue
  · exact h.repeated_value hvalue schema length
  exact h.repeated_carries hname hvalue (carries_take schema length d hopen)

/-- Where a value is looked for, the attribute in front of it waits. -/
theorem waits_take (h : d.Attributed text past s) (hrest : s.rest ≠ []) (schema : Schema)
    (hseek : s.scan.after.state.seek? = some seek)
    (he' : (d.take schema length s.scan).get? (d.take schema length s.scan).current = some e') :
    Awaits (e'.startTag (past ++ [s.scan.token])) seek (d.take schema length s.scan).pending := by
  rcases s.scan_spec.outcome with ⟨hnil, -⟩ | ⟨m, hm, hmem⟩
  · exact absurd hnil hrest
  rcases Scanner.State.seek?_cases hmem hseek with ⟨hname, rfl⟩ | ⟨hkind, seek', hseek', hpass⟩
  · -- The name of an attribute waits, unless it is a repeated one.
    obtain ⟨e, he, hnone, hadds⟩ := h.addsName_take hname schema length
    have hcurrent := (same_take schema length d (by rw [hname]; rfl)).current
    rw [hcurrent, hadds.elements, if_pos rfl] at he'
    obtain rfl := Option.some_inj.1 he'
    have hiff := h.contains_iff he (Text.lower s.scan.token.text)
    refine ⟨e.startTag past, s.scan.token, [], ?_, hname, List.forall_mem_nil _, fun _ => rfl, ?_⟩
    · exact Element.startTag_concat_of_open hnone (h.start_lt he hnone) past
    · rw [hadds.pending]
      exact if_congr hiff rfl rfl
  · -- What is passed over leaves the draft.
    have htake : d.take schema length s.scan =
        { d with log := s.scan.diagnostic.elim d.log d.log.add } := by
      unfold take step
      rcases hkind with hkind | hkind <;> rw [hkind]
    rw [htake] at he' ⊢
    have he : d.get? d.current = some e' := he'
    obtain rfl := Scanner.State.eq_of_seek? hm hseek'
    have hopen : e'.startTagEnd = none := by
      obtain ⟨e, hsome, hnone, -⟩ := h.exists_open (Scanner.State.isStartTag_of_seek? hseek')
      obtain rfl := Option.some_inj.1 (he.symm.trans hsome)
      exact hnone
    rw [Element.startTag_concat_of_open hopen (h.start_lt he hopen)]
    refine (h.waits hseek' he).pass ?_ fun more => hpass _ more rfl
    rcases hkind with hkind | hkind <;> rw [hkind] <;> exact TokenKind.noConfusion

/-- Every step in front of the end of the text keeps the attributes. -/
theorem take (h : d.Attributed text past s) (hrest : s.rest ≠ []) (schema : Schema) :
    (d.take schema (Text.byteLength text) s.scan).Attributed text (past ++ [s.scan.token])
      s.scan.after :=
  { h.toLocked.take hrest schema with
    attributes := h.attributes_take schema
    repeated := h.repeated_take schema _
    waits := h.waits_take hrest schema }

end Attributed

/-- In the beginning there are no attributes. -/
theorem attributed_start (rootType : Option TypeId) (text : String) :
    (start (Text.byteLength text.toList) rootType).Attributed text.toList []
      (Scanner.ofText text) := by
  refine { locked_start rootType text with
    attributes := fun {id e} he => ?_
    repeated := rfl
    waits := fun hseek => nomatch hseek }
  cases id with
  | zero =>
    obtain rfl := Option.some_inj.1 he
    rfl
  | succ id => exact nomatch he

/-- At the end of the text the attributes of every element are those that its start tag writes. -/
theorem attributed_ofText (schema : Schema) (rootType : Option TypeId) (text : String) :
    (∀ {id e}, (ofText schema rootType text).get? id = some e →
      e.Faithful ((tokenize text).map Scanned.token)) ∧
    (ofText schema rootType text).Remarks ((tokenize text).map Scanned.token) := by
  obtain ⟨past, s, d, hnil, hP, htokens, hfinish⟩ := exists_history schema
    (attributed_start rootType text) fun hrest hP => hP.take hrest schema
  have htoken := Scanner.token_scan_of_end hP.within hnil
  have hkind : s.scan.token.kind = .endOfText := congrArg Token.kind htoken
  have hname : s.scan.token.kind ≠ .attributeName := hkind ▸ TokenKind.noConfusion
  have hvalue : s.scan.token.kind ≠ .attributeValue := hkind ▸ TokenKind.noConfusion
  have hcarries := carries_finish schema d (congrArg (·.span.stop) htoken).symm
  rw [htokens, hfinish]
  refine ⟨fun he' => ?_, hP.repeated_carries hname hvalue hcarries⟩
  obtain ⟨e, he, hcarried⟩ := hcarries.elements he'
  exact hP.attributes_carries hname hvalue he hcarried

end Draft

end LayoutMarkup
