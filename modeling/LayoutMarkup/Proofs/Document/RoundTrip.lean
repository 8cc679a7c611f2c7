import LayoutMarkup.Document.Parse
import LayoutMarkup.Proofs.Document.Growing
import LayoutMarkup.Proofs.Token.Stability

/-!
# Reading canonical markup back

A document that was read from canonical markup without a root type shows that markup, and there is
nothing to report (`Document.parse_render`).

Reading is followed piece by piece: `Draft.Leads` says where the scanner and the draft stand behind
a piece, whatever comes next. Two pieces need care. A tag is followed by something that does not
belong to it (`Ready.leads_start`). A text may be taken together with the text that comes next, but
texts leave the draft as it is, so they can be cut anywhere (`leads_text`).
-/

namespace LayoutMarkup

open Scanner (State)

/-- Whether tokens of a kind belong to texts, comments or headers. -/
def TokenKind.isAside : TokenKind → Bool
  | content | commentOpen | comment | commentClose | headerOpen | header | headerClose => true
  | _ => false

namespace Draft

variable {schema : Schema} {length : Nat} {d d' : Draft}

/-! ## Reading -/

/-- The draft after a scanner has read the rest of its text. -/
def read (schema : Schema) (length : Nat) (d : Draft) (s : Scanner) : Draft :=
  s.run.foldl (take schema length) d

/-- At the end of the text nothing is left to read. -/
theorem read_nil (schema : Schema) (length : Nat) (d : Draft) (offset : Nat) (state : State) :
    d.read schema length ⟨[], offset, state⟩ = d := by
  unfold read
  rw [Scanner.run, dif_pos rfl, Scanner.scan, Scanner.advance_of_take rfl]
  rfl

/-- Reading goes on behind a step. -/
theorem read_scan {s : Scanner} (h : s.rest ≠ []) (d : Draft) :
    d.read schema length s = (d.take schema length s.scan).read schema length s.scan.after := by
  unfold read
  rw [Scanner.run, dif_neg h, List.foldl_cons]

/-- Reading goes on behind a token. -/
theorem read_take {state next : State} {cs lexeme rest : List Char} {kind : TokenKind}
    (h : state.move cs = .take kind lexeme rest next none) (hne : cs ≠ []) (d : Draft)
    (offset : Nat) :
    d.read schema length ⟨cs, offset, state⟩ =
      (d.step schema length
        ⟨kind, ⟨offset, offset + Text.byteLength lexeme⟩, String.ofList lexeme⟩).read schema length
          ⟨rest, offset + Text.byteLength lexeme, next⟩ := by
  rw [read_scan hne, Scanner.scan, Scanner.advance_of_take h]
  rfl

/-- Reading a piece in a state leads to a state and to a draft with a property, whatever comes
next. -/
def Leads (schema : Schema) (length : Nat) (d : Draft) (state : State) (piece : List Char)
    (next : State) (P : Draft → Prop) : Prop :=
  ∀ offset rest, ∃ offset' d',
    d.read schema length ⟨piece ++ rest, offset, state⟩ =
      d'.read schema length ⟨rest, offset', next⟩ ∧ P d'

/-- Reading goes on behind a piece. -/
theorem Leads.trans {state state' state'' : State} {piece piece' : List Char} {P Q : Draft → Prop}
    (h : d.Leads schema length state piece state' P)
    (h' : ∀ d', P d' → d'.Leads schema length state' piece' state'' Q) :
    d.Leads schema length state (piece ++ piece') state'' Q := by
  intro offset rest
  obtain ⟨offset', d', hread, hP⟩ := h offset (piece' ++ rest)
  obtain ⟨offset'', d'', hread', hQ⟩ := h' d' hP offset' rest
  exact ⟨offset'', d'', by rw [List.append_assoc, hread, hread'], hQ⟩

/-! ## Texts and comments -/

/-- Outside of tags, everything up to the next `<` is passed over. -/
theorem read_content (schema : Schema) (length : Nat) (d : Draft) (offset : Nat) (cs : List Char) :
    d.read schema length ⟨cs, offset, .content⟩ =
      d.read schema length ⟨cs.dropWhile (· != '<'),
        offset + Text.byteLength (cs.takeWhile (· != '<')), .content⟩ := by
  cases cs with
  | nil => rfl
  | cons c rest =>
    by_cases hc : c = '<'
    · subst hc
      rfl
    · exact read_take (State.move_content hc rest) (List.cons_ne_nil c rest) d offset

/-- A text without `<` leaves the draft as it is. -/
theorem leads_text {value : List Char} (hvalue : '<' ∉ value) :
    d.Leads schema length .content value .content (· = d) := by
  intro offset rest
  have hall : ∀ c ∈ value, (c != '<') = true := by
    intro c hc
    rw [bne_iff_ne]
    rintro rfl
    exact hvalue hc
  refine ⟨offset + Text.byteLength value, d, ?_, rfl⟩
  -- The text is passed over together with what comes next up to a `<`, and so is that alone.
  rw [read_content, List.dropWhile_append_of_pos hall, List.takeWhile_append_of_pos hall,
    Text.byteLength_append, ← Nat.add_assoc, ← read_content]

/-- Texts, comments and headers are passed over. -/
theorem step_of_isAside {token : Token} (h : token.kind.isAside = true) :
    d.step schema length token = d := by
  unfold step
  cases hkind : token.kind <;> simp_all [TokenKind.isAside]

/-- What stands between two marks leaves the draft as it is, if its tokens are passed over. -/
theorem leads_enclosed {opening body mark : List Char} {state : State}
    {openKind bodyKind closeKind : TokenKind}
    (hopen : ∀ rest, State.content.move (opening ++ rest) = .take openKind opening rest state none)
    (hbody : body ≠ [] → ∀ rest, state.move (body ++ (mark ++ rest)) =
      .take bodyKind body (mark ++ rest) state none)
    (hclose : ∀ rest, state.move (mark ++ rest) = .take closeKind mark rest .content none)
    (hopening : opening ≠ []) (hmark : mark ≠ [])
    (haside : openKind.isAside ∧ bodyKind.isAside ∧ closeKind.isAside) :
    d.Leads schema length .content (opening ++ (body ++ mark)) .content (· = d) := by
  intro offset rest
  rw [List.append_assoc, List.append_assoc,
    read_take (hopen _) (List.append_ne_nil_of_left_ne_nil hopening _), step_of_isAside haside.1]
  by_cases hne : body = []
  · subst hne
    rw [List.nil_append, read_take (hclose rest) (List.append_ne_nil_of_left_ne_nil hmark _),
      step_of_isAside haside.2.2]
    exact ⟨_, d, rfl, rfl⟩
  · rw [read_take (hbody hne rest) (List.append_ne_nil_of_left_ne_nil hne _),
      step_of_isAside haside.2.1,
      read_take (hclose rest) (List.append_ne_nil_of_left_ne_nil hmark _),
      step_of_isAside haside.2.2]
    exact ⟨_, d, rfl, rfl⟩

/-- A comment leaves the draft as it is. -/
theorem leads_comment {body : List Char} (hbody : ¬ ['-', '-', '>'] <:+: body) :
    d.Leads schema length .content (['<', '!', '-', '-'] ++ (body ++ ['-', '-', '>'])) .content
      (· = d) :=
  leads_enclosed (fun _ => rfl) (fun hne => State.move_comment hne hbody) (fun _ => rfl)
    (List.cons_ne_nil _ _) (List.cons_ne_nil _ _) (by decide)

/-- A header leaves the draft as it is. -/
theorem leads_header {body : List Char} (hbody : ¬ ['?', '>'] <:+: body) :
    d.Leads schema length .content (['<', '?'] ++ (body ++ ['?', '>'])) .content (· = d) :=
  leads_enclosed (fun _ => rfl) (fun hne => State.move_header hne hbody) (fun _ => rfl)
    (List.cons_ne_nil _ _) (List.cons_ne_nil _ _) (by decide)

/-! ## Start tags -/

/-- A draft has grown by an element with a tag and some attributes that nothing stands in yet. -/
structure Begun (d : Draft) (tag : String) (attributes : List (String × String)) (d' : Draft)
    (e : Element) : Prop extends d.Inside d' e where
  /-- The new element is the only one. -/
  size : d'.elements.size = d.elements.size + 1
  /-- Nothing stands in it. -/
  children : e.children = []
  /-- It has the tag. -/
  tag : e.tag = some tag
  /-- It has the attributes. -/
  attributes : e.attributes.entries.map (fun entry => (entry.1, entry.2.name, entry.2.value)) =
    attributes.map fun a => (Text.lower a.1, a.1, some a.2)

variable {tag : String} {attributes done : List (String × String)} {a : String × String}
  {children : List Markup} {e : Element}

/-- The keys of the attributes are their names in small letters. -/
theorem Begun.keys (h : d.Begun tag attributes d' e) :
    e.attributes.keys = attributes.map fun a => Text.lower a.1 := by
  have hkeys := congrArg (List.map Prod.fst) h.attributes
  rwa [List.map_map, List.map_map] at hkeys

/-- The attributes are there with their names and values. -/
theorem Begun.values (h : d.Begun tag attributes d' e) :
    e.attributes.values.map (fun a => (a.name, a.value)) =
      attributes.map fun a => (a.1, some a.2) := by
  have hvalues := congrArg (List.map Prod.snd) h.attributes
  rw [List.map_map, List.map_map] at hvalues
  unfold OrderedMap.values
  rwa [List.map_map]

/-- A value in quotes is the value without them. -/
theorem unquote_quoted (value : String) :
    unquote (String.ofList ('"' :: (value.toList ++ ['"']))) = value := by
  unfold unquote
  rw [String.toList_ofList]
  dsimp only
  rw [if_pos (by decide), List.getLast?_append, List.getLast?_singleton, Option.some_or,
    if_pos (beq_self_eq_true _), List.dropLast_concat, String.ofList_toList]

/-- A `<` and a tag begin an element. What comes next must not be read as part of the tag. -/
theorem Ready.leads_start (h : d.Ready) (htag : Markup.isTag tag = true) {piece : List Char}
    {next : State} {P : Draft → Prop}
    (hpiece : ∃ x tail, piece = x :: tail ∧ isTagNameChar x = false)
    (hrest : ∀ d' e, d.Begun tag [] d' e → e.startTagEnd = none →
      d'.Leads schema length .inTag piece next P) :
    d.Leads schema length .content ('<' :: (tag.toList ++ piece)) next P := by
  intro offset rest
  -- The tag ends in front of `x`.
  obtain ⟨x, tail, rfl, hx⟩ := hpiece
  have hname : State.tagOpened.move (tag.toList ++ x :: (tail ++ rest)) =
      .take .tagName tag.toList (x :: (tail ++ rest)) .inTag none :=
    State.moveName_tag htag hx (tail ++ rest) fun _ _ => rfl
  have hne : tag.toList ++ x :: (tail ++ rest) ≠ [] :=
    List.append_ne_nil_of_right_ne_nil _ (List.cons_ne_nil _ _)
  rw [List.cons_append, List.append_assoc,
    read_take (State.move_tagOpen htag _) (List.cons_ne_nil _ _), List.cons_append,
    read_take hname hne]
  obtain ⟨hinside, hsize⟩ := h.openElement schema length ⟨offset, offset + Text.byteLength ['<']⟩
  refine hrest _ _ ⟨hinside.nameElement schema _, ?_, rfl, ?_, rfl⟩ rfl _ rest
  · exact (same_nameElement ..).size.trans hsize
  · exact congrArg some String.ofList_toList

/-- The element gets an attribute with its value. -/
theorem Begun.addAttribute (h : d.Begun tag done d' e) (hopen : e.startTagEnd = none)
    (hnew : Text.lower a.1 ∉ done.map fun a => Text.lower a.1)
    {name value : Token} (hname : name.text = a.1) (hvalue : unquote value.text = a.2) :
    ∃ e', d.Begun tag (done ++ [a]) ((d'.addAttribute name).setValue value) e' ∧
      e'.startTagEnd = none := by
  have hkey : e.attributes.get? (Text.lower name.text) = none := by
    rw [OrderedMap.get?_eq_none_iff, h.keys, hname]
    exact hnew
  obtain ⟨hadded, hpending⟩ := h.toInside.addAttribute hopen hkey
  refine ⟨_, ⟨hadded.setValue hpending value, ?_, h.children, h.tag, ?_⟩, hopen⟩
  · exact (same_setValue ..).size.trans ((same_addAttribute ..).size.trans h.size)
  · dsimp only
    rw [OrderedMap.adjust_insert hkey, OrderedMap.entries_insert_of_get?_eq_none hkey,
      List.map_append, h.attributes, List.map_append, List.map_singleton, hname, hvalue]
    rfl

/-- An attribute is read. -/
theorem Begun.leads_attribute (h : d.Begun tag done d' e) (hopen : e.startTagEnd = none)
    (hname : Markup.isAttributeName a.1 = true) (hvalue : '"' ∉ a.2.toList)
    (hnew : Text.lower a.1 ∉ done.map fun a => Text.lower a.1) :
    d'.Leads schema length .inTag (Markup.attributeChars a) .inTag fun d'' =>
      ∃ e', d.Begun tag (done ++ [a]) d'' e' ∧ e'.startTagEnd = none := by
  intro offset rest
  have hchars : Markup.attributeChars a ++ rest =
      ' ' :: (a.1.toList ++ '=' :: '"' :: (a.2.toList ++ '"' :: rest)) := by
    simp [Markup.attributeChars]
  have hne : a.1.toList ++ '=' :: '"' :: (a.2.toList ++ '"' :: rest) ≠ [] :=
    List.append_ne_nil_of_right_ne_nil _ (List.cons_ne_nil _ _)
  have hassign : State.afterName.move ('=' :: '"' :: (a.2.toList ++ '"' :: rest)) =
      .take .assign ['='] ('"' :: (a.2.toList ++ '"' :: rest)) .beforeValue none := rfl
  rw [hchars, read_take (State.move_blank hname _) (List.cons_ne_nil _ _),
    read_take (State.move_attributeName hname _) hne, read_take hassign (List.cons_ne_nil _ _),
    read_take (State.move_value hvalue rest) (List.cons_ne_nil _ _)]
  exact ⟨_, _, rfl, h.addAttribute hopen hnew String.ofList_toList (unquote_quoted a.2)⟩

/-- Attributes are read. -/
theorem Begun.leads_attributes (h : d.Begun tag done d' e) (hopen : e.startTagEnd = none)
    (hnames : ∀ a ∈ attributes, Markup.isAttributeName a.1 = true)
    (hvalues : ∀ a ∈ attributes, '"' ∉ a.2.toList)
    (hdistinct : ((done ++ attributes).map fun a => Text.lower a.1).Nodup) :
    d'.Leads schema length .inTag (attributes.flatMap Markup.attributeChars) .inTag fun d'' =>
      ∃ e', d.Begun tag (done ++ attributes) d'' e' ∧ e'.startTagEnd = none := by
  -- The induction is on the attributes that are left. Those that were read move on to `done`, and
  -- the names of both together stay distinct.
  induction attributes generalizing done d' e with
  | nil =>
    intro offset rest
    rw [List.append_nil]
    exact ⟨offset, d', rfl, e, h, hopen⟩
  | cons a attributes ih =>
    have hnew : Text.lower a.1 ∉ done.map fun a => Text.lower a.1 := by
      rw [List.map_append, List.map_cons] at hdistinct
      exact fun hmem => (List.nodup_append.1 hdistinct).2.2 _ hmem _ List.mem_cons_self rfl
    rw [List.flatMap_cons]
    refine (h.leads_attribute hopen (hnames a List.mem_cons_self) (hvalues a List.mem_cons_self)
      hnew).trans fun d'' ⟨e', h', hopen'⟩ => ?_
    rw [List.append_cons] at hdistinct
    simp only [List.append_cons done a attributes]
    exact ih h' hopen' (fun b hb => hnames b (List.mem_cons_of_mem a hb))
      (fun b hb => hvalues b (List.mem_cons_of_mem a hb)) hdistinct

/-! ## Elements -/

/-- The start tag of the element is closed. -/
theorem Begun.endStartTag (h : d.Begun tag attributes d' e) (hopen : e.startTagEnd = none)
    (schema : Schema) (offset : Nat) : d.Begun tag attributes (d'.endStartTag schema offset)
      { e with startTagEnd := some offset } where
  toInside := h.toInside.endStartTag hopen schema offset
  size := by
    unfold Draft.endStartTag
    rw [if_pos (h.inStartTag hopen), (d'.closeStartTag_keeps schema offset).1, h.size]
  children := h.children
  tag := h.tag
  attributes := h.attributes

/-- A `/>` closes the element. -/
theorem Begun.leads_selfClose (h : d.Begun tag attributes d' e) (hopen : e.startTagEnd = none) :
    d'.Leads schema length .inTag ['/', '>'] .content
      (d.Adds [.element tag attributes true []]) := by
  intro offset rest
  have hmove : State.inTag.move ('/' :: '>' :: rest) =
      .take .tagSelfClose ['/', '>'] rest .content none := rfl
  have hended := h.endStartTag hopen schema (offset + Text.byteLength ['/', '>'])
  have hids : e.children = Markup.idsFrom (d.elements.size + 1) [] := h.children
  have hclosed := hended.close h.tag h.values hids hended.size (.nil _)
    (offset + Text.byteLength ['/', '>']) true
  unfold Draft.endStartTag at hclosed
  rw [List.cons_append, List.cons_append, List.nil_append, read_take hmove (List.cons_ne_nil _ _)]
  unfold Draft.step
  dsimp only
  rw [if_pos (h.inStartTag hopen)] at hclosed ⊢
  rw [h.current]
  exact ⟨_, _, rfl, hclosed⟩

/-- A `>` closes the start tag. -/
theorem Begun.leads_tagClose (h : d.Begun tag attributes d' e) (hopen : e.startTagEnd = none) :
    d'.Leads schema length .inTag ['>'] .content fun d'' =>
      ∃ e', d.Begun tag attributes d'' e' ∧ e'.startTagEnd ≠ none := by
  intro offset rest
  have hmove : State.inTag.move ('>' :: rest) = .take .tagClose ['>'] rest .content none := rfl
  rw [List.cons_append, List.nil_append, read_take hmove (List.cons_ne_nil _ _)]
  exact ⟨_, _, rfl, _, h.endStartTag hopen schema _, Option.some_ne_none _⟩

/-- Behind its start tag, an element is ready for what stands in it. -/
theorem Begun.ready (h : d.Begun tag attributes d' e) (hclosed : e.startTagEnd ≠ none) : d'.Ready :=
  ⟨⟨e, h.get?_current, hclosed, fun _ => h.children⟩, h.untyped⟩

/-- The tokens of the end tag close an element with what stands in it: the tag fits, so its `>` is
waited for, and that closes the element. -/
theorem Begun.endTag {d'' : Draft} (h : d.Begun tag attributes d' e)
    (hclosed : e.startTagEnd ≠ none) (hadds : d'.Adds children d'') {opening name closing : Token}
    (hopening : opening.kind = .endTagOpen) (hname : name.kind = .endTagName)
    (htext : name.text = tag) (hclosing : closing.kind = .endTagClose) :
    d.Adds [.element tag attributes false children]
      (((d''.step schema length opening).step schema length name).step schema length closing) := by
  have hinside := h.toInside.adds hadds
  have hopened : d.Inside { d'' with endTagTarget := none, endTagOpen := opening.span.start } _ :=
    hinside.congr rfl rfl rfl
  obtain ⟨hmatched, htarget, hsize, hkept⟩ :=
    hopened.matchEndTag (h.tag.trans (congrArg some htext.symm))
  unfold Draft.step
  rw [hopening, hname, hclosing]
  dsimp only
  rw [hinside.openEndTag hclosed, htarget]
  dsimp only
  -- The element was the only new one, so the numbers of what stands in it begin behind it.
  have hids : e.children ++ Markup.idsFrom d'.elements.size children =
      Markup.idsFrom (d.elements.size + 1) children := by
    rw [h.children, List.nil_append, h.size]
  refine hmatched.forget.close h.tag h.values hids ?_ ?_ _ false
  · exact hsize.trans (hadds.size.trans (by rw [h.size]))
  · exact (h.size ▸ hadds.shows).congr fun i hle _ => hkept hle

/-- The end tag is read. -/
theorem Begun.leads_endTag {d'' : Draft} (h : d.Begun tag attributes d' e)
    (hclosed : e.startTagEnd ≠ none) (hadds : d'.Adds children d'')
    (htag : Markup.isTag tag = true) :
    d''.Leads schema length .content ('<' :: '/' :: (tag.toList ++ ['>'])) .content
      (d.Adds [.element tag attributes false children]) := by
  intro offset rest
  have hopen : State.content.move ('<' :: '/' :: (tag.toList ++ '>' :: rest)) =
      .take .endTagOpen ['<', '/'] (tag.toList ++ '>' :: rest) .endTagOpened none := rfl
  have hname : State.endTagOpened.move (tag.toList ++ '>' :: rest) =
      .take .endTagName tag.toList ('>' :: rest) .inEndTag none :=
    State.moveName_tag htag (by decide) rest fun _ _ => rfl
  have hclose : State.inEndTag.move ('>' :: rest) =
      .take .endTagClose ['>'] rest .content none := rfl
  have hne : tag.toList ++ '>' :: rest ≠ [] :=
    List.append_ne_nil_of_right_ne_nil _ (List.cons_ne_nil _ _)
  rw [List.cons_append, List.cons_append, List.append_assoc, List.cons_append, List.nil_append,
    read_take hopen (List.cons_ne_nil _ _), read_take hname hne,
    read_take hclose (List.cons_ne_nil _ _)]
  exact ⟨_, _, rfl, h.endTag hclosed hadds rfl rfl String.ofList_toList rfl⟩

/-! ## Markup -/

/-- Markup is read into any draft that is ready for it. -/
def Reads (schema : Schema) (length : Nat) (m : Markup) : Prop :=
  ∀ {d : Draft}, d.Ready → d.Leads schema length .content m.chars .content (d.Adds [m])

/-- What leaves a draft as it is adds markup without elements. -/
theorem Ready.adds_self (h : d.Ready) {ms : List Markup}
    (hids : Markup.idsFrom d.elements.size ms = []) (hsize : Markup.sizeAll ms = 0)
    (hshows : Markup.Shows d.get? d.elements.size ms) : d.Adds ms d where
  current_lt := h.current_lt
  size_le := Nat.le_refl _
  outer := by simp only [hids, List.append_nil, Option.map_id']
  kept _ _ := rfl
  untyped := h.untyped
  log := rfl
  current := rfl
  size := by rw [hsize, Nat.add_zero]
  shows := hshows

/-- Inside of an element, pieces that can be read one by one can be read one after the other. -/
theorem Ready.leads_all {ms : List Markup} (hreads : ∀ m ∈ ms, Reads schema length m)
    (h : d.Ready) (hroot : d.current ≠ .root) :
    d.Leads schema length .content (Markup.charsAll ms) .content (d.Adds ms) := by
  -- The current element is not the root, so it may get any number of children.
  induction ms generalizing d with
  | nil => exact fun offset rest => ⟨offset, d, rfl, h.adds_self rfl rfl (.nil _)⟩
  | cons m ms ih =>
    refine (hreads m List.mem_cons_self h).trans fun d' hadds offset rest => ?_
    have hready := h.adds hroot hadds
    obtain ⟨offset', d'', hread, hadds'⟩ := ih (fun m hm => hreads m (List.mem_cons_of_mem _ hm))
      hready (hadds.current.symm ▸ hroot) offset rest
    exact ⟨offset', d'', hread, hadds.trans hadds'⟩

/-- What comes behind the tag of an element is not read as part of the tag. -/
theorem exists_attributeChars_append (attributes : List (String × String)) {x : Char}
    (hx : isTagNameChar x = false) (tail : List Char) :
    ∃ y tail', attributes.flatMap Markup.attributeChars ++ x :: tail = y :: tail' ∧
      isTagNameChar y = false := by
  cases attributes with
  | nil => exact ⟨x, tail, rfl, hx⟩
  | cons a attributes => exact ⟨' ', _, rfl, by decide⟩

/-- An element is read if what stands in it is. -/
theorem reads_element {selfClosed : Bool} (htag : Markup.isTag tag = true)
    (hnames : ∀ a ∈ attributes, Markup.isAttributeName a.1 = true)
    (hdistinct : (attributes.map fun a => Text.lower a.1).Nodup)
    (hvalues : ∀ a ∈ attributes, '"' ∉ a.2.toList) (hself : selfClosed = true → children = [])
    (hchildren : ∀ m ∈ children, Reads schema length m) :
    Reads schema length (.element tag attributes selfClosed children) := by
  intro d h
  rw [Markup.chars]
  cases selfClosed with
  | true =>
    obtain rfl := hself rfl
    refine h.leads_start htag (exists_attributeChars_append attributes (by decide) _)
      fun d₁ e₁ h₁ hopen₁ => ?_
    refine (h₁.leads_attributes hopen₁ hnames hvalues hdistinct).trans
      fun d₂ ⟨e₂, h₂, hopen₂⟩ => ?_
    exact h₂.leads_selfClose hopen₂
  | false =>
    refine h.leads_start htag (exists_attributeChars_append attributes (by decide) _)
      fun d₁ e₁ h₁ hopen₁ => ?_
    refine (h₁.leads_attributes hopen₁ hnames hvalues hdistinct).trans
      fun d₂ ⟨e₂, h₂, hopen₂⟩ => ?_
    -- The children are read between the two tags, each of them by its own `Reads`.
    refine (h₂.leads_tagClose hopen₂).trans fun d₃ ⟨e₃, h₃, hclosed₃⟩ => ?_
    refine ((h₃.ready hclosed₃).leads_all hchildren h₃.current_ne_root).trans fun d₄ hadds => ?_
    exact h₃.leads_endTag hclosed₃ hadds htag

/-- Every piece of well-formed markup is read. -/
theorem reads_of_wellFormed (schema : Schema) (length : Nat) {m : Markup} (hm : m.WellFormed) :
    Reads schema length m := by
  induction hm with
  | element htag hnames hdistinct hvalues hself _ ih =>
    exact reads_element htag hnames hdistinct hvalues hself ih
  | @text value _ hopen =>
    intro d h offset rest
    obtain ⟨offset', d', hread, rfl⟩ := leads_text hopen offset rest
    exact ⟨offset', d, hread, h.adds_self rfl rfl (.text (.nil _))⟩
  | @comment body hclose =>
    intro d h offset rest
    obtain ⟨offset', d', hread, rfl⟩ := leads_comment hclose offset rest
    exact ⟨offset', d, hread, h.adds_self rfl rfl (.comment (.nil _))⟩

/-- In the beginning a draft without a root type is ready. -/
theorem ready_start (length : Nat) : (start length none).Ready := by
  refine ⟨⟨_, rfl, Option.some_ne_none _, fun _ => rfl⟩, fun id e he => ?_⟩
  cases id with
  | zero =>
    cases he
    exact ⟨rfl, rfl⟩
  | succ id => exact absurd he (Option.some_ne_none e).symm

/-- Without types the validation has nothing to say. -/
theorem Untyped.validateElements (h : d.Untyped) (schema : Schema) :
    LayoutMarkup.validateElements schema d.elements = [] := by
  unfold LayoutMarkup.validateElements
  rw [List.flatMap_eq_nil_iff]
  intro e he
  obtain ⟨id, hid⟩ := List.mem_iff_getElem?.1 (List.mem_of_mem_tail he)
  rw [Array.getElem?_toList] at hid
  rw [(h id e hid).1]
  rfl

/-- The draft of written markup is the draft without elements, grown by the markup. -/
theorem ofText_render (schema : Schema) {m : Markup} (hm : m.WellFormed) :
    (start (Text.byteLength m.chars) none).Adds [m] (ofText schema none m.render) := by
  have hready := ready_start (Text.byteLength m.chars)
  obtain ⟨offset, d, hread, hadds⟩ :=
    reads_of_wellFormed schema (Text.byteLength m.chars) hm hready 0 []
  rw [List.append_nil, read_nil] at hread
  have hroot : d.current = .root := hadds.current
  have hchars : m.render.toList = m.chars := String.toList_ofList
  -- The draft is back at the root, so no element is open at the end of the text.
  have hdraft : ofText schema none m.render = { d with current := .root } := by
    unfold ofText tokenize Scanner.ofText
    rw [hchars]
    dsimp only
    rw [← read, hread, finish, hroot, openChain, if_pos rfl, List.foldl_nil]
  rw [hdraft, ← hroot]
  exact hadds

end Draft

namespace Document

/-- A document is exactly some markup: there is nothing to report, the first element is the only
top-level one, and the elements are those of the markup. -/
structure Reproduces (doc : Document) (m : Markup) : Prop where
  /-- There is nothing to report. -/
  diagnostics : doc.diagnostics = []
  /-- There is one top-level element. -/
  topLevel : doc.childrenOf .root = [1]
  /-- Apart from the root there are no other elements than those of the markup. -/
  size : doc.size = m.size + 1
  /-- The elements are those of the markup. -/
  shows : Markup.Shows doc.get? 1 [m]

/-- Reading inverts writing: without a root type, the document that is read from a well-formed
element in writing is exactly that element. -/
theorem parse_render (name : String) (schema : Schema) {tag : String}
    {attributes : List (String × String)} {selfClosed : Bool} {children : List Markup}
    (hm : (Markup.element tag attributes selfClosed children).WellFormed) :
    (parse name (Markup.element tag attributes selfClosed children).render schema none).Reproduces
      (.element tag attributes selfClosed children) := by
  have hadds := Draft.ofText_render schema hm
  refine ⟨?_, ?_, ?_, hadds.shows⟩
  · have hlog : (Draft.ofText schema none _).log = {} := hadds.log
    unfold parse
    dsimp only
    rw [hlog, hadds.untyped.validateElements]
    rfl
  · -- The root had no children.
    exact congrArg (fun e => (e.map Element.children).getD []) hadds.outer
  · refine hadds.size.trans ?_
    rw [Markup.sizeAll]
    exact Nat.add_comm _ _

/-- Values may hold the marks of tags and single quotes, a comment may begin with dashes, and names
need not be ASCII. -/
theorem parse_render_window :
    (parse "Window" ("<Fönster titel=\"a > b </x>\" Stil=\"'/'\"><!---- -> <b>-->" ++
      "<Text/>ok<Text></Text></Fönster>") {} none).Reproduces
      (.element "Fönster" [("titel", "a > b </x>"), ("Stil", "'/'")] false
        [.comment "-- -> <b>", .element "Text" [] true [], .text "ok",
          .element "Text" [] false []]) := by
  have htext : ∀ selfClosed, (Markup.element "Text" [] selfClosed []).WellFormed := fun _ =>
    .element (by decide) nofun List.nodup_nil nofun (fun _ => rfl) nofun
  have hwindow : (Markup.element "Fönster" [("titel", "a > b </x>"), ("Stil", "'/'")] false
      [.comment "-- -> <b>", .element "Text" [] true [], .text "ok",
        .element "Text" [] false []]).WellFormed := by
    refine .element (by decide) (by decide) (by decide) (by decide) nofun fun m hm => ?_
    simp only [List.mem_cons, List.not_mem_nil, or_false] at hm
    rcases hm with rfl | rfl | rfl | rfl
    · exact .comment (by decide)
    · exact htext true
    · exact .text (by decide) (by decide)
    · exact htext false
  exact parse_render "Window" {} hwindow

end Document

end LayoutMarkup
