import LayoutMarkup.Proofs.Document.Lockstep

/-!
# Start tags and end tags while tokens come in

The scanner knows from its state whether it stands in a start tag or in an end tag, and the draft
knows it from its elements. After every token the two agree as far as the draft relies on it
(`Draft.Follows`): in a start tag the current element is the last one and its start tag is open; in
an end tag no start tag is open, and the draft remembers the latest `</`. So whatever stands in a
start tag finds one open (`Draft.Admits`).

The other direction fails. A start tag that a comment interrupts stays open while the scanner stands
outside of tags, until something closes it. That is why the invariant is about the states and says
nothing outside of tags.

No element is lost or made up on the way. The elements are the `<` of the text one by one, each with
the name right behind it as its tag (`Opening.ofTokens`), and no name stands elsewhere.
-/

namespace LayoutMarkup

/-! ## What the tokens open -/

/-- A `<`, and the name that stands right behind it. -/
structure Opening where
  /-- The `<`. -/
  bracket : Token
  /-- The name, if there is one. -/
  name : Option Token
  deriving DecidableEq, Repr

namespace Opening

/-- All `<` of some tokens with their names. -/
def ofTokens : List Token → List Opening
  | [] => []
  | t :: ts =>
    if t.kind = .tagOpen then ⟨t, ts.head?.filter (·.kind = .tagName)⟩ :: ofTokens ts
    else ofTokens ts

/-- The head of the element that begins. -/
def head (o : Opening) : Nat × Option String × Option Span :=
  (o.bracket.span.start, o.name.map (·.text), o.name.map (·.span))

variable {b t : Token}

/-- Nothing but a name counts behind a `<`. -/
theorem filter_head?_append (ht : t.kind ≠ .tagName) (past more : List Token) :
    (past ++ t :: more).head?.filter (·.kind = .tagName) =
      past.head?.filter (·.kind = .tagName) := by
  cases past <;> simp [Option.filter, ht]

/-- A token that is no name begins an opening if it is a `<`, and leaves the others. -/
theorem ofTokens_concat (ht : t.kind ≠ .tagName) (past : List Token) :
    ofTokens (past ++ [t]) = ofTokens past ++ if t.kind = .tagOpen then [⟨t, none⟩] else [] := by
  induction past with
  | nil => simp [ofTokens]
  | cons x past ih =>
    rw [List.cons_append, ofTokens, ofTokens, filter_head?_append ht, ih]
    split <;> rfl

/-- A name behind a `<` belongs to that. -/
theorem ofTokens_concat_name (hb : b.kind = .tagOpen) (ht : t.kind = .tagName)
    (past : List Token) : ofTokens (past ++ [b, t]) = ofTokens past ++ [⟨b, some t⟩] := by
  have hname : b.kind ≠ .tagName := by rw [hb]; decide
  induction past with
  | nil => simp [ofTokens, hb, ht]
  | cons x past ih =>
    rw [List.cons_append, ofTokens, ofTokens, filter_head?_append hname, ih]
    split <;> rfl

end Opening

/-- Whether tokens of the kind only stand inside a start tag. -/
def TokenKind.isGuarded : TokenKind → Bool
  | tagName | attributeName | attributeValue | tagClose | tagSelfClose => true
  | _ => false

namespace Scanner.State

/-- Whether the state is inside an end tag. -/
def isEndTag : State → Bool
  | endTagOpened | inEndTag => true
  | _ => false

/-- Turning does not lead into an end tag. -/
theorem isEndTag_of_reach {state m : State} (hm : m ∈ state.reach) (h : m.isEndTag = true) :
    state.isEndTag = true := by
  cases state <;> cases m <;> first | rfl | exact Bool.noConfusion h | exact absurd hm (by decide)

/-- Into an end tag leads a `</`, or what stands inside. -/
theorem isEndTag_cases {m next : State} {kind : TokenKind} (h : (kind, next) ∈ m.outcomes)
    (hnext : next.isEndTag = true) :
    kind = .endTagOpen ∧ next = endTagOpened ∨
      m.isEndTag = true ∧ (kind = .endTagName ∨ kind = .blank ∨ kind = .unknown) := by
  cases m <;>
    simp only [outcomes, List.mem_cons, Prod.mk.injEq, List.not_mem_nil, or_false] at h <;>
    grind [isEndTag]

/-- What only stands inside a start tag is taken there. -/
theorem isStartTag_of_isGuarded {m next : State} {kind : TokenKind}
    (h : (kind, next) ∈ m.outcomes) (hkind : kind.isGuarded = true) : m.isStartTag = true := by
  cases m <;>
    simp only [outcomes, List.mem_cons, Prod.mk.injEq, List.not_mem_nil, or_false] at h <;>
    grind [isStartTag, TokenKind.isGuarded]

end Scanner.State

namespace Draft

variable {text : List Char} {past : List Token} {s : Scanner} {d : Draft} {length : Nat}
  {e : Element}

/-- The latest `</` of some tokens. -/
def latestEndTag? (past : List Token) : Option Token :=
  (past.filter (·.kind = .endTagOpen)).getLast?

/-- What the draft has made of the tokens so far, while the scanner is in a state. -/
structure Follows (past : List Token) (state : Scanner.State) (d : Draft) : Prop where
  /-- Inside a start tag, the current element is the last one and its start tag is open. -/
  startTag : state.isStartTag = true → d.current + 1 = d.elements.size ∧ d.inStartTag = true
  /-- Inside an end tag, no start tag is open, and the draft remembers where the latest `</` is. -/
  endTag : state.isEndTag = true → d.inStartTag = false ∧
    ∃ t, latestEndTag? past = some t ∧ d.endTagOpen = t.span.start
  /-- What the next `>` of an end tag closes is the current element. -/
  target : ∀ id ∈ d.endTagTarget, id = d.current

/-- A token that only stands inside a start tag finds that of the current element open. -/
def Admits (d : Draft) (t : Token) : Prop :=
  t.kind.isGuarded = true → d.current ≠ .root ∧ d.inStartTag = true

/-! ## Coupling -/

/-- What the draft owes to the tokens so far, the names and the end tags included. -/
structure Coupled (text : List Char) (past : List Token) (s : Scanner) (d : Draft) : Prop
    extends Locked text past s d where
  /-- The scanner stands behind a `<` only if that was the last token. -/
  behind : s.state = .tagOpened → ∃ front b, past = front ++ [b] ∧ b.kind = .tagOpen
  /-- Inside an end tag no start tag is open, and the draft remembers the latest `</`. -/
  ending : s.state.isEndTag = true → ¬ d.OpenTag d.current ∧
    ∃ t, latestEndTag? past = some t ∧ d.endTagOpen = t.span.start
  /-- Apart from the root, the elements are the openings of the tokens. -/
  heads : d.elements.toList.tail.map Element.head = (Opening.ofTokens past).map Opening.head
  /-- Every name belongs to an opening. -/
  names : past.filter (·.kind = .tagName) = (Opening.ofTokens past).filterMap Opening.name

/-- A `</` is remembered. -/
theorem endTagOpen_take (schema : Schema) (length : Nat) (d : Draft)
    (hkind : s.scan.token.kind = .endTagOpen) :
    (d.take schema length s.scan).endTagOpen = s.scan.token.span.start := by
  unfold take step
  rw [hkind]

/-- What stands inside an end tag leaves what is remembered. -/
theorem endTagOpen_take_of_inside (schema : Schema) (length : Nat) (d : Draft)
    (hkind : s.scan.token.kind = .endTagName ∨ s.scan.token.kind = .blank ∨
      s.scan.token.kind = .unknown) :
    (d.take schema length s.scan).endTagOpen = d.endTagOpen := by
  unfold take step
  rcases hkind with hkind | hkind | hkind
  · rw [hkind]
    exact matchEndTag_cases (motive := fun d' => d'.endTagOpen = d.endTagOpen) _ _ rfl
      (fun _ _ _ _ => rfl) (fun _ _ _ _ _ _ _ => rfl) fun _ _ => rfl
  all_goals rw [hkind]

/-- An element keeps its head, unless the token is the name of a start tag. -/
theorem head_eq_of_carries {token : Token} {e e' : Element} (h : e.Carries token e')
    (hkind : token.kind ≠ .tagName) : e'.head = e.head := by
  unfold Element.head
  rw [h.start, h.tag hkind, h.tagSpan hkind]

/-- The name of a start tag changes the head of the current element only. -/
theorem map_head_take {schema : Schema} (hkind : s.scan.token.kind = .tagName)
    (hroot : d.current ≠ .root) (he : d.get? d.current = some e) (id : ElementId) :
    ((d.take schema length s.scan).get? id).map Element.head =
      if id = d.current then some (e.start, some s.scan.token.text, some s.scan.token.span)
      else (d.get? id).map Element.head := by
  cases he' : (d.take schema length s.scan).get? id with
  | some e' =>
    obtain ⟨f, hf, hhead⟩ := head_take hkind hroot he'
    rw [Option.map_some, hhead, hf]
    by_cases hid : id = d.current
    · subst hid
      obtain rfl := Option.some_inj.1 (he.symm.trans hf)
      rw [if_pos rfl, if_pos rfl]
    · rw [if_neg hid, if_neg fun heq => hid heq.symm, Option.map_some]
  | none =>
    -- An element that is not there afterwards was not there before.
    have hcarries := carries_take schema length d (s := s) (by rw [hkind]; decide)
    have hnone : d.get? id = none := by
      by_contra hsome
      obtain ⟨f, hf⟩ := Option.ne_none_iff_exists'.1 hsome
      obtain ⟨f', hf', -⟩ := hcarries.exists_get? hf
      exact nomatch he'.symm.trans hf'
    have hid : id ≠ d.current := by
      rintro rfl
      exact nomatch hnone.symm.trans he
    rw [if_neg hid, hnone, Option.map_none]

namespace Coupled

/-- The scanner stands behind a `<` only if that was the last token. -/
theorem behind_take (hrest : s.rest ≠ []) (hstate : s.scan.after.state = .tagOpened) :
    ∃ front b, past ++ [s.scan.token] = front ++ [b] ∧ b.kind = .tagOpen := by
  rcases s.scan_spec.outcome with ⟨hnil, -⟩ | ⟨m, -, hmem⟩
  · exact absurd hnil hrest
  · rw [hstate] at hmem
    exact ⟨past, s.scan.token, rfl, Scanner.State.eq_tagOpen_of_tagOpened hmem⟩

/-- Inside an end tag no start tag is open, and the draft remembers the latest `</`. -/
theorem ending_take (h : d.Coupled text past s) (hrest : s.rest ≠ []) (schema : Schema)
    (hstate : s.scan.after.state.isEndTag = true) :
    ¬ (d.take schema (Text.byteLength text) s.scan).OpenTag
        (d.take schema (Text.byteLength text) s.scan).current ∧
      ∃ t, latestEndTag? (past ++ [s.scan.token]) = some t ∧
        (d.take schema (Text.byteLength text) s.scan).endTagOpen = t.span.start := by
  rcases s.scan_spec.outcome with ⟨hnil, -⟩ | ⟨m, hm, hmem⟩
  · exact absurd hnil hrest
  rcases Scanner.State.isEndTag_cases hmem hstate with ⟨hkind, hopened⟩ | ⟨hin, hkind⟩
  · obtain ⟨hat, -⟩ := (h.toInStep.take schema).endTag hopened
    refine ⟨hat.tagClosed, s.scan.token, ?_, endTagOpen_take schema _ d hkind⟩
    simp [latestEndTag?, hkind]
  · have htag : s.scan.token.kind ≠ .tagOpen := by rcases hkind with hk | hk | hk <;> simp [hk]
    have hend : s.scan.token.kind ≠ .endTagOpen := by rcases hkind with hk | hk | hk <;> simp [hk]
    obtain ⟨hclosed, t, ht, hoffset⟩ := h.ending (Scanner.State.isEndTag_of_reach hm hin)
    refine ⟨fun hopen => ?_, t, ?_, ?_⟩
    · -- No start tag is opened, and only that of the current element might be open.
      obtain ⟨stack, hfits⟩ := h.fits
      have hopen' := (carries_take schema (Text.byteLength text) d htag).openTag hopen
      exact hclosed (hfits.eq_current hopen' ▸ hopen')
    · unfold latestEndTag? at ht ⊢
      simpa [hend] using ht
    · rw [endTagOpen_take_of_inside schema _ d hkind, hoffset]

/-- The name of a start tag is taken right behind the `<` of the last element. -/
theorem exists_bracket (h : d.Coupled text past s) (hkind : s.scan.token.kind = .tagName) :
    ∃ front b root inner e, past = front ++ [b] ∧ b.kind = .tagOpen ∧
      d.elements.toList = root :: (inner ++ [e]) ∧ d.current = inner.length + 1 ∧
      inner.map Element.head = (Opening.ofTokens front).map Opening.head ∧
      e.start = b.span.start := by
  have hstate := Scanner.state_eq_tagOpened hkind
  obtain ⟨front, b, rfl, hb⟩ := h.behind hstate
  have hopen := h.tagged (by rw [hstate]; rfl)
  have hlast := h.last hopen
  obtain ⟨shape, hs, hnone⟩ := hopen
  obtain ⟨stack, hfits⟩ := h.fits
  have hroot : d.current ≠ 0 := hfits.laid.ne_root_of_unclosed hs hnone
  obtain ⟨root, rest, hlist⟩ := List.exists_cons_of_ne_nil h.toList_ne_nil
  have hlen : d.current + 1 = rest.length + 1 := by
    rw [hlast, ← Array.length_toList, hlist, List.length_cons]
  have hne : rest ≠ [] := by
    rintro rfl
    exact hroot (Nat.succ.inj hlen)
  obtain ⟨inner, e, rfl⟩ := (List.eq_nil_or_concat' rest).resolve_left hne
  -- The `<` is the last of those read, so the last element began at it.
  have hname : b.kind ≠ .tagName := by rw [hb]; decide
  have hheads := h.heads
  rw [hlist, List.tail_cons, Opening.ofTokens_concat hname, if_pos hb, List.map_append,
    List.map_append] at hheads
  obtain ⟨hinner, hhead⟩ := List.append_inj' hheads rfl
  refine ⟨front, b, root, inner, e, rfl, hb, hlist, ?_, hinner, ?_⟩
  · rw [Nat.succ.inj hlen, List.length_append, List.length_singleton]
  · exact congrArg Prod.fst (List.singleton_inj.1 hhead)

/-- Behind the name of a start tag the last element has its tag. -/
theorem heads_name (h : d.Coupled text past s) (schema : Schema) (length : Nat)
    (hkind : s.scan.token.kind = .tagName) :
    (d.take schema length s.scan).elements.toList.tail.map Element.head =
      (Opening.ofTokens (past ++ [s.scan.token])).map Opening.head := by
  obtain ⟨front, b, root, inner, e, rfl, hb, hlist, hcurrent, hinner, hstart⟩ :=
    h.exists_bracket hkind
  -- The current element is the last one, since nothing was pushed since its bracket.
  have hsize : d.current + 1 = d.elements.size := by
    rw [hcurrent, ← Array.length_toList, hlist, List.length_cons, List.length_append,
      List.length_singleton]
  have he : d.get? d.current = some e := by
    show d.elements[d.current]? = some e
    rw [← Array.getElem?_toList, hlist, hcurrent]
    simp
  have hroot : d.current ≠ .root := by
    rw [hcurrent]
    exact Nat.succ_ne_zero _
  -- Only the head of the last element changes, on both sides: there it gets its tag, here the last
  -- opening gets its name.
  rw [List.map_tail, map_of_last hsize (map_head_take hkind hroot he), hlist, ← List.cons_append,
    List.map_append, List.map_singleton, List.dropLast_concat, List.map_cons, List.cons_append,
    List.tail_cons, List.append_assoc, List.singleton_append,
    Opening.ofTokens_concat_name hb hkind, List.map_append, ← hinner]
  simp [Opening.head, hstart]

/-- The elements are the openings of the tokens. -/
theorem heads_take (h : d.Coupled text past s) (schema : Schema) (length : Nat) :
    (d.take schema length s.scan).elements.toList.tail.map Element.head =
      (Opening.ofTokens (past ++ [s.scan.token])).map Opening.head := by
  by_cases hname : s.scan.token.kind = .tagName
  · exact h.heads_name schema length hname
  rw [Opening.ofTokens_concat hname, List.map_append, ← h.heads]
  by_cases hopen : s.scan.token.kind = .tagOpen
  · obtain ⟨parent, hadded⟩ := exists_map_take (g := Element.head) (fun _ _ => rfl)
      (fun hcarries => head_eq_of_carries hcarries hname) schema length h.toList_ne_nil hopen
    rw [hadded, if_pos hopen]
    rfl
  · have hkeep := (carries_take schema length d hopen).map_toList (f := Element.head)
      (g := Element.head) fun _ hcarries => head_eq_of_carries hcarries hname
    rw [List.map_tail, hkeep, List.map_tail, if_neg hopen]
    simp

/-- Every name belongs to an opening. -/
theorem names_take (h : d.Coupled text past s) :
    (past ++ [s.scan.token]).filter (·.kind = .tagName) =
      (Opening.ofTokens (past ++ [s.scan.token])).filterMap Opening.name := by
  by_cases hname : s.scan.token.kind = .tagName
  · obtain ⟨front, b, -, -, -, rfl, hb, -⟩ := h.exists_bracket hname
    have hnot : b.kind ≠ .tagName := by rw [hb]; decide
    have hnames := h.names
    rw [Opening.ofTokens_concat hnot, if_pos hb] at hnames
    rw [List.filter_append, hnames, List.append_assoc, List.singleton_append,
      Opening.ofTokens_concat_name hb hname]
    simp [hname]
  · rw [List.filter_append, h.names, Opening.ofTokens_concat hname]
    by_cases hopen : s.scan.token.kind = .tagOpen <;> simp [hname, hopen]

/-- Every step in front of the end of the text keeps the coupling. -/
theorem take (h : d.Coupled text past s) (hrest : s.rest ≠ []) (schema : Schema) :
    (d.take schema (Text.byteLength text) s.scan).Coupled text (past ++ [s.scan.token])
      s.scan.after :=
  { h.toLocked.take hrest schema with
    behind := behind_take hrest
    ending := h.ending_take hrest schema
    heads := h.heads_take schema _
    names := h.names_take }

/-- The draft follows the scanner. -/
theorem follows (h : d.Coupled text past s) : d.Follows past s.state := by
  obtain ⟨stack, hfits⟩ := h.fits
  refine ⟨fun hstate => ?_, fun hstate => ?_, fun id hid => (hfits.target hid).1⟩
  · have hopen := h.tagged hstate
    exact ⟨h.last hopen, hfits.inStartTag hopen⟩
  · obtain ⟨hclosed, hlatest⟩ := h.ending hstate
    refine ⟨Bool.eq_false_iff.2 fun htag => hclosed ?_, hlatest⟩
    obtain ⟨-, e, he, hnone⟩ := (inStartTag_iff d).1 htag
    exact ⟨_, shapes_eq he, hnone⟩

/-- The next token is admitted. -/
theorem admits (h : d.Coupled text past s) : d.Admits s.scan.token := by
  intro hkind
  rcases s.scan_spec.outcome with ⟨-, hend, -⟩ | ⟨m, hm, hmem⟩
  · rw [hend] at hkind
    exact absurd hkind (by decide)
  · have hin := Scanner.State.isStartTag_of_isGuarded hmem hkind
    obtain ⟨stack, hfits⟩ := h.fits
    have htag := hfits.inStartTag (h.tagged (Scanner.State.isStartTag_of_reach hm hin))
    exact ⟨((inStartTag_iff d).1 htag).1, htag⟩

end Coupled

/-- In the beginning there are no tokens to account for. -/
theorem coupled_start (rootType : Option TypeId) (text : String) :
    (start (Text.byteLength text.toList) rootType).Coupled text.toList []
      (Scanner.ofText text) :=
  { locked_start rootType text with
    behind := fun hstate => nomatch hstate
    ending := fun hstate => Bool.noConfusion hstate
    heads := rfl
    names := rfl }

/-- The draft behind some tokens at the beginning of a text. -/
def behind (schema : Schema) (rootType : Option TypeId) (text : String) (front : List Scanned) :
    Draft :=
  front.foldl (take schema (Text.byteLength text.toList))
    (start (Text.byteLength text.toList) rootType)

end Draft

namespace Document

/-- For every text, schema and root type, every token in front of the end of the text is admitted by
the draft, and the draft follows the scanner behind it. In the document the elements but the root
are the `<` of the text one by one with the names right behind them, and these are all names of
start tags that the text has. -/
theorem coupled_parse (name text : String) (schema : Schema) (rootType : Option TypeId) :
    (∀ front sc, front ++ [sc] <+: tokenize text → sc.token.kind ≠ .endOfText →
      (Draft.behind schema rootType text front).Admits sc.token ∧
      (Draft.behind schema rootType text (front ++ [sc])).Follows
        ((front ++ [sc]).map Scanned.token) sc.after.state) ∧
    (parse name text schema rootType).elements.toList.tail.map Element.head =
      (Opening.ofTokens (parse name text schema rootType).tokens).map Opening.head ∧
    (parse name text schema rootType).tokens.filter (·.kind = .tagName) =
      (Opening.ofTokens (parse name text schema rootType).tokens).filterMap Opening.name := by
  have hstart := Draft.coupled_start rootType text
  refine ⟨fun front sc hfront hkind => ?_, ?_⟩
  · -- Behind each token the draft is coupled to the scanner, with what was read so far.
    obtain ⟨s, rfl, hcoupled⟩ := Scanner.front_history
      (f := Draft.take schema (Text.byteLength text.toList))
      (P := fun past s d => d.Coupled text.toList past s)
      (fun hrest hP => hP.take hrest schema) hstart hfront
    rw [List.nil_append] at hcoupled
    have hrest : s.rest ≠ [] := fun hnil => hkind (s.kind_scan_iff.2 hnil)
    refine ⟨hcoupled.admits, ?_⟩
    unfold Draft.behind
    rw [List.foldl_append, List.map_append]
    exact (hcoupled.take hrest schema).follows
  · obtain ⟨past, s, d, hnil, hcoupled, htokens, hfinish⟩ := Draft.exists_history schema hstart
      fun hrest hP => hP.take hrest schema
    have hend : s.scan.token.kind = .endOfText := s.kind_scan_iff.2 hnil
    have hname : s.scan.token.kind ≠ .tagName := by rw [hend]; decide
    have hcarries : d.Carries ⟨.endOfText, .point (Text.byteLength text.toList), ""⟩
        (d.finish schema (Text.byteLength text.toList)) := Draft.carries_finish schema d rfl
    -- The end of the text makes no elements and gives no tags.
    have hkeep := hcarries.map_toList (f := Element.head) (g := Element.head)
      fun _ hcarries => Draft.head_eq_of_carries hcarries TokenKind.noConfusion
    unfold parse tokens
    dsimp only
    rw [hfinish, htokens, Opening.ofTokens_concat hname, hend, if_neg (by decide), List.append_nil,
      List.filter_append, ← hcoupled.names, ← hcoupled.heads, List.map_tail, hkeep, List.map_tail]
    simp [hend]

/-- The attribute of an element that another one interrupts is admitted, and behind it the start tag
is still open. -/
theorem coupled_parse_interrupted :
    ∃ front sc, front ++ [sc] <+: tokenize "<A<B x/></A>" ∧ sc.token.kind = .attributeName ∧
      (Draft.behind {} none "<A<B x/></A>" front).Admits sc.token ∧
      (Draft.behind {} none "<A<B x/></A>" (front ++ [sc])).inStartTag = true := by
  have hsome : ((tokenize "<A<B x/></A>")[5]?).map (fun sc => (sc.token.kind, sc.after.state)) =
      some (.attributeName, .afterName) := by decide +kernel
  obtain ⟨sc, hget, heq⟩ := Option.map_eq_some_iff.1 hsome
  obtain ⟨hkind, hstate⟩ := Prod.mk.inj heq
  have hprefix : (tokenize "<A<B x/></A>").take 5 ++ [sc] <+: tokenize "<A<B x/></A>" := by
    have htake := List.take_prefix (5 + 1) (tokenize "<A<B x/></A>")
    rwa [List.take_add_one, hget] at htake
  obtain ⟨hadmits, hfollows⟩ := (coupled_parse "Main" "<A<B x/></A>" {} none).1 _ sc hprefix
    (by rw [hkind]; decide)
  exact ⟨_, sc, hprefix, hkind, hadmits, (hfollows.startTag (by rw [hstate]; rfl)).2⟩

end Document

end LayoutMarkup
