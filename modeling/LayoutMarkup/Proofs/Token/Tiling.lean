import LayoutMarkup.Token.Scanner
import Mathlib.Data.List.Basic
import Mathlib.Data.Option.Basic

/-!
# Tokens and the text

A scanner stands in a text (`Scanner.Within`): what it has not read yet is the end of the text, and
its offset is the number of bytes in front of that. One step cuts a lexeme off the rest, and the
span of the token is the place of the lexeme in the text (`Scanner.scan_spec`). So every offset of a
scanner stands between two characters (`Within.isBoundary`).

Which tokens a state takes, and where it goes with them, is a table (`State.outcomes`), and so are
the states that it turns to (`State.turns`) and what it finds (`State.causes`). Every move goes by
the tables (`State.move_steps`), and what else is said about a move is read off them: so what a step
finds is about reading tokens (`Scanner.lexical_scan`).

The steps add up to the text: each token begins where the one before it ends, each has characters
but the last one, and together they are the text (`tiles_tokenize`).
-/

namespace LayoutMarkup

namespace Text

/-- The bytes of two pieces are counted apart. -/
theorem byteLength_append (front back : List Char) :
    byteLength (front ++ back) = byteLength front + byteLength back := by
  induction front with
  | nil => exact (Nat.zero_add _).symm
  | cons c front ih =>
    rw [List.cons_append, byteLength, byteLength, ih]
    omega

/-- A piece in front has no more bytes than the whole. -/
theorem byteLength_le_of_prefix {front cs : List Char} (h : front <+: cs) :
    byteLength front ≤ byteLength cs := by
  obtain ⟨back, rfl⟩ := h
  rw [byteLength_append]
  exact Nat.le_add_right _ _

/-- A piece with characters has bytes. -/
theorem byteLength_pos {cs : List Char} (h : cs ≠ []) : 0 < byteLength cs := by
  cases cs with
  | nil => exact absurd rfl h
  | cons c cs =>
    have hc := c.utf8Size_pos
    rw [byteLength]
    omega

/-- Splitting behind the bytes of a piece gives the piece. -/
theorem splitBytes?_append (front back : List Char) :
    splitBytes? (byteLength front) (front ++ back) = some (front, back) := by
  induction front with
  | nil => rw [byteLength, List.nil_append, splitBytes?]
  | cons c front ih =>
    have hc := c.utf8Size_pos
    obtain ⟨n, hn⟩ : ∃ n, byteLength (c :: front) = n + 1 :=
      ⟨byteLength (c :: front) - 1, by rw [byteLength]; omega⟩
    have hrest : n + 1 - c.utf8Size = byteLength front := by
      rw [← hn, byteLength]
      omega
    have hle : c.utf8Size ≤ n + 1 := by
      rw [← hn, byteLength]
      omega
    rw [hn, List.cons_append, splitBytes?, if_pos hle, hrest, ih]
    rfl

/-- A split gives two pieces that make the text, the first with as many bytes as asked for. -/
theorem splitBytes?_eq_some {n : Nat} {cs front back : List Char}
    (h : splitBytes? n cs = some (front, back)) : cs = front ++ back ∧ n = byteLength front := by
  fun_induction splitBytes? n cs generalizing front back with
  | case1 cs =>
    cases h
    exact ⟨rfl, rfl⟩
  | case2 n => exact absurd h (Option.some_ne_none _).symm
  | case3 n c cs hle ih =>
    obtain ⟨⟨front', back'⟩, hsplit, heq⟩ := Option.map_eq_some_iff.1 h
    cases heq
    obtain ⟨rfl, hrest⟩ := ih hsplit
    refine ⟨rfl, ?_⟩
    rw [byteLength, ← hrest]
    omega
  | case4 n c cs hnot => exact absurd h (Option.some_ne_none _).symm

/-- An offset stands between characters: the text can be split there. -/
def IsBoundary (cs : List Char) (offset : Nat) : Prop :=
  (splitBytes? offset cs).isSome = true

/-- The boundaries are the offsets behind the pieces in front of a text. -/
theorem isBoundary_iff {cs : List Char} {offset : Nat} :
    IsBoundary cs offset ↔ ∃ front back, cs = front ++ back ∧ offset = byteLength front := by
  unfold IsBoundary
  constructor
  · intro h
    obtain ⟨⟨front, back⟩, hsplit⟩ := Option.isSome_iff_exists.1 h
    exact ⟨front, back, splitBytes?_eq_some hsplit⟩
  · rintro ⟨front, back, rfl, rfl⟩
    rw [splitBytes?_append, Option.isSome_some]

/-- A text begins at a boundary. -/
theorem isBoundary_zero (cs : List Char) : IsBoundary cs 0 :=
  isBoundary_iff.2 ⟨[], cs, rfl, rfl⟩

/-- A boundary does not lie behind the text. -/
theorem IsBoundary.le_byteLength {cs : List Char} {offset : Nat} (h : IsBoundary cs offset) :
    offset ≤ byteLength cs := by
  obtain ⟨front, back, rfl, rfl⟩ := isBoundary_iff.1 h
  exact byteLength_le_of_prefix (List.prefix_append front back)

/-- A text ends at a boundary. -/
theorem isBoundary_byteLength (cs : List Char) : IsBoundary cs (byteLength cs) :=
  isBoundary_iff.2 ⟨cs, [], (List.append_nil cs).symm, rfl⟩

end Text

/-- A piece of a text is what its span covers. -/
theorem Span.slice?_append (front piece back : List Char) :
    Span.slice? ⟨Text.byteLength front, Text.byteLength front + Text.byteLength piece⟩
      (String.ofList (front ++ (piece ++ back))) = some (String.ofList piece) := by
  have hstart := Text.splitBytes?_append front (piece ++ back)
  have hpiece := Text.splitBytes?_append piece back
  unfold Span.slice? Span.size
  dsimp only
  rw [String.toList_ofList, hstart, Nat.add_sub_cancel_left]
  simp [hpiece]

/-- What the characters of a token of some kinds are, and what does not come behind them. -/
def TokenKind.Reads : TokenKind → List Char → List Char → Prop
  | .tagOpen, lexeme, _ => lexeme = ['<']
  | .endTagOpen, lexeme, _ => lexeme = ['<', '/']
  | .endTagClose, lexeme, _ => lexeme = ['>']
  | .endTagName, _, rest => ∀ c ∈ rest.head?, isTagNameChar c = false
  | _, _, _ => True

namespace Scanner

/-! ## The states -/

/-- A move takes what the kind of its token reads. -/
def Move.Reads : Move → Prop
  | .take kind lexeme rest _ _ => kind.Reads lexeme rest
  | .turn _ _ => True

/-- A run of characters does not go on behind its end. -/
theorem head?_dropWhile {p : Char → Bool} {cs : List Char} :
    ∀ c ∈ (cs.dropWhile p).head?, p c = false := by
  intro c hc
  have hstop := List.head?_dropWhile_not p cs
  rw [Option.mem_def.1 hc] at hstop
  exact hstop

namespace State

/-- The tokens that a state takes before the end of the text, and the states it goes to. -/
def outcomes : State → List (TokenKind × State)
  | content => [(.commentOpen, inComment), (.headerOpen, inHeader), (.endTagOpen, endTagOpened),
      (.tagOpen, tagOpened), (.content, content)]
  | tagOpened => [(.tagName, inTag), (.blank, inTag)]
  | inTag => [(.tagSelfClose, content), (.tagClose, content), (.blank, inTag),
      (.attributeName, afterName), (.unknown, inTag)]
  | afterName => [(.assign, beforeValue), (.blank, afterName)]
  | beforeValue => [(.blank, beforeValue), (.attributeValue, inTag)]
  | endTagOpened => [(.endTagName, inEndTag), (.blank, inEndTag)]
  | inEndTag => [(.endTagClose, content), (.blank, inEndTag), (.unknown, inEndTag)]
  | inComment => [(.commentClose, content), (.comment, inComment)]
  | inHeader => [(.headerClose, content), (.header, inHeader)]

/-- A state and the states it may turn to. -/
def reach : State → List State
  | content => [content]
  | tagOpened => [tagOpened, inTag, content]
  | inTag => [inTag, content]
  | afterName => [afterName, inTag, content]
  | beforeValue => [beforeValue, inTag, content]
  | endTagOpened => [endTagOpened, inEndTag, content]
  | inEndTag => [inEndTag, content]
  | inComment => [inComment]
  | inHeader => [inHeader]

/-- What a move does with the state, by the tables. -/
def Follows (state : State) : Move → Prop
  | .take kind _ _ next _ => (kind, next) ∈ state.outcomes
  | .turn next _ => next.reach ⊆ state.reach

/-- What a state may find when it takes something at a character. -/
def causes (c : Char) : State → List Cause
  | tagOpened => [.detachedTagName]
  | inTag => [.strayCharacter]
  | beforeValue => [.openValue c]
  | endTagOpened => [.detachedEndTagName]
  | inEndTag => [.strayEndTagContent]
  | inComment => [.openComment]
  | inHeader => [.openHeader]
  | content | afterName => []

/-- The states that a state turns to, with what it finds then. -/
def turns : State → List (State × Option Cause)
  | tagOpened => [(inTag, none)]
  | endTagOpened => [(inEndTag, none)]
  | inTag | inEndTag => [(content, some .missingBracket)]
  | afterName | beforeValue => [(inTag, none)]
  | content | inComment | inHeader => []

/-- What a move does at a character, by the tables: what it takes, where it goes, and what it finds.
It takes what the kind of the token reads, and only a `<` leads outside of tags without being
taken. -/
def Steps (c : Char) (state : State) : Move → Prop
  | .take kind lexeme rest next cause =>
    (kind, next) ∈ state.outcomes ∧ (∀ x ∈ cause, x ∈ state.causes c) ∧ kind.Reads lexeme rest
  | .turn next cause => (next, cause) ∈ state.turns ∧ (next = content → c = '<')

/-- Taking what stands in front of a mark finds at most that the mark does not come. -/
theorem steps_upTo {c : Char} {state next : State} {kind : TokenKind} {mark cs : List Char}
    {cause : Cause} (hnext : (kind, next) ∈ state.outcomes) (hcause : cause ∈ state.causes c)
    (hreads : ∀ lexeme rest, kind.Reads lexeme rest) :
    state.Steps c (.upTo kind mark cs next cause) := by
  refine ⟨hnext, fun x hx => ?_, hreads _ _⟩
  split at hx
  next => exact Option.some_inj.1 hx ▸ hcause
  next => exact absurd hx (Option.some_ne_none x).symm

/-- Every move before the end of the text goes by the tables. -/
theorem move_steps (state : State) (c : Char) (rest : List Char) :
    state.Steps c (state.move (c :: rest)) := by
  cases state <;> simp only [move]
  case content =>
    unfold moveContent
    split <;> simp [Move.run, Steps, outcomes, TokenKind.Reads]
  case tagOpened =>
    unfold moveName
    split
    next => simp [Move.run, Steps, outcomes, TokenKind.Reads]
    next => split <;> simp [Move.run, Steps, outcomes, causes, turns, TokenKind.Reads]
  case endTagOpened =>
    unfold moveName
    split
    -- The name of an end tag goes on as long as there are characters of names.
    next => exact ⟨by simp [outcomes], by simp, head?_dropWhile⟩
    next => split <;> simp [Move.run, Steps, outcomes, causes, turns, TokenKind.Reads]
  case inTag =>
    unfold moveTag
    split
    case h_4 =>
      -- Blanks, the name of an attribute, or a stray character.
      split
      next => simp [Move.run, Steps, outcomes, TokenKind.Reads]
      next => split <;> simp [Move.run, Steps, outcomes, causes, TokenKind.Reads]
    all_goals simp [Steps, outcomes, turns, TokenKind.Reads]
  case inEndTag =>
    unfold moveEndTag
    split
    case h_3 => split <;> simp [Move.run, Steps, outcomes, causes, TokenKind.Reads]
    all_goals simp [Steps, outcomes, turns, TokenKind.Reads]
  case afterName =>
    unfold moveAssign
    split
    next => simp [Steps, outcomes, TokenKind.Reads]
    next => split <;> simp [Move.run, Steps, outcomes, turns, TokenKind.Reads]
  case beforeValue =>
    unfold moveValue
    split
    next => simp [Move.run, Steps, outcomes, TokenKind.Reads]
    next =>
      split
      next =>
        -- The quote is the character at which the value begins.
        unfold moveQuoted
        split <;> simp [Steps, outcomes, causes, TokenKind.Reads]
      next => split <;> simp [Steps, outcomes, turns, TokenKind.Reads]
  case inComment =>
    unfold moveComment
    split
    next => simp [Steps, outcomes, TokenKind.Reads]
    next => exact steps_upTo (by simp [outcomes]) (by simp [causes]) fun _ _ => trivial
  case inHeader =>
    unfold moveHeader
    split
    next => simp [Steps, outcomes, TokenKind.Reads]
    next => exact steps_upTo (by simp [outcomes]) (by simp [causes]) fun _ _ => trivial

/-- What a state reaches after a turn, it reaches. -/
theorem reach_subset_of_mem_turns {state next : State} {cause : Option Cause}
    (h : (next, cause) ∈ state.turns) : next.reach ⊆ state.reach := by
  cases state <;> simp_all [turns, reach]

/-- Every move takes what the kind of its token reads. -/
theorem move_reads (state : State) (cs : List Char) : (state.move cs).Reads := by
  cases cs with
  | nil => exact trivial
  | cons c rest =>
    have hsteps := state.move_steps c rest
    cases hmove : state.move (c :: rest) with
    | take => exact (hmove ▸ hsteps).2.2
    | turn => exact trivial

/-- Every move before the end of the text is in the tables. -/
theorem move_follows (state : State) (c : Char) (rest : List Char) :
    state.Follows (state.move (c :: rest)) := by
  have hsteps := state.move_steps c rest
  cases hmove : state.move (c :: rest) with
  | take => exact (hmove ▸ hsteps).1
  | turn => exact reach_subset_of_mem_turns (hmove ▸ hsteps).1

/-- The scanner turns to what stands outside of tags only at a `<`. -/
theorem ne_turn_content {c : Char} (hc : c ≠ '<') (state : State) (rest : List Char)
    (cause : Option Cause) : state.move (c :: rest) ≠ .turn .content cause := by
  intro hmove
  have hsteps := state.move_steps c rest
  rw [hmove] at hsteps
  exact hc (hsteps.2 rfl)

/-- A problem that is found at a turn is a `<` inside a tag, and the scanner goes on outside. -/
theorem next_of_turn {state next : State} {cs : List Char} {cause : Cause}
    (hmove : state.move cs = .turn next (some cause)) : next = .content := by
  cases cs with
  | nil => cases hmove
  | cons c rest =>
    have hsteps := state.move_steps c rest
    rw [hmove] at hsteps
    have hturn := hsteps.1
    cases state <;> simp [turns] at hturn <;> exact hturn.1

/-- Every state reaches itself. -/
theorem self_mem_reach (state : State) : state ∈ state.reach := by
  cases state <;> decide

/-- The name of an end tag is only taken right behind `</`. -/
theorem eq_endTagOpened_of_endTagName {state m next : State} (hm : m ∈ state.reach)
    (h : (TokenKind.endTagName, next) ∈ m.outcomes) : state = endTagOpened := by
  cases m <;> simp [outcomes] at h
  cases state <;> simp [reach] at hm ⊢

/-- Only `</` leads behind `</`. -/
theorem eq_endTagOpen_of_endTagOpened {m : State} {kind : TokenKind}
    (h : (kind, endTagOpened) ∈ m.outcomes) : kind = .endTagOpen := by
  cases m with
  | content => simpa [outcomes] using h
  | _ => simp [outcomes] at h

/-- The name of a start tag is only taken right behind `<`. -/
theorem eq_tagOpened_of_tagName {state m next : State} (hm : m ∈ state.reach)
    (h : (TokenKind.tagName, next) ∈ m.outcomes) : state = tagOpened := by
  cases m <;> simp [outcomes] at h
  cases state <;> simp [reach] at hm ⊢

/-- Only `<` leads behind `<`. -/
theorem eq_tagOpen_of_tagOpened {m : State} {kind : TokenKind}
    (h : (kind, tagOpened) ∈ m.outcomes) : kind = .tagOpen := by
  cases m with
  | content => simpa [outcomes] using h
  | _ => simp [outcomes] at h

end State

/-! ## Problems -/

/-- The problem that a move finds. -/
def Move.cause? : Move → Option Cause
  | .take _ _ _ _ cause => cause
  | .turn _ cause => cause

/-- What a move finds is about reading tokens. -/
theorem State.isLexical_of_move (state : State) (cs : List Char) :
    ∀ cause ∈ (state.move cs).cause?, cause.code.isLexical = true := by
  intro cause hcause
  cases cs with
  | nil => exact absurd hcause (Option.some_ne_none cause).symm
  | cons c rest =>
    have hsteps := state.move_steps c rest
    generalize state.move (c :: rest) = move at hsteps hcause
    cases move with
    | take kind lexeme rest next found =>
      have hmem := hsteps.2.1 cause hcause
      cases state <;> simp_all [causes, Cause.code, Code.isLexical]
    | turn next found =>
      obtain rfl : found = some cause := hcause
      have hmem := hsteps.1
      cases state <;> simp_all [turns, Cause.code, Code.isLexical]

/-- If something was found, it is about reading tokens. -/
def Lexical (found : Option Diagnostic) : Prop :=
  ∀ d ∈ found, ∃ code : Code, d.code = some code ∧ code.isLexical = true

/-- What a move finds comes before what was found already. -/
theorem Lexical.or {pending : Option Diagnostic} (h : Lexical pending) (state : State)
    (cs : List Char) (span : Span) :
    Lexical (((state.move cs).cause?.map (·.on span)).or pending) := by
  have hmove := state.isLexical_of_move cs
  cases hcause : (state.move cs).cause? with
  | none => exact h
  | some cause =>
    rintro d ⟨⟩
    exact ⟨cause.code, rfl, hmove cause hcause⟩

/-- What is found until a token is taken is about reading tokens. -/
theorem lexical_advance (offset : Nat) (cs : List Char) (state : State)
    {pending : Option Diagnostic} (h : Lexical pending) :
    Lexical (advance offset cs state pending).diagnostic := by
  fun_induction advance offset cs state pending with
  | case1 state pending kind lexeme rest next cause hm span =>
    have hfound := h.or state cs span
    rwa [hm] at hfound
  | case2 state pending next cause hm ih =>
    have hfound := h.or state cs (.point offset)
    rw [hm] at hfound
    exact ih hfound

/-- What a step of the scanner finds is about reading tokens. -/
theorem lexical_scan (s : Scanner) : Lexical s.scan.diagnostic :=
  lexical_advance s.offset s.rest s.state fun _ hd => nomatch hd

/-! ## One step -/

/-- The scanner stands in a text: what it has not read yet is the end of the text. -/
def Within (text : List Char) (s : Scanner) : Prop :=
  ∃ front, text = front ++ s.rest ∧ s.offset = Text.byteLength front

/-- In the beginning a scanner stands in front of its text. -/
theorem within_ofText (text : String) : Within text.toList (ofText text) :=
  ⟨[], rfl, rfl⟩

/-- The offset of a scanner is a boundary. -/
theorem Within.isBoundary {text : List Char} {s : Scanner} (h : s.Within text) :
    Text.IsBoundary text s.offset := by
  obtain ⟨front, htext, hoffset⟩ := h
  exact Text.isBoundary_iff.2 ⟨front, s.rest, htext, hoffset⟩

/-- The offset of a scanner lies in the text. -/
theorem Within.offset_le {text : List Char} {s : Scanner} (h : s.Within text) :
    s.offset ≤ Text.byteLength text :=
  h.isBoundary.le_byteLength

/-- What a step of the scanner does. -/
structure Cuts (s : Scanner) (sc : Scanned) : Prop where
  /-- The token is a lexeme in front of the rest, and it is empty only at the end of the text. -/
  lexeme : ∃ lexeme, s.rest = lexeme ++ sc.after.rest ∧ sc.token.text = String.ofList lexeme ∧
    sc.token.span = ⟨s.offset, s.offset + Text.byteLength lexeme⟩ ∧ (lexeme = [] ↔ s.rest = [])
  /-- The scanner goes on behind the token. -/
  offset : sc.after.offset = sc.token.span.stop
  /-- At the end of the text the state stays. Before it, the token and the next state are in the
  table of the state or of one that it may turn to. -/
  outcome : s.rest = [] ∧ sc.token.kind = .endOfText ∧ sc.after.state = s.state ∨
    ∃ m ∈ s.state.reach, (sc.token.kind, sc.after.state) ∈ m.outcomes

/-- Turning until a token is taken cuts the text. -/
theorem advance_spec (offset : Nat) (cs : List Char) (state : State)
    (pending : Option Diagnostic) :
    Cuts ⟨cs, offset, state⟩ (advance offset cs state pending) := by
  fun_induction advance offset cs state pending with
  | case1 state pending kind lexeme rest next cause hm span =>
    refine ⟨⟨lexeme, (State.append_of_take hm).symm, rfl, rfl, State.lexeme_eq_nil_iff hm⟩, rfl, ?_⟩
    cases cs with
    | nil =>
      rw [State.move] at hm
      cases hm
      exact Or.inl ⟨rfl, rfl, rfl⟩
    | cons c tail =>
      have hfollows := state.move_follows c tail
      rw [hm] at hfollows
      exact Or.inr ⟨state, state.self_mem_reach, hfollows⟩
  | case2 state pending next cause hm ih =>
    cases cs with
    | nil =>
      rw [State.move] at hm
      cases hm
    | cons c tail =>
      -- What the next state reaches, the state reaches.
      have hfollows := state.move_follows c tail
      rw [hm] at hfollows
      refine ⟨ih.lexeme, ih.offset, ?_⟩
      rcases ih.outcome with ⟨hnil, -⟩ | ⟨m, hreach, hmem⟩
      · exact absurd hnil (List.cons_ne_nil c tail)
      · exact Or.inr ⟨m, hfollows hreach, hmem⟩

/-- A step of the scanner cuts the text. -/
theorem scan_spec (s : Scanner) : s.Cuts s.scan :=
  advance_spec s.offset s.rest s.state none

/-- A step leaves the scanner in the text. -/
theorem Within.scan {text : List Char} {s : Scanner} (h : s.Within text) :
    s.scan.after.Within text := by
  obtain ⟨front, rfl, hoffset⟩ := h
  obtain ⟨lexeme, hrest, -, hspan, -⟩ := s.scan_spec.lexeme
  refine ⟨front ++ lexeme, by rw [List.append_assoc, ← hrest], ?_⟩
  rw [s.scan_spec.offset, hspan, Text.byteLength_append, hoffset]

/-- The span of a token begins where the scanner stood and ends where it stands then. -/
theorem span_scan (s : Scanner) : s.scan.token.span = ⟨s.offset, s.scan.after.offset⟩ := by
  obtain ⟨lexeme, -, -, hspan, -⟩ := s.scan_spec.lexeme
  rw [s.scan_spec.offset, hspan]

/-- The scanner never goes back. -/
theorem offset_le_scan (s : Scanner) : s.offset ≤ s.scan.after.offset := by
  obtain ⟨lexeme, -, -, hspan, -⟩ := s.scan_spec.lexeme
  rw [s.scan_spec.offset, hspan]
  exact Nat.le_add_right _ _

/-- Every token but the last one has characters. -/
theorem offset_lt_scan {s : Scanner} (h : s.scan.token.kind ≠ .endOfText) :
    s.offset < s.scan.after.offset := by
  obtain ⟨lexeme, -, -, hspan, hnil⟩ := s.scan_spec.lexeme
  have hne : lexeme ≠ [] := by
    intro hempty
    -- At the end of the text only the last token is taken.
    have hend : s.scan = advance s.offset [] s.state none := by rw [scan, hnil.1 hempty]
    rw [hend, advance] at h
    exact h rfl
  have hpos := Text.byteLength_pos hne
  rw [s.scan_spec.offset, hspan]
  dsimp only
  omega

/-- What every step keeps, holds after each of them. -/
theorem front_induction {β : Type} {f : β → Scanned → β} {P : Scanner → β → Prop}
    (step : ∀ {s b}, P s b → P s.scan.after (f b s.scan)) {s : Scanner} {b : β} (h : P s b)
    {front : List Scanned} (hfront : front <+: s.run) : ∃ s', P s' (front.foldl f b) := by
  fun_induction run s generalizing b front with
  | case1 s hnil =>
    cases front with
    | nil => exact ⟨s, h⟩
    | cons x front =>
      obtain ⟨rfl, hnone⟩ := List.cons_prefix_cons.1 hfront
      rw [List.prefix_nil.1 hnone]
      exact ⟨s.scan.after, step h⟩
  | case2 s hne ih =>
    cases front with
    | nil => exact ⟨s, h⟩
    | cons x front =>
      obtain ⟨rfl, hrest⟩ := List.cons_prefix_cons.1 hfront
      exact ih (step h) hrest

/-- What every step keeps, holds at the end of the text. -/
theorem run_induction {β : Type} {f : β → Scanned → β} {P : Scanner → β → Prop}
    (step : ∀ {s b}, P s b → P s.scan.after (f b s.scan)) {s : Scanner} {b : β} (h : P s b) :
    ∃ s', P s' (s.run.foldl f b) :=
  front_induction step h (List.prefix_refl s.run)

/-- Two ways to take the steps come to the same if each step does, where what every step keeps
holds. -/
theorem foldl_run_congr {β : Type} {f g : β → Scanned → β} {P : Scanner → β → Prop}
    (step : ∀ {s b}, P s b → P s.scan.after (f b s.scan))
    (hsame : ∀ {s b}, P s b → g b s.scan = f b s.scan) {s : Scanner} {b : β} (h : P s b) :
    s.run.foldl g b = s.run.foldl f b := by
  fun_induction run s generalizing b with
  | case1 s hnil => exact hsame h
  | case2 s hne ih =>
    rw [List.foldl_cons, List.foldl_cons, hsame h]
    exact ih (step h)

/-! ## All tokens -/

/-- Tokens cover the end of a text, from an offset on. -/
structure Tiles (text : List Char) (offset : Nat) (rest : List Char) (tokens : List Token) :
    Prop where
  /-- The first token begins at the offset. -/
  first : tokens.head?.map (·.span.start) = some offset
  /-- Every other token begins where the one before it ends. -/
  chain : tokens.IsChain fun a b => a.span.stop = b.span.start
  /-- Every token but the last one has characters, and none of them is the end of the text. -/
  inner : ∀ token ∈ tokens.dropLast,
    token.span.start < token.span.stop ∧ token.kind ≠ .endOfText
  /-- The last token is the end of the text and stands there. -/
  last : tokens.getLast? = some ⟨.endOfText, .point (Text.byteLength text), ""⟩
  /-- Every token begins and ends at a boundary. -/
  boundary : ∀ token ∈ tokens,
    Text.IsBoundary text token.span.start ∧ Text.IsBoundary text token.span.stop
  /-- The characters of a token are those that its span covers. -/
  slice : ∀ token ∈ tokens, token.span.slice? (String.ofList text) = some token.text
  /-- The characters of all tokens are the end of the text. -/
  whole : tokens.flatMap (·.text.toList) = rest
  /-- There is at most one token for each character, and the last one. -/
  length_le : tokens.length ≤ rest.length + 1

/-- Before the end of the text no token is its end. -/
theorem kind_ne_of_mem_outcomes {state next : State} {kind : TokenKind}
    (h : (kind, next) ∈ state.outcomes) : kind ≠ .endOfText := by
  rintro rfl
  cases state <;> simp [State.outcomes] at h

/-- At the end of the text the last token is taken. -/
theorem token_scan_of_nil {s : Scanner} (h : s.rest = []) :
    s.scan.token = ⟨.endOfText, .point s.offset, ""⟩ := by
  have hscan : s.scan = advance s.offset [] s.state none := by rw [scan, h]
  rw [hscan, advance]
  rfl

/-- The end of the text is taken where no character is left, and nowhere else. -/
theorem kind_scan_iff (s : Scanner) : s.scan.token.kind = .endOfText ↔ s.rest = [] := by
  refine ⟨fun hkind => ?_, fun hnil => by rw [token_scan_of_nil hnil]⟩
  rcases s.scan_spec.outcome with ⟨hnil, -⟩ | ⟨m, -, hmem⟩
  · exact hnil
  · exact absurd hkind (kind_ne_of_mem_outcomes hmem)

/-- The last token covers the end of a text that has no characters left. -/
theorem tiles_last {text : List Char} {s : Scanner} (h : s.Within text) (hnil : s.rest = []) :
    Tiles text s.offset s.rest [s.scan.token] := by
  have hboundary := h.isBoundary
  obtain ⟨front, htext, hoffset⟩ := h
  rw [hnil, List.append_nil] at htext
  subst htext
  rw [token_scan_of_nil hnil, hnil]
  -- Nothing is left, so the token is the empty slice at the end of the text.
  have hslice := Span.slice?_append text [] []
  rw [List.append_nil, List.append_nil, ← hoffset] at hslice
  exact
    { first := rfl
      chain := .singleton _
      inner := fun token hmem => absurd hmem List.not_mem_nil
      last := by rw [← hoffset]; rfl
      boundary := fun token hmem => by
        rw [List.mem_singleton.1 hmem]
        exact ⟨hboundary, hboundary⟩
      slice := fun token hmem => by
        rw [List.mem_singleton.1 hmem]
        exact hslice
      whole := rfl
      length_le := Nat.le_refl 1 }

/-- A token in front of tokens that cover the rest covers the text with them. -/
theorem Tiles.cons {text : List Char} {s : Scanner} {tokens : List Token} (hs : s.Within text)
    (hne : s.rest ≠ []) (h : Tiles text s.scan.after.offset s.scan.after.rest tokens) :
    Tiles text s.offset s.rest (s.scan.token :: tokens) := by
  obtain ⟨lexeme, hrest, htext, hspan, hnil⟩ := s.scan_spec.lexeme
  have hlexeme : lexeme ≠ [] := fun hempty => hne (hnil.1 hempty)
  -- The end of the text is taken only where nothing is left.
  have hkind : s.scan.token.kind ≠ .endOfText := by
    rcases s.scan_spec.outcome with ⟨hend, -⟩ | ⟨m, -, hmem⟩
    · exact absurd hend hne
    · exact kind_ne_of_mem_outcomes hmem
  have hlt : s.scan.token.span.start < s.scan.token.span.stop := by
    rw [s.span_scan]
    exact offset_lt_scan hkind
  have hslice : s.scan.token.span.slice? (String.ofList text) = some s.scan.token.text := by
    obtain ⟨front, hfront, hoffset⟩ := hs
    rw [hspan, htext, hfront, hoffset, hrest]
    exact Span.slice?_append front lexeme s.scan.after.rest
  -- There is a token behind this one, and it begins where this one ends.
  obtain ⟨next, more, rfl⟩ : ∃ next more, tokens = next :: more := by
    cases tokens with
    | nil => exact absurd h.first (Option.some_ne_none _).symm
    | cons next more => exact ⟨next, more, rfl⟩
  have hnext : s.scan.token.span.stop = next.span.start := by
    rw [← s.scan_spec.offset]
    exact (Option.some.inj h.first).symm
  exact
    { first := congrArg some (congrArg Span.start s.span_scan)
      chain := .cons_cons hnext h.chain
      inner := fun token hmem => by
        rcases List.mem_cons.1 hmem with rfl | hmem
        · exact ⟨hlt, hkind⟩
        · exact h.inner token hmem
      last := h.last
      boundary := fun token hmem => by
        rcases List.mem_cons.1 hmem with rfl | hmem
        · rw [s.span_scan]
          exact ⟨hs.isBoundary, hs.scan.isBoundary⟩
        · exact h.boundary token hmem
      slice := fun token hmem => by
        rcases List.mem_cons.1 hmem with rfl | hmem
        · exact hslice
        · exact h.slice token hmem
      whole := by
        rw [List.flatMap_cons, h.whole, htext, String.toList_ofList, hrest]
      length_le := by
        have hpos := List.length_pos_iff.2 hlexeme
        have hlen := h.length_le
        rw [hrest, List.length_append, List.length_cons]
        omega }

/-- From wherever a scanner stands in a text, its tokens cover the rest. -/
theorem tiles_run {text : List Char} {s : Scanner} (h : s.Within text) :
    Tiles text s.offset s.rest (s.run.map Scanned.token) := by
  fun_induction run s with
  | case1 s hnil => exact tiles_last h hnil
  | case2 s hne ih => exact (ih h.scan).cons h hne

end Scanner

/-- The tokens of every text cover it from its beginning to its end: each begins where the one
before it ends, each but the last one has characters, the last one and no other is the end of the
text, and no character is cut in two. Put together they are the text. -/
theorem tiles_tokenize (text : String) :
    Scanner.Tiles text.toList 0 text.toList ((tokenize text).map Scanned.token) ∧
      String.join ((tokenize text).map fun scanned => scanned.token.text) = text := by
  have h := Scanner.tiles_run (Scanner.within_ofText text)
  refine ⟨h, String.toList_injective ?_⟩
  calc (String.join ((tokenize text).map fun scanned => scanned.token.text)).toList
      = ((tokenize text).map fun scanned => scanned.token.text).flatMap String.toList :=
        String.toList_join
    _ = ((tokenize text).map Scanned.token).flatMap (·.text.toList) := by
        rw [List.flatMap_map, List.flatMap_map]
    _ = text.toList := h.whole

end LayoutMarkup
