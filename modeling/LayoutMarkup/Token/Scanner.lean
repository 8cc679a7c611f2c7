import LayoutMarkup.Diagnostic.Cause
import LayoutMarkup.Text.Blank
import LayoutMarkup.Text.Numeral
import LayoutMarkup.Token.Basic

/-!
# Scanning

The scanner is a machine with nine states that cuts a text into tokens. In each state it makes a
`Move`: it takes characters as a token, or it turns to another state without taking any. A turn
always leads to a state of lower rank, so between two tokens there are at most two of them
(`rank_lt_of_turn`), and a token is empty only at the end of the text (`lexeme_eq_nil_iff`). Hence
the scan of a text ends, and its lexemes put together are the text.

Lexical problems never stop the scan. They are reported with the token at which they were found.
-/

namespace LayoutMarkup

/-- Whether a character may open a tag name. -/
def isTagNameStart (c : Char) : Bool :=
  Text.isLetter c || c == '_' || c == ':'

/-- Whether a character may stand in a tag name. -/
def isTagNameChar (c : Char) : Bool :=
  Text.isLetterOrNumeral c || c == '_' || c == ':' || c == '-' || c == '.'

/-- A character that may open a tag name may stand in it. -/
theorem isTagNameChar_of_start {c : Char} (h : isTagNameStart c = true) :
    isTagNameChar c = true := by
  simp only [isTagNameStart, Bool.or_eq_true] at h
  simp only [isTagNameChar, Text.isLetterOrNumeral, Bool.or_eq_true]
  rcases h with (h | h) | h <;> simp [h]

/-- Whether a character quotes attribute values. -/
def isQuote (c : Char) : Bool :=
  c == '"' || c == '\x27'

/-- Whether a character may stand in an attribute name. -/
def isAttributeNameChar (c : Char) : Bool :=
  !(Text.isBlank c || isQuote c || c == '>' || c == '/' || c == '=' || c == '<')

/-- Whether a character may stand in a value without quotes. -/
def isBareValueChar (c : Char) : Bool :=
  !(Text.isBlank c || isQuote c || c == '<' || c == '>' || c == '=')

/-- The characters in front of the first occurrence of `mark`, and the rest from there on. Without
an occurrence the rest is empty. -/
def splitBefore (mark : List Char) : List Char → List Char × List Char
  | [] => ([], [])
  | c :: cs =>
    if mark.isPrefixOf (c :: cs) then ([], c :: cs)
    else (c :: (splitBefore mark cs).1, (splitBefore mark cs).2)

/-- A value without quotes in front of the text. A slash at its end is left to `/>`, unless it is
the whole value. -/
def splitBareValue (cs : List Char) : List Char × List Char :=
  let value := cs.takeWhile isBareValueChar
  let rest := cs.dropWhile isBareValueChar
  -- In `a=b/>` the slash belongs to the end of the tag, in `a=/>` to the value.
  if 1 < value.length && value.getLast? == some '/' && rest.head? == some '>' then
    (value.dropLast, '/' :: rest)
  else
    (value, rest)

namespace Scanner

/-- What the scanner has read just before the next token. -/
inductive State where
  /-- Outside of tags. -/
  | content
  /-- Behind `<`. -/
  | tagOpened
  /-- Inside a start tag. -/
  | inTag
  /-- Behind the name of an attribute. -/
  | afterName
  /-- Behind `=`. -/
  | beforeValue
  /-- Behind `</`. -/
  | endTagOpened
  /-- Inside an end tag. -/
  | inEndTag
  /-- Behind `<!--`. -/
  | inComment
  /-- Behind `<?`. -/
  | inHeader
  deriving DecidableEq, Repr

/-- What the scanner does in a state. -/
inductive Move where
  /-- Take characters as a token, leave the rest, and go to the next state. -/
  | take (kind : TokenKind) (lexeme rest : List Char) (next : State) (cause : Option Cause)
  /-- Go to the next state without taking characters. -/
  | turn (next : State) (cause : Option Cause)
  deriving DecidableEq, Repr

/-- Take the longest run of characters with a property. -/
def Move.run (kind : TokenKind) (p : Char → Bool) (cs : List Char) (next : State)
    (cause : Option Cause) : Move :=
  .take kind (cs.takeWhile p) (cs.dropWhile p) next cause

/-- Take all characters in front of `mark`; if it does not come, there is something to report. -/
def Move.upTo (kind : TokenKind) (mark cs : List Char) (next : State) (cause : Cause) : Move :=
  let (body, rest) := splitBefore mark cs
  .take kind body rest next (if rest.isEmpty then some cause else none)

namespace State

/-- The move outside of tags: a mark that opens something, or text up to the next `<`. -/
def moveContent : Char → List Char → Move
  | '<', '!' :: '-' :: '-' :: rest =>
    .take .commentOpen ['<', '!', '-', '-'] rest .inComment none
  | '<', '?' :: rest => .take .headerOpen ['<', '?'] rest .inHeader none
  | '<', '/' :: rest => .take .endTagOpen ['<', '/'] rest .endTagOpened none
  | '<', rest => .take .tagOpen ['<'] rest .tagOpened none
  | c, rest => .run .content (· != '<') (c :: rest) .content none

/-- The move inside a comment: its end mark, or its body. -/
def moveComment : Char → List Char → Move
  | '-', '-' :: '>' :: rest => .take .commentClose ['-', '-', '>'] rest .content none
  | c, rest => .upTo .comment ['-', '-', '>'] (c :: rest) .inComment .openComment

/-- The move inside a header: its end mark, or its body. -/
def moveHeader : Char → List Char → Move
  | '?', '>' :: rest => .take .headerClose ['?', '>'] rest .content none
  | c, rest => .upTo .header ['?', '>'] (c :: rest) .inHeader .openHeader

/-- The move inside a start tag: its end mark, blanks, or an attribute name. A `<` ends the tag. -/
def moveTag : Char → List Char → Move
  | '/', '>' :: rest => .take .tagSelfClose ['/', '>'] rest .content none
  | '>', rest => .take .tagClose ['>'] rest .content none
  | '<', _ => .turn .content (some .missingBracket)
  | c, rest =>
    if Text.isBlank c then .run .blank Text.isBlank (c :: rest) .inTag none
    else if isAttributeNameChar c then
      .run .attributeName isAttributeNameChar (c :: rest) .afterName none
    else .take .unknown [c] rest .inTag (some .strayCharacter)

/-- The move inside an end tag: its end mark, blanks, or what should not be there. A `<` ends the
tag. -/
def moveEndTag : Char → List Char → Move
  | '>', rest => .take .endTagClose ['>'] rest .content none
  | '<', _ => .turn .content (some .missingBracket)
  | c, rest =>
    if Text.isBlank c then .run .blank Text.isBlank (c :: rest) .inEndTag none
    else .run .unknown (fun c => c != '>' && c != '<') (c :: rest) .inEndTag
      (some .strayEndTagContent)

/-- The move behind `<` or `</`: the name, or blanks that should not be there. -/
def moveName (kind : TokenKind) (next : State) (cause : Cause) (c : Char) (rest : List Char) :
    Move :=
  if isTagNameStart c then .run kind isTagNameChar (c :: rest) next none
  else if Text.isBlank c then .run .blank Text.isBlank (c :: rest) next (some cause)
  else .turn next none

/-- The move behind an attribute name: `=` or blanks. -/
def moveAssign : Char → List Char → Move
  | '=', rest => .take .assign ['='] rest .beforeValue none
  | c, rest =>
    if Text.isBlank c then .run .blank Text.isBlank (c :: rest) .afterName none
    else .turn .inTag none

/-- The value that `quote` has opened: up to the next `quote`, that one included. -/
def moveQuoted (quote : Char) (rest : List Char) : Move :=
  match splitBefore [quote] rest with
  | (body, []) => .take .attributeValue (quote :: body) [] .inTag (some (.openValue quote))
  | (body, c :: rest) => .take .attributeValue (quote :: body ++ [c]) rest .inTag none

/-- The move behind `=`: blanks, a quoted value, or a value without quotes. -/
def moveValue (c : Char) (rest : List Char) : Move :=
  if Text.isBlank c then .run .blank Text.isBlank (c :: rest) .beforeValue none
  else if isQuote c then moveQuoted c rest
  else if isBareValueChar c then
    .take .attributeValue (splitBareValue (c :: rest)).1 (splitBareValue (c :: rest)).2 .inTag none
  else .turn .inTag none

/-- The move of a state on the rest of the text. At its end every state takes the last token. -/
def move (state : State) : List Char → Move
  | [] => .take .endOfText [] [] state none
  | c :: rest =>
    match state with
    | content => moveContent c rest
    | tagOpened => moveName .tagName .inTag .detachedTagName c rest
    | inTag => moveTag c rest
    | afterName => moveAssign c rest
    | beforeValue => moveValue c rest
    | endTagOpened => moveName .endTagName .inEndTag .detachedEndTagName c rest
    | inEndTag => moveEndTag c rest
    | inComment => moveComment c rest
    | inHeader => moveHeader c rest

/-- The number of turns that a state may need before it takes a token. -/
def rank : State → Nat
  | tagOpened | afterName | beforeValue | endTagOpened => 2
  | inTag | inEndTag => 1
  | content | inComment | inHeader => 0

end State

/-- What a move of a state of a given rank owes to a text that has not ended: what it takes and what
it leaves make up the text, it takes something, and a turn leads to a lower rank. -/
def Move.Respects (rank : Nat) (cs : List Char) : Move → Prop
  | .take _ lexeme rest _ _ => lexeme ≠ [] ∧ lexeme ++ rest = cs
  | .turn next _ => next.rank < rank

/-- A run that begins with the first character respects the text. -/
theorem Move.run_respects {p : Char → Bool} {c : Char} (hc : p c = true) (r : Nat)
    (kind : TokenKind) (rest : List Char) (next : State) (cause : Option Cause) :
    (Move.run kind p (c :: rest) next cause).Respects r (c :: rest) := by
  simp [Move.run, Move.Respects, List.takeWhile_append_dropWhile, hc]

/-- Splitting loses nothing. -/
theorem splitBefore_append (mark cs : List Char) :
    (splitBefore mark cs).1 ++ (splitBefore mark cs).2 = cs := by
  induction cs with
  | nil => rfl
  | cons c cs ih => unfold splitBefore; split <;> simp [ih]

/-- Without the mark at the front, something stands in front of it. -/
theorem splitBefore_ne_nil {mark : List Char} {c : Char} {rest : List Char}
    (h : mark.isPrefixOf (c :: rest) = false) : (splitBefore mark (c :: rest)).1 ≠ [] := by
  rw [splitBefore, if_neg (by simp [h])]
  exact List.cons_ne_nil _ _

/-- Taking what stands in front of a mark respects the text, unless the mark comes first. -/
theorem Move.upTo_respects {mark : List Char} {c : Char} {rest : List Char}
    (h : mark.isPrefixOf (c :: rest) = false) (r : Nat) (kind : TokenKind) (next : State)
    (cause : Cause) : (Move.upTo kind mark (c :: rest) next cause).Respects r (c :: rest) :=
  ⟨splitBefore_ne_nil h, splitBefore_append mark (c :: rest)⟩

/-- A quoted value respects the text. -/
theorem State.moveQuoted_respects (r : Nat) (quote : Char) (rest : List Char) :
    (moveQuoted quote rest).Respects r (quote :: rest) := by
  have happ := splitBefore_append [quote] rest
  unfold moveQuoted
  split <;> simp_all [Move.Respects]

/-- A value without quotes loses nothing of the text. -/
theorem splitBareValue_append (cs : List Char) :
    (splitBareValue cs).1 ++ (splitBareValue cs).2 = cs := by
  have happ := List.takeWhile_append_dropWhile (p := isBareValueChar) (l := cs)
  unfold splitBareValue
  simp only
  split
  next h =>
    simp only [Bool.and_eq_true, beq_iff_eq] at h
    obtain ⟨l, hl⟩ := List.getLast?_eq_some_iff.1 h.1.2
    simpa [hl] using happ
  next => exact happ

/-- A value without quotes that has a first character is not empty. -/
theorem splitBareValue_ne_nil {c : Char} (hc : isBareValueChar c = true) (rest : List Char) :
    (splitBareValue (c :: rest)).1 ≠ [] := by
  unfold splitBareValue
  simp only
  split
  next h =>
    simp only [Bool.and_eq_true, decide_eq_true_eq] at h
    exact fun hnil => by have := congrArg List.length hnil; simp at this; omega
  next => simp [hc]

/-- Every move respects a text that has not ended. -/
theorem State.move_respects (state : State) (c : Char) (rest : List Char) :
    (state.move (c :: rest)).Respects state.rank (c :: rest) := by
  cases state <;> simp only [move]
  -- Every branch takes a mark, takes a run that its first character is in, or turns.
  case content =>
    unfold moveContent
    split
    case h_5 => exact Move.run_respects (by simp_all) ..
    all_goals simp [Move.Respects]
  case tagOpened | endTagOpened =>
    unfold moveName
    split
    next hc => exact Move.run_respects (isTagNameChar_of_start hc) ..
    next =>
      split
      next hc => exact Move.run_respects hc ..
      next => simp [Move.Respects, rank]
  case inTag =>
    unfold moveTag
    split
    case h_4 =>
      split
      next hc => exact Move.run_respects hc ..
      next =>
        split
        next hc => exact Move.run_respects hc ..
        next => simp [Move.Respects]
    all_goals simp [Move.Respects, rank]
  case inEndTag =>
    unfold moveEndTag
    split
    case h_3 hgt hlt =>
      split
      next hc => exact Move.run_respects hc ..
      next => exact Move.run_respects (by simp_all) ..
    all_goals simp [Move.Respects, rank]
  case afterName =>
    unfold moveAssign
    split
    next => simp [Move.Respects]
    next =>
      split
      next hc => exact Move.run_respects hc ..
      next => simp [Move.Respects, rank]
  case beforeValue =>
    unfold moveValue
    split
    next hc => exact Move.run_respects hc ..
    next =>
      split
      next => exact moveQuoted_respects ..
      next =>
        split
        next hc => exact ⟨splitBareValue_ne_nil hc rest, splitBareValue_append _⟩
        next => simp [Move.Respects, rank]
  case inComment =>
    unfold moveComment
    split
    next => simp [Move.Respects]
    next h =>
      -- The text does not begin with the end mark, so the body is not empty.
      refine Move.upTo_respects (Bool.eq_false_iff.2 fun hp => ?_) ..
      obtain ⟨t, ht⟩ := List.isPrefixOf_iff_prefix.1 hp
      simp only [List.cons_append, List.nil_append, List.cons.injEq] at ht
      exact h t ht.1.symm ht.2.symm
  case inHeader =>
    unfold moveHeader
    split
    next => simp [Move.Respects]
    next h =>
      refine Move.upTo_respects (Bool.eq_false_iff.2 fun hp => ?_) ..
      obtain ⟨t, ht⟩ := List.isPrefixOf_iff_prefix.1 hp
      simp only [List.cons_append, List.nil_append, List.cons.injEq] at ht
      exact h t ht.1.symm ht.2.symm

/-- A turn leads to a state of lower rank. -/
theorem State.rank_lt_of_turn {state next : State} {cs : List Char} {cause : Option Cause}
    (h : state.move cs = .turn next cause) : next.rank < state.rank := by
  cases cs with
  | nil => simp [move] at h
  | cons c rest => simpa [h, Move.Respects] using state.move_respects c rest

/-- What is taken and what is left make up the text. -/
theorem State.append_of_take {state next : State} {cs lexeme rest : List Char} {kind : TokenKind}
    {cause : Option Cause} (h : state.move cs = .take kind lexeme rest next cause) :
    lexeme ++ rest = cs := by
  cases cs with
  | nil => simp_all [move]
  | cons c tail =>
    have := state.move_respects c tail
    rw [h] at this
    exact this.2

/-- Only the end of the text is taken as an empty token. -/
theorem State.lexeme_eq_nil_iff {state next : State} {cs lexeme rest : List Char}
    {kind : TokenKind} {cause : Option Cause}
    (h : state.move cs = .take kind lexeme rest next cause) : lexeme = [] ↔ cs = [] := by
  cases cs with
  | nil => simp_all [move]
  | cons c tail =>
    have := state.move_respects c tail
    rw [h] at this
    simp [this.1]

end Scanner

/-- A text that is being cut into tokens. -/
structure Scanner where
  /-- The characters that belong to no token yet. -/
  rest : List Char
  /-- Where they begin. -/
  offset : Nat := 0
  /-- What was read just before them. -/
  state : Scanner.State := .content
  deriving DecidableEq, Repr

/-- The outcome of one step of the scanner. -/
structure Scanned where
  /-- The token that was cut off. -/
  token : Token
  /-- The problem found on the way. -/
  diagnostic : Option Diagnostic
  /-- The scanner behind the token. -/
  after : Scanner
  deriving DecidableEq, Repr

namespace Scanner

/-- The scanner at the beginning of a text. -/
def ofText (text : String) : Scanner :=
  { rest := text.toList }

/-- Turns until a token is taken. A problem found when the token is taken is about the whole token,
one found at a turn is about the point before it. -/
def advance (offset : Nat) (cs : List Char) (state : State) (pending : Option Diagnostic) :
    Scanned :=
  match _h : state.move cs with
  | .take kind lexeme rest next cause =>
    let span : Span := ⟨offset, offset + Text.byteLength lexeme⟩
    { token := ⟨kind, span, String.ofList lexeme⟩
      diagnostic := (cause.map (·.on span)).or pending
      after := ⟨rest, span.stop, next⟩ }
  | .turn next cause => advance offset cs next ((cause.map (·.on (.point offset))).or pending)
termination_by state.rank
decreasing_by exact State.rank_lt_of_turn (by assumption)

/-- Cuts off the next token. At the end of the text this is the empty last token, again and
again. -/
def scan (s : Scanner) : Scanned :=
  advance s.offset s.rest s.state none

/-- Before the end of the text, a token leaves fewer characters than there were. -/
theorem length_advance_lt (offset : Nat) {cs : List Char} (state : State)
    (pending : Option Diagnostic) (h : cs ≠ []) :
    (advance offset cs state pending).after.rest.length < cs.length := by
  fun_induction advance offset cs state pending with
  | case1 state pending kind lexeme rest next cause hm span =>
    have happ := State.append_of_take hm
    have hne : lexeme ≠ [] := fun hl => h ((State.lexeme_eq_nil_iff hm).1 hl)
    have := List.length_pos_iff.2 hne
    simp only [← happ, List.length_append]
    omega
  | case2 state pending next cause hm ih => exact ih

/-- Before the end of the text, a step leaves fewer characters than there were. -/
theorem length_after_scan_lt {s : Scanner} (h : s.rest ≠ []) :
    s.scan.after.rest.length < s.rest.length :=
  length_advance_lt s.offset s.state none h

/-- All tokens up to the end of the text. -/
def run (s : Scanner) : List Scanned :=
  if _h : s.rest = [] then [s.scan]
  else s.scan :: s.scan.after.run
termination_by s.rest.length
decreasing_by exact length_after_scan_lt (by assumption)

end Scanner

/-- Cuts a text into tokens; the last of them is the end of the text. -/
def tokenize (text : String) : List Scanned :=
  (Scanner.ofText text).run

end LayoutMarkup
