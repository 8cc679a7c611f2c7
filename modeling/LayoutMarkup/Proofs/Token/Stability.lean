import LayoutMarkup.Proofs.Token.Canonical
import LayoutMarkup.Proofs.Token.Tiling
import Mathlib.Data.List.Infix
import Mathlib.Data.List.TakeWhile

/-!
# Scanning a text that goes on

The scanner looks ahead, so what it does at the end of a text may be another thing when the text
goes on. `State.Outlook` lists how that can be. Most moves are settled: they are the same whatever
comes next. A move that is not settled takes the rest of the text and does not end outside of tags,
or takes text outside of tags, or takes the `<` of what may become the mark of a comment
(`State.outlook`). So a step with its turns is settled, or takes text outside of tags, or the text
as it is does not end outside of tags (`advance_outlook`).
-/

namespace LayoutMarkup

/-! ## Marks that are found -/

/-- Where a mark is found, the rest begins with it. -/
theorem prefix_of_splitBefore {mark cs : List Char} (h : (splitBefore mark cs).2 ≠ []) :
    mark <+: (splitBefore mark cs).2 := by
  induction cs with
  | nil => exact absurd rfl h
  | cons c cs ih =>
    unfold splitBefore at h ⊢
    split
    next hmark => exact List.isPrefixOf_iff_prefix.1 hmark
    next hmark =>
      rw [if_neg hmark] at h
      exact ih h

/-- A text in which a mark is found is not shorter than the mark. -/
theorem length_le_of_splitBefore {mark cs : List Char} (h : (splitBefore mark cs).2 ≠ []) :
    mark.length ≤ cs.length := by
  have hprefix := (prefix_of_splitBefore h).length_le
  have happ := congrArg List.length (Scanner.splitBefore_append mark cs)
  rw [List.length_append] at happ
  omega

/-- Without the mark, the whole text stands in front of it. -/
theorem splitBefore_eq_self {mark cs : List Char} (h : (splitBefore mark cs).2 = []) :
    splitBefore mark cs = (cs, []) := by
  have happ := Scanner.splitBefore_append mark cs
  rw [h, List.append_nil] at happ
  exact Prod.ext happ h

/-- A mark that does not open a text of its length does not open it when the text goes on. -/
theorem not_prefix_append {mark cs : List Char} (h : ¬ mark <+: cs) (hlen : mark.length ≤ cs.length)
    (x : List Char) : ¬ mark <+: cs ++ x := fun hprefix =>
  h (List.prefix_of_prefix_length_le hprefix (List.prefix_append cs x) hlen)

/-- Where the text behind a `<` is not the beginning of the mark of a comment, it does not become
one when the text goes on. -/
theorem not_commentMark_append {cs : List Char} (h : ¬ ['!', '-', '-'] <+: cs) (hne : cs ≠ [])
    (hbegin : ¬ (cs = ['!'] ∨ cs = ['!', '-'])) (x : List Char) :
    ¬ ['!', '-', '-'] <+: cs ++ x := by
  intro hprefix
  rcases List.prefix_or_prefix_of_prefix hprefix (List.prefix_append cs x) with hlong | hshort
  · exact h hlong
  · have hinits := (List.mem_inits _ _).2 hshort
    simp only [List.inits, List.map_cons, List.map_nil, List.mem_cons, List.not_mem_nil,
      or_false] at hinits
    rcases hinits with rfl | rfl | rfl | rfl
    · exact hne rfl
    · exact hbegin (.inl rfl)
    · exact hbegin (.inr rfl)
    · exact h List.prefix_rfl

/-- A mark that is found is found in the same place when the text goes on. -/
theorem splitBefore_append_of_ne_nil {mark cs : List Char} (h : (splitBefore mark cs).2 ≠ [])
    (x : List Char) :
    splitBefore mark (cs ++ x) = ((splitBefore mark cs).1, (splitBefore mark cs).2 ++ x) := by
  induction cs with
  | nil => exact absurd rfl h
  | cons c cs ih =>
    by_cases hmark : mark <+: c :: cs
    · have hmark' : mark <+: c :: (cs ++ x) := hmark.trans (List.prefix_append (c :: cs) x)
      rw [List.cons_append, splitBefore, if_pos (List.isPrefixOf_iff_prefix.2 hmark'), splitBefore,
        if_pos (List.isPrefixOf_iff_prefix.2 hmark)]
      rfl
    · have hskip : ¬ mark.isPrefixOf (c :: cs) = true := fun hp =>
        hmark (List.isPrefixOf_iff_prefix.1 hp)
      have hrest : (splitBefore mark cs).2 ≠ [] := by
        rw [splitBefore, if_neg hskip] at h
        exact h
      have hlen := length_le_of_splitBefore hrest
      have hskip' : ¬ mark.isPrefixOf (c :: (cs ++ x)) = true := fun hp =>
        not_prefix_append hmark (Nat.le_succ_of_le hlen) x (List.isPrefixOf_iff_prefix.1 hp)
      rw [List.cons_append, splitBefore, if_neg hskip', splitBefore, if_neg hskip, ih hrest]

/-! ## Runs that end -/

/-- A run that ends before the text does ends there when the text goes on. -/
theorem takeWhile_append_of_ne_nil {p : Char → Bool} {cs : List Char} (h : cs.dropWhile p ≠ [])
    (x : List Char) :
    (cs ++ x).takeWhile p = cs.takeWhile p ∧ (cs ++ x).dropWhile p = cs.dropWhile p ++ x := by
  have happ := congrArg List.length (List.takeWhile_append_dropWhile (p := p) (l := cs))
  rw [List.length_append] at happ
  have hpos := List.length_pos_iff.2 h
  have hshort : (cs.takeWhile p).length ≠ cs.length := by omega
  constructor
  · rw [List.takeWhile_append, if_neg hshort]
  · rw [List.dropWhile_append, if_neg (by simpa using h)]

/-- A run that does not end is the whole text. -/
theorem takeWhile_eq_self_of_dropWhile {p : Char → Bool} {cs : List Char}
    (h : cs.dropWhile p = []) : cs.takeWhile p = cs := by
  have happ := List.takeWhile_append_dropWhile (p := p) (l := cs)
  rw [h, List.append_nil] at happ
  exact happ

/-- A value without quotes that ends before the text does ends there when the text goes on. -/
theorem splitBareValue_append_of_ne_nil {cs : List Char}
    (h : cs.dropWhile isBareValueChar ≠ []) (x : List Char) :
    splitBareValue (cs ++ x) = ((splitBareValue cs).1, (splitBareValue cs).2 ++ x) := by
  obtain ⟨htake, hdrop⟩ := takeWhile_append_of_ne_nil h x
  obtain ⟨d, ds, hd⟩ := List.exists_cons_of_ne_nil h
  unfold splitBareValue
  simp only [hdrop, htake, hd, List.cons_append, List.head?_cons]
  split <;> rfl

/-- A value without quotes that does not end is the whole text. -/
theorem splitBareValue_eq_self {cs : List Char} (h : cs.dropWhile isBareValueChar = []) :
    splitBareValue cs = (cs, []) := by
  unfold splitBareValue
  simp [h, takeWhile_eq_self_of_dropWhile h]

/-- A step of the scanner with more text behind what it leaves. -/
def Scanned.extend (x : List Char) (s : Scanned) : Scanned :=
  { s with after := { s.after with rest := s.after.rest ++ x } }

namespace Scanner

/-! ## One move -/

/-- A move with more text behind what it leaves. -/
def Move.extend (x : List Char) : Move → Move
  | .take kind lexeme rest next cause => .take kind lexeme (rest ++ x) next cause
  | .turn next cause => .turn next cause

namespace State

/-- How the move of a state is when the text goes on. -/
inductive Outlook (state : State) (cs : List Char) : Prop where
  /-- It is the same. -/
  | settled (h : ∀ x, state.move (cs ++ x) = (state.move cs).extend x)
  /-- It takes the whole text, which may go on, and does not end outside of tags. -/
  | whole {kind : TokenKind} {next : State} {cause : Option Cause}
      (h : state.move cs = .take kind cs [] next cause) (hnext : next ≠ .content)
  /-- It takes text outside of tags. -/
  | text (hstate : state = .content) (htext : '<' ∉ cs)
  /-- It takes a `<` behind which the mark of a comment is not complete. -/
  | mark (hstate : state = .content) (hmark : cs = ['<', '!'] ∨ cs = ['<', '!', '-'])

variable {state next : State} {cs : List Char} {kind : TokenKind} {cause : Option Cause}

/-- A run is settled, or it is the whole text. -/
theorem outlook_run {p : Char → Bool} (hnext : next ≠ .content)
    (h : ∀ x, state.move (cs ++ x) = .run kind p (cs ++ x) next cause) : state.Outlook cs := by
  have hmove : state.move cs = .run kind p cs next cause := by
    have hnil := h []
    rwa [List.append_nil] at hnil
  by_cases hrest : cs.dropWhile p = []
  · have hwhole : state.move cs = .take kind cs [] next cause := by
      rw [hmove, Move.run, hrest, takeWhile_eq_self_of_dropWhile hrest]
    exact .whole hwhole hnext
  · refine .settled fun x => ?_
    obtain ⟨htake, hdrop⟩ := takeWhile_append_of_ne_nil hrest x
    rw [h x, hmove, Move.run, htake, hdrop]
    rfl

/-- What goes on to a mark is settled if the mark is found, and the whole text if not. -/
theorem outlook_upTo (mark : List Char) (close body : TokenKind) (cause : Cause)
    (hstate : state ≠ .content)
    (hmark : ∀ t, state.move (mark ++ t) = .take close mark t .content none)
    (hbody : ∀ cs, cs ≠ [] → ¬ mark <+: cs → state.move cs = .upTo body mark cs state cause)
    (hne : cs ≠ []) : state.Outlook cs := by
  by_cases hprefix : mark <+: cs
  · obtain ⟨t, rfl⟩ := hprefix
    refine .settled fun x => ?_
    rw [List.append_assoc, hmark, hmark]
    rfl
  · have hmove := hbody cs hne hprefix
    -- Without a mark everything is taken. If something is left, it begins with the mark, which more
    -- text behind does not move.
    by_cases hrest : (splitBefore mark cs).2 = []
    · have hwhole : state.move cs = .take body cs [] state (some cause) := by
        rw [hmove, Move.upTo, splitBefore_eq_self hrest]
        rfl
      exact .whole hwhole hstate
    · refine .settled fun x => ?_
      have hlen := length_le_of_splitBefore hrest
      have hne' : cs ++ x ≠ [] := List.append_ne_nil_of_left_ne_nil hne x
      rw [hbody _ hne' (not_prefix_append hprefix hlen x), hmove, Move.upTo, Move.upTo,
        splitBefore_append_of_ne_nil hrest x]
      obtain ⟨d, ds, hd⟩ := List.exists_cons_of_ne_nil hrest
      simp only [hd]
      rfl

/-- A comment is settled when its end mark is found. -/
theorem outlook_comment (hne : cs ≠ []) : inComment.Outlook cs :=
  outlook_upTo ['-', '-', '>'] .commentClose .comment .openComment (by decide) (fun _ => rfl)
    (fun _ => move_inComment) hne

/-- A header is settled when its end mark is found. -/
theorem outlook_header (hne : cs ≠ []) : inHeader.Outlook cs :=
  outlook_upTo ['?', '>'] .headerClose .header .openHeader (by decide) (fun _ => rfl)
    (fun _ => move_inHeader) hne

/-- Outside of tags a mark is settled as soon as it is complete. -/
theorem outlook_content (hne : cs ≠ []) : content.Outlook cs := by
  obtain ⟨c, rest, rfl⟩ := List.exists_cons_of_ne_nil hne
  by_cases hc : c = '<'
  · subst hc
    -- The longer marks come first, as they begin with the shorter one.
    by_cases hcomment : ['!', '-', '-'] <+: rest
    · obtain ⟨t, rfl⟩ := hcomment
      exact .settled fun x => rfl
    by_cases hheader : ['?'] <+: rest
    · obtain ⟨t, rfl⟩ := hheader
      exact .settled fun x => rfl
    by_cases hend : ['/'] <+: rest
    · obtain ⟨t, rfl⟩ := hend
      exact .settled fun x => rfl
    have hmove := move_bracket hcomment hheader hend
    by_cases hnil : rest = []
    · subst hnil
      exact .whole hmove (by decide)
    by_cases hmark : rest = ['!'] ∨ rest = ['!', '-']
    · exact .mark rfl (by simpa using hmark)
    -- The characters behind `<` tell that it opens a tag.
    have hpos : 1 ≤ rest.length := List.length_pos_iff.2 hnil
    refine .settled fun x => ?_
    have hcomment' := not_commentMark_append hcomment hnil hmark x
    have hmove' := move_bracket hcomment' (not_prefix_append hheader hpos x)
      (not_prefix_append hend hpos x)
    rw [hmove, List.cons_append, hmove']
    rfl
  · -- Text goes on up to the next `<`, if there is one.
    by_cases htext : '<' ∈ c :: rest
    · refine .settled fun x => ?_
      have hrest : (c :: rest).dropWhile (· != '<') ≠ [] := fun hnil => by
        have hall := List.dropWhile_eq_nil_iff.1 hnil '<' htext
        simp at hall
      obtain ⟨htake, hdrop⟩ := takeWhile_append_of_ne_nil hrest x
      rw [List.cons_append, move_content hc, ← List.cons_append, htake, hdrop, move_content hc]
      rfl
    · exact .text rfl htext

/-- Inside a start tag, what is no mark is a blank, belongs to an attribute name, or is stray. -/
theorem move_inTag {c : Char} {rest : List Char} (hgreater : c ≠ '>') (hless : c ≠ '<')
    (hclose : ¬ ['/', '>'] <+: c :: rest) : inTag.move (c :: rest) =
      if Text.isBlank c then .run .blank Text.isBlank (c :: rest) .inTag none
      else if isAttributeNameChar c then
        .run .attributeName isAttributeNameChar (c :: rest) .afterName none
      else .take .unknown [c] rest .inTag (some .strayCharacter) := by
  show moveTag c rest = _
  unfold moveTag
  split
  next t => exact absurd ⟨t, rfl⟩ hclose
  next => exact absurd rfl hgreater
  next => exact absurd rfl hless
  next => rfl

/-- Inside a start tag only a slash needs the character behind it. -/
theorem outlook_tag (hne : cs ≠ []) : inTag.Outlook cs := by
  obtain ⟨c, rest, rfl⟩ := List.exists_cons_of_ne_nil hne
  by_cases hgreater : c = '>'
  · subst hgreater
    exact .settled fun x => rfl
  by_cases hless : c = '<'
  · subst hless
    exact .settled fun x => rfl
  by_cases hclose : ['/', '>'] <+: c :: rest
  · obtain ⟨t, ht⟩ := hclose
    rw [← ht]
    exact .settled fun x => rfl
  by_cases hslash : c = '/' ∧ rest = []
  · obtain ⟨rfl, rfl⟩ := hslash
    exact .whole (by rfl) (by decide)
  -- A slash that is not the last character does not become `/>`.
  have hclose' : ∀ x, ¬ ['/', '>'] <+: c :: (rest ++ x) := by
    intro x hprefix
    by_cases hnil : rest = []
    · exact hslash ⟨(List.cons_prefix_cons.1 hprefix).1.symm, hnil⟩
    · have hlen : 2 ≤ (c :: rest).length := Nat.succ_le_succ (List.length_pos_iff.2 hnil)
      exact not_prefix_append hclose hlen x hprefix
  have hmove : ∀ x, inTag.move (c :: rest ++ x) = _ := fun x =>
    move_inTag hgreater hless (hclose' x)
  -- Blanks and names go on as long as their characters do; anything else is a lone unknown
  -- character.
  by_cases hblank : Text.isBlank c = true
  · have hrun : ∀ x, inTag.move (c :: rest ++ x) =
        .run .blank Text.isBlank (c :: rest ++ x) .inTag none := fun x => by
      rw [hmove, if_pos hblank]
      rfl
    exact outlook_run (by decide) hrun
  by_cases hname : isAttributeNameChar c = true
  · have hrun : ∀ x, inTag.move (c :: rest ++ x) =
        .run .attributeName isAttributeNameChar (c :: rest ++ x) .afterName none := fun x => by
      rw [hmove, if_neg hblank, if_pos hname]
      rfl
    exact outlook_run (by decide) hrun
  · refine .settled fun x => ?_
    rw [hmove, move_inTag hgreater hless hclose, if_neg hblank, if_neg hname, if_neg hblank,
      if_neg hname]
    rfl

/-- Inside an end tag nothing needs the character behind it. -/
theorem outlook_endTag (hne : cs ≠ []) : inEndTag.Outlook cs := by
  obtain ⟨c, rest, rfl⟩ := List.exists_cons_of_ne_nil hne
  by_cases hgreater : c = '>'
  · subst hgreater
    exact .settled fun x => rfl
  by_cases hless : c = '<'
  · subst hless
    exact .settled fun x => rfl
  -- All but the two brackets go on by a run, whose kind is decided by the first character.
  have hmove : ∀ rest, moveEndTag c rest =
      if Text.isBlank c then .run .blank Text.isBlank (c :: rest) .inEndTag none
      else .run .unknown (fun c => c != '>' && c != '<') (c :: rest) .inEndTag
        (some .strayEndTagContent) := by
    intro rest
    unfold moveEndTag
    split
    next => exact absurd rfl hgreater
    next => exact absurd rfl hless
    next => rfl
  by_cases hblank : Text.isBlank c = true
  · have hrun : ∀ x, inEndTag.move (c :: rest ++ x) =
        .run .blank Text.isBlank (c :: rest ++ x) .inEndTag none := fun x =>
      (hmove (rest ++ x)).trans (if_pos hblank)
    exact outlook_run (by decide) hrun
  · have hrun : ∀ x, inEndTag.move (c :: rest ++ x) =
        .run .unknown (fun c => c != '>' && c != '<') (c :: rest ++ x) .inEndTag
          (some .strayEndTagContent) := fun x =>
      (hmove (rest ++ x)).trans (if_neg hblank)
    exact outlook_run (by decide) hrun

/-- A name goes on as long as its characters come. -/
theorem outlook_name {cause : Cause} (hstate : ∀ c rest, state.move (c :: rest) =
    moveName kind next cause c rest) (hnext : next ≠ .content) (hne : cs ≠ []) :
    state.Outlook cs := by
  obtain ⟨c, rest, rfl⟩ := List.exists_cons_of_ne_nil hne
  by_cases hstart : isTagNameStart c = true
  · have hrun : ∀ x, state.move (c :: rest ++ x) =
        .run kind isTagNameChar (c :: rest ++ x) next none := fun x =>
      (hstate c (rest ++ x)).trans (if_pos hstart)
    exact outlook_run hnext hrun
  by_cases hblank : Text.isBlank c = true
  · have hrun : ∀ x, state.move (c :: rest ++ x) =
        .run .blank Text.isBlank (c :: rest ++ x) next (some cause) := fun x =>
      (hstate c (rest ++ x)).trans ((if_neg hstart).trans (if_pos hblank))
    exact outlook_run hnext hrun
  · refine .settled fun x => ?_
    rw [List.cons_append, hstate, hstate, moveName, moveName, if_neg hstart, if_neg hblank,
      if_neg hstart, if_neg hblank]
    rfl

/-- Behind the name of an attribute nothing needs the character behind it. -/
theorem outlook_assign (hne : cs ≠ []) : afterName.Outlook cs := by
  obtain ⟨c, rest, rfl⟩ := List.exists_cons_of_ne_nil hne
  by_cases hassign : c = '='
  · subst hassign
    exact .settled fun x => rfl
  -- All but `=` are blanks, or not for this state.
  have hmove : ∀ rest, moveAssign c rest =
      if Text.isBlank c then .run .blank Text.isBlank (c :: rest) .afterName none
      else .turn .inTag none := by
    intro rest
    unfold moveAssign
    split
    next => exact absurd rfl hassign
    next => rfl
  by_cases hblank : Text.isBlank c = true
  · have hrun : ∀ x, afterName.move (c :: rest ++ x) =
        .run .blank Text.isBlank (c :: rest ++ x) .afterName none := fun x =>
      (hmove (rest ++ x)).trans (if_pos hblank)
    exact outlook_run (by decide) hrun
  · refine .settled fun x => ?_
    show moveAssign c (rest ++ x) = (moveAssign c rest).extend x
    rw [hmove, hmove, if_neg hblank, if_neg hblank]
    rfl

/-- A quoted value goes on to its quote. -/
theorem outlook_quoted {c : Char} {rest : List Char} (hstate : ∀ rest,
    state.move (c :: rest) = moveQuoted c rest) : state.Outlook (c :: rest) := by
  by_cases hrest : (splitBefore [c] rest).2 = []
  · have hsplit := splitBefore_eq_self hrest
    have hwhole : state.move (c :: rest) =
        .take .attributeValue (c :: rest) [] .inTag (some (.openValue c)) := by
      rw [hstate, moveQuoted, hsplit]
    exact .whole hwhole (by decide)
  · refine .settled fun x => ?_
    have happ := splitBefore_append_of_ne_nil hrest x
    rcases hsplit : splitBefore [c] rest with ⟨body, _ | ⟨d, ds⟩⟩
    · exact absurd (congrArg Prod.snd hsplit) hrest
    · rw [hsplit] at happ
      rw [List.cons_append, hstate, hstate, moveQuoted, moveQuoted, happ, hsplit]
      rfl

/-- Behind `=` a value goes on to its end. -/
theorem outlook_value (hne : cs ≠ []) : beforeValue.Outlook cs := by
  obtain ⟨c, rest, rfl⟩ := List.exists_cons_of_ne_nil hne
  by_cases hblank : Text.isBlank c = true
  · have hrun : ∀ x, beforeValue.move (c :: rest ++ x) =
        .run .blank Text.isBlank (c :: rest ++ x) .beforeValue none := fun x => if_pos hblank
    exact outlook_run (by decide) hrun
  by_cases hquote : isQuote c = true
  · exact outlook_quoted fun rest => (if_neg hblank).trans (if_pos hquote)
  by_cases hbare : isBareValueChar c = true
  · have hmove : ∀ rest, beforeValue.move (c :: rest) = .take .attributeValue
        (splitBareValue (c :: rest)).1 (splitBareValue (c :: rest)).2 .inTag none := fun rest =>
      (if_neg hblank).trans ((if_neg hquote).trans (if_pos hbare))
    -- A value in the open ends in front of a character that it does not take, or with the text.
    by_cases hrest : (c :: rest).dropWhile isBareValueChar = []
    · have hwhole := hmove rest
      rw [splitBareValue_eq_self hrest] at hwhole
      exact .whole hwhole (by decide)
    · refine .settled fun x => ?_
      rw [List.cons_append, hmove, ← List.cons_append, splitBareValue_append_of_ne_nil hrest x,
        hmove]
      rfl
  · have hturn : ∀ rest, beforeValue.move (c :: rest) = .turn .inTag none := fun rest =>
      (if_neg hblank).trans ((if_neg hquote).trans (if_neg hbare))
    refine .settled fun x => ?_
    rw [List.cons_append, hturn, hturn]
    rfl

/-- Every move is settled, or takes the rest of the text without coming to stand outside of tags, or
stands outside of tags at text or at the beginning of a mark. -/
theorem outlook (state : State) (hne : cs ≠ []) : state.Outlook cs := by
  cases state with
  | content => exact outlook_content hne
  | tagOpened => exact outlook_name (fun _ _ => rfl) (by decide) hne
  | inTag => exact outlook_tag hne
  | afterName => exact outlook_assign hne
  | beforeValue => exact outlook_value hne
  | endTagOpened => exact outlook_name (fun _ _ => rfl) (by decide) hne
  | inEndTag => exact outlook_endTag hne
  | inComment => exact outlook_comment hne
  | inHeader => exact outlook_header hne

end State

/-! ## One step -/

variable {state next : State} {cs lexeme rest : List Char} {kind : TokenKind} {cause : Option Cause}

/-- A state that takes characters makes no turn. -/
theorem advance_of_take (h : state.move cs = .take kind lexeme rest next cause) (offset : Nat)
    (pending : Option Diagnostic) :
    advance offset cs state pending =
      { token := ⟨kind, ⟨offset, offset + Text.byteLength lexeme⟩, String.ofList lexeme⟩
        diagnostic := (cause.map (·.on ⟨offset, offset + Text.byteLength lexeme⟩)).or pending
        after := ⟨rest, offset + Text.byteLength lexeme, next⟩ } := by
  unfold advance
  split
  next h' =>
    rw [h] at h'
    cases h'
    rfl
  next h' =>
    rw [h] at h'
    cases h'

/-- After a turn the next state takes the token. -/
theorem advance_of_turn (h : state.move cs = .turn next cause) (offset : Nat)
    (pending : Option Diagnostic) :
    advance offset cs state pending =
      advance offset cs next ((cause.map (·.on (.point offset))).or pending) := by
  rw [advance]
  split
  next h' =>
    rw [h] at h'
    cases h'
  next h' =>
    rw [h] at h'
    cases h'
    rfl

/-- The state at the end of the text. -/
def endState? (s : Scanner) : Option State :=
  s.run.getLast?.map (·.after.state)

/-- At the end of the text the state stays. -/
theorem endState?_nil (offset : Nat) (state : State) :
    endState? ⟨[], offset, state⟩ = some state := by
  rw [endState?, run, dif_pos rfl, scan, advance_of_take rfl]
  rfl

/-- A step leads on to the same end. -/
theorem endState?_scan {s : Scanner} (h : s.rest ≠ []) : s.endState? = s.scan.after.endState? := by
  have hrun : s.scan.after.run ≠ [] := by
    rw [run]
    split <;> exact List.cons_ne_nil _ _
  rw [endState?, run, dif_neg h, List.getLast?_cons_of_ne_nil hrun]
  rfl

/-- A `!` behind `<` is taken for the name of an attribute. -/
theorem endState?_bang (hrest : rest = ['!'] ∨ rest = ['!', '-']) (offset : Nat) :
    endState? ⟨rest, offset, .tagOpened⟩ = some .afterName := by
  rcases hrest with rfl | rfl
  all_goals
    rw [endState?_scan (List.cons_ne_nil _ _), scan, advance_of_turn (by rfl),
      advance_of_take (by rfl)]
    exact endState?_nil _ _

/-- A step is the same when the text goes on, or it does not lead to an end outside of tags, or it
takes text outside of tags. -/
theorem advance_outlook (offset : Nat) (hne : cs ≠ []) (state : State)
    (pending : Option Diagnostic) :
    (∀ x, advance offset (cs ++ x) state pending =
        (advance offset cs state pending).extend x) ∨
      (advance offset cs state pending).after.endState? ≠ some .content ∨
      (state = .content ∧ '<' ∉ cs) := by
  fun_induction advance offset cs state pending with
  | case1 state pending kind lexeme rest next cause hmove span =>
    rcases state.outlook hne with hsettled | ⟨hwhole, hnext⟩ | ⟨hstate, htext⟩ | ⟨hstate, hmark⟩
    · -- A settled move takes the same token.
      refine .inl fun x => ?_
      have hmove' := hsettled x
      rw [hmove] at hmove'
      exact advance_of_take hmove' offset pending
    · cases hmove.symm.trans hwhole
      refine .inr (.inl ?_)
      rw [endState?_nil]
      exact fun h => hnext (Option.some.inj h)
    · exact .inr (.inr ⟨hstate, htext⟩)
    · subst hstate
      -- The `<` of what may become a comment opens a tag for the time being.
      have hopen : ∃ rest, (rest = ['!'] ∨ rest = ['!', '-']) ∧
          State.content.move cs = .take .tagOpen ['<'] rest .tagOpened none := by
        rcases hmark with rfl | rfl
        · exact ⟨_, .inl rfl, rfl⟩
        · exact ⟨_, .inr rfl, rfl⟩
      obtain ⟨rest, hrest, hopen⟩ := hopen
      cases hmove.symm.trans hopen
      refine .inr (.inl ?_)
      rw [endState?_bang hrest]
      decide
  | case2 state pending next cause hmove ih =>
    rcases ih with h | h | ⟨hcontent, htext⟩
    · refine .inl fun x => ?_
      have hrank := State.rank_lt_of_turn hmove
      have hmove' : state.move (cs ++ x) = .turn next cause := by
        rcases state.outlook hne with hsettled | ⟨hwhole, -⟩ | ⟨hstate, -⟩ | ⟨hstate, -⟩
        · rw [hsettled x, hmove]
          rfl
        · cases hmove.symm.trans hwhole
        -- Outside of tags there are no turns.
        all_goals
          rw [hstate] at hrank
          exact absurd hrank (Nat.not_lt_zero _)
      rw [advance_of_turn hmove', h x]
    · exact .inr (.inl h)
    · -- Nothing turns to text without a `<`.
      obtain ⟨c, rest, rfl⟩ := List.exists_cons_of_ne_nil hne
      subst hcontent
      have hc : c ≠ '<' := fun hc => htext (hc ▸ List.mem_cons_self)
      exact absurd hmove (State.ne_turn_content hc state rest cause)

end Scanner

end LayoutMarkup
