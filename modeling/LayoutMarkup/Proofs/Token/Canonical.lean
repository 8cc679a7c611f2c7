import LayoutMarkup.Proofs.Document.Markup

/-!
# Scanning canonical markup

The moves of the scanner on the parts of canonical markup. Each part is taken as one token, without
a turn and without a report, since a part ends where its class of characters ends: names end at a
blank, `=`, `/` or `>`, a value at its quote, the body of a comment at its first `-->`, that of a
header at its first `?>`, a text at `<`.
-/

namespace LayoutMarkup

/-! ## Marks -/

/-- What stands in front of a mark is found if the mark does not begin in it. -/
theorem splitBefore_mark (mark : List Char) {body rest : List Char} (hmark : mark ≠ [])
    (hfree : ∀ front back, body = front ++ back → back ≠ [] →
      mark.isPrefixOf (back ++ (mark ++ rest)) = false) :
    splitBefore mark (body ++ (mark ++ rest)) = (body, mark ++ rest) := by
  induction body with
  | nil =>
    have hprefix : mark.isPrefixOf (mark ++ rest) = true :=
      List.isPrefixOf_iff_prefix.2 (List.prefix_append mark rest)
    rw [List.nil_append]
    cases hwhole : mark ++ rest with
    | nil => exact absurd (List.append_eq_nil_iff.1 hwhole).1 hmark
    | cons c cs =>
      rw [hwhole] at hprefix
      rw [splitBefore, if_pos hprefix]
  | cons c body ih =>
    have hfirst := hfree [] (c :: body) rfl (List.cons_ne_nil c body)
    have hrest := ih fun front back hbody => hfree (c :: front) back (by rw [hbody]; rfl)
    rw [List.cons_append] at hfirst ⊢
    rw [splitBefore, if_neg (by rw [hfirst]; exact Bool.false_ne_true), hrest]

/-- A value without quotes in it ends at the next quote. -/
theorem splitBefore_quote {value : List Char} (hvalue : '"' ∉ value) (rest : List Char) :
    splitBefore ['"'] (value ++ '"' :: rest) = (value, '"' :: rest) := by
  refine splitBefore_mark ['"'] (List.cons_ne_nil _ _) fun front back hbody hback => ?_
  obtain ⟨c, cs, rfl⟩ := List.exists_cons_of_ne_nil hback
  have hne : '"' ≠ c := by
    rintro rfl
    rw [hbody] at hvalue
    exact hvalue (List.mem_append_right front List.mem_cons_self)
  simp [List.isPrefixOf, hne]

/-- The body of a comment ends at the first `-->`: that mark cannot begin in the body and end behind
it, for its third character would be a dash. -/
theorem splitBefore_commentClose {body : List Char} (hbody : ¬ ['-', '-', '>'] <:+: body)
    (rest : List Char) : splitBefore ['-', '-', '>'] (body ++ '-' :: '-' :: '>' :: rest) =
      (body, '-' :: '-' :: '>' :: rest) := by
  refine splitBefore_mark ['-', '-', '>'] (List.cons_ne_nil _ _) fun front back hsplit hback => ?_
  rw [Bool.eq_false_iff]
  intro hprefix
  obtain ⟨tail, htail⟩ := List.isPrefixOf_iff_prefix.1 hprefix
  rcases back with _ | ⟨a, _ | ⟨b, _ | ⟨c, cs⟩⟩⟩
  · exact hback rfl
  · simp at htail
  · simp at htail
  · simp only [List.cons_append, List.nil_append, List.cons.injEq] at htail
    obtain ⟨rfl, rfl, rfl, -⟩ := htail
    exact hbody ⟨front, cs, by rw [hsplit]; simp⟩

/-- The body of a header ends at the first `?>`: that mark cannot begin in the body and end behind
it, for its second character would be a question mark. -/
theorem splitBefore_headerClose {body : List Char} (hbody : ¬ ['?', '>'] <:+: body)
    (rest : List Char) : splitBefore ['?', '>'] (body ++ '?' :: '>' :: rest) =
      (body, '?' :: '>' :: rest) := by
  refine splitBefore_mark ['?', '>'] (List.cons_ne_nil _ _) fun front back hsplit hback => ?_
  rw [Bool.eq_false_iff]
  intro hprefix
  obtain ⟨tail, htail⟩ := List.isPrefixOf_iff_prefix.1 hprefix
  rcases back with _ | ⟨a, _ | ⟨b, cs⟩⟩
  · exact hback rfl
  · simp at htail
  · simp only [List.cons_append, List.nil_append, List.cons.injEq] at htail
    obtain ⟨rfl, rfl, -⟩ := htail
    exact hbody ⟨front, cs, by rw [hsplit]; simp⟩

/-- Something stands in front of a mark only if the text does not begin with it. -/
theorem not_prefix_of_splitBefore {mark cs : List Char} (h : (splitBefore mark cs).1 ≠ []) :
    ¬ mark <+: cs := by
  intro hprefix
  cases cs with
  | nil => exact h rfl
  | cons c cs =>
    rw [splitBefore, if_pos (List.isPrefixOf_iff_prefix.2 hprefix)] at h
    exact h rfl

namespace Scanner

/-- What stands in front of a mark is taken without a report. -/
theorem Move.upTo_of_splitBefore {mark cs body rest : List Char}
    (h : splitBefore mark cs = (body, rest)) (hrest : rest ≠ []) (kind : TokenKind) (next : State)
    (cause : Cause) : Move.upTo kind mark cs next cause = .take kind body rest next none := by
  obtain ⟨c, rest, rfl⟩ := List.exists_cons_of_ne_nil hrest
  rw [Move.upTo, h]
  rfl

/-- A run ends at the first character that is not in it. -/
theorem Move.run_append {p : Char → Bool} {front : List Char} (hfront : ∀ c ∈ front, p c = true)
    {x : Char} (hx : p x = false) (rest : List Char) (kind : TokenKind) (next : State)
    (cause : Option Cause) :
    Move.run kind p (front ++ x :: rest) next cause = .take kind front (x :: rest) next cause := by
  rw [Move.run, List.takeWhile_append_of_pos hfront, List.dropWhile_append_of_pos hfront,
    List.takeWhile_cons_of_neg (by rw [hx]; exact Bool.false_ne_true),
    List.dropWhile_cons_of_neg (by rw [hx]; exact Bool.false_ne_true), List.append_nil]

namespace State

/-! ## Tags -/

/-- A tag has a first character, and all its characters may stand in a tag. -/
theorem exists_of_isTag {tag : String} (htag : Markup.isTag tag = true) :
    ∃ c cs, tag.toList = c :: cs ∧ isTagNameStart c = true ∧
      ∀ x ∈ c :: cs, isTagNameChar x = true := by
  unfold Markup.isTag at htag
  cases hchars : tag.toList with
  | nil => simp [hchars] at htag
  | cons c cs =>
    simp only [hchars, List.head?_cons, Option.any_some, List.tail_cons, Bool.and_eq_true,
      List.all_eq_true] at htag
    refine ⟨c, cs, rfl, htag.1, fun x hx => ?_⟩
    rcases List.mem_cons.1 hx with rfl | hx
    · exact isTagNameChar_of_start htag.1
    · exact htag.2 x hx

/-- A tag is taken where a name should stand. -/
theorem moveName_tag {tag : String} (htag : Markup.isTag tag = true) {x : Char}
    (hx : isTagNameChar x = false) (rest : List Char) {state next : State} {kind : TokenKind}
    {cause : Cause}
    (hstate : ∀ c cs, state.move (c :: cs) = moveName kind next cause c cs) :
    state.move (tag.toList ++ x :: rest) = .take kind tag.toList (x :: rest) next none := by
  obtain ⟨c, cs, hchars, hstart, hall⟩ := exists_of_isTag htag
  rw [hchars, List.cons_append, hstate, moveName, if_pos hstart]
  exact Move.run_append hall hx rest kind next none

/-- A `<` opens a tag, unless it is part of another mark. -/
theorem move_bracket {rest : List Char} (hcomment : ¬ ['!', '-', '-'] <+: rest)
    (hheader : ¬ ['?'] <+: rest) (hend : ¬ ['/'] <+: rest) :
    content.move ('<' :: rest) = .take .tagOpen ['<'] rest .tagOpened none := by
  show moveContent '<' rest = _
  unfold moveContent
  split
  next t _ => exact absurd ⟨t, rfl⟩ hcomment
  next t _ => exact absurd ⟨t, rfl⟩ hheader
  next t _ => exact absurd ⟨t, rfl⟩ hend
  next => rfl
  next hless _ _ _ => exact absurd rfl hless

/-- A `<` in front of a tag opens it. -/
theorem move_tagOpen {tag : String} (htag : Markup.isTag tag = true) (rest : List Char) :
    content.move ('<' :: (tag.toList ++ rest)) =
      .take .tagOpen ['<'] (tag.toList ++ rest) .tagOpened none := by
  obtain ⟨c, cs, hchars, hstart, -⟩ := exists_of_isTag htag
  -- The marks that begin with `<` and open something else do not go on like a tag.
  have hne : ∀ {x : Char} {mark : List Char}, isTagNameStart x = false →
      ¬ x :: mark <+: c :: (cs ++ rest) := by
    intro x mark hx hprefix
    rw [(List.cons_prefix_cons.1 hprefix).1, hstart] at hx
    cases hx
  rw [hchars, List.cons_append]
  exact move_bracket (hne (by decide)) (hne (by decide)) (hne (by decide))

/-! ## Attributes -/

/-- What a character of an attribute name is not. -/
theorem ne_of_isAttributeNameChar {c : Char} (hc : isAttributeNameChar c = true) :
    Text.isBlank c = false ∧ c ≠ '/' ∧ c ≠ '>' ∧ c ≠ '<' := by
  simp only [isAttributeNameChar, Bool.not_eq_true', Bool.or_eq_false_iff,
    beq_eq_false_iff_ne] at hc
  exact ⟨hc.1.1.1.1.1, hc.1.1.2, hc.1.1.1.2, hc.2⟩

/-- The name of an attribute has a first character, and all its characters may stand in one. -/
theorem exists_of_isAttributeName {name : String} (hname : Markup.isAttributeName name = true) :
    ∃ c cs, name.toList = c :: cs ∧ ∀ x ∈ c :: cs, isAttributeNameChar x = true := by
  unfold Markup.isAttributeName at hname
  cases hchars : name.toList with
  | nil => simp [hchars] at hname
  | cons c cs =>
    rw [hchars, Bool.and_eq_true, List.all_eq_true] at hname
    exact ⟨c, cs, rfl, hname.2⟩

/-- The blank in front of an attribute is taken. -/
theorem move_blank {name : String} (hname : Markup.isAttributeName name = true) (rest : List Char) :
    inTag.move (' ' :: (name.toList ++ rest)) =
      .take .blank [' '] (name.toList ++ rest) .inTag none := by
  obtain ⟨c, cs, hchars, hall⟩ := exists_of_isAttributeName hname
  have hblank := (ne_of_isAttributeNameChar (hall c List.mem_cons_self)).1
  rw [hchars, List.cons_append]
  show moveTag ' ' (c :: (cs ++ rest)) = _
  have hmove : moveTag ' ' (c :: (cs ++ rest)) =
      .run .blank Text.isBlank ([' '] ++ c :: (cs ++ rest)) .inTag none := rfl
  rw [hmove]
  refine Move.run_append (fun x hx => ?_) hblank _ _ _ _
  rw [List.mem_singleton.1 hx]
  decide

/-- The name of an attribute is taken. -/
theorem move_attributeName {name : String} (hname : Markup.isAttributeName name = true)
    (rest : List Char) : inTag.move (name.toList ++ '=' :: rest) =
      .take .attributeName name.toList ('=' :: rest) .afterName none := by
  obtain ⟨c, cs, hchars, hall⟩ := exists_of_isAttributeName hname
  have hc := hall c List.mem_cons_self
  obtain ⟨hblank, hslash, hgreater, hless⟩ := ne_of_isAttributeNameChar hc
  rw [hchars, List.cons_append]
  show moveTag c (cs ++ '=' :: rest) = _
  have hmove : moveTag c (cs ++ '=' :: rest) =
      .run .attributeName isAttributeNameChar (c :: cs ++ '=' :: rest) .afterName none := by
    unfold moveTag
    split
    next => exact absurd rfl hslash
    next => exact absurd rfl hgreater
    next => exact absurd rfl hless
    next =>
      rw [if_neg (by rw [hblank]; exact Bool.false_ne_true), if_pos hc]
      rfl
  rw [hmove]
  exact Move.run_append hall (by decide) rest _ _ _

/-- A value in double quotes is taken with its quotes. -/
theorem move_value {value : List Char} (hvalue : '"' ∉ value) (rest : List Char) :
    beforeValue.move ('"' :: (value ++ '"' :: rest)) =
      .take .attributeValue ('"' :: (value ++ ['"'])) rest .inTag none := by
  have hmove : beforeValue.move ('"' :: (value ++ '"' :: rest)) =
      moveQuoted '"' (value ++ '"' :: rest) := rfl
  rw [hmove, moveQuoted, splitBefore_quote hvalue]
  rfl

/-! ## Comments, headers and texts -/

variable {cs body : List Char}

/-- A comment goes on to its end mark. -/
theorem move_inComment (hne : cs ≠ []) (hmark : ¬ ['-', '-', '>'] <+: cs) :
    inComment.move cs = .upTo .comment ['-', '-', '>'] cs .inComment .openComment := by
  obtain ⟨c, rest, rfl⟩ := List.exists_cons_of_ne_nil hne
  show moveComment c rest = _
  unfold moveComment
  split
  next tail => exact absurd ⟨tail, rfl⟩ hmark
  next => rfl

/-- A header goes on to its end mark. -/
theorem move_inHeader (hne : cs ≠ []) (hmark : ¬ ['?', '>'] <+: cs) :
    inHeader.move cs = .upTo .header ['?', '>'] cs .inHeader .openHeader := by
  obtain ⟨c, rest, rfl⟩ := List.exists_cons_of_ne_nil hne
  show moveHeader c rest = _
  unfold moveHeader
  split
  next tail => exact absurd ⟨tail, rfl⟩ hmark
  next => rfl

/-- The body of a comment is taken. -/
theorem move_comment (hne : body ≠ []) (hbody : ¬ ['-', '-', '>'] <:+: body) (rest : List Char) :
    inComment.move (body ++ '-' :: '-' :: '>' :: rest) =
      .take .comment body ('-' :: '-' :: '>' :: rest) .inComment none := by
  have hsplit := splitBefore_commentClose hbody rest
  have hmark := not_prefix_of_splitBefore (by rw [hsplit]; exact hne)
  rw [move_inComment (List.append_ne_nil_of_left_ne_nil hne _) hmark,
    Move.upTo_of_splitBefore hsplit (List.cons_ne_nil _ _)]

/-- The body of a header is taken. -/
theorem move_header (hne : body ≠ []) (hbody : ¬ ['?', '>'] <:+: body) (rest : List Char) :
    inHeader.move (body ++ '?' :: '>' :: rest) =
      .take .header body ('?' :: '>' :: rest) .inHeader none := by
  have hsplit := splitBefore_headerClose hbody rest
  have hmark := not_prefix_of_splitBefore (by rw [hsplit]; exact hne)
  rw [move_inHeader (List.append_ne_nil_of_left_ne_nil hne _) hmark,
    Move.upTo_of_splitBefore hsplit (List.cons_ne_nil _ _)]

/-- Outside of tags everything is taken up to the next `<`. -/
theorem move_content {c : Char} (hc : c ≠ '<') (rest : List Char) :
    content.move (c :: rest) = .take .content ((c :: rest).takeWhile (· != '<'))
      ((c :: rest).dropWhile (· != '<')) .content none := by
  show moveContent c rest = _
  unfold moveContent
  split
  next => exact absurd rfl hc
  next => exact absurd rfl hc
  next => exact absurd rfl hc
  next => exact absurd rfl hc
  next => rfl

end State

end Scanner

end LayoutMarkup
