import LayoutMarkup.Proofs.Selector.Reading
import LayoutMarkup.Proofs.Selector.Rendering
import LayoutMarkup.Proofs.Token.Tiling

/-!
# Refused selectors

A selector is refused at the first piece that is no fragment. The fragments in front of that piece
are accepted, and with them its front if a fragment can be read from it (`Refuses`). The error
begins where the accepted part ends, and goes on to the end of the text (`exists_refuses_of_parse`).

So the error tells what would have been accepted (`pinpoints_parse`). That the accepted part is a
selector takes two facts: a fragment is read all the same without what is left behind it
(`exists_front_of_readFragment?`), and no blank is at either end of a fragment, so that nothing is
trimmed from fragments with slashes between them (`Writes.firm`).
-/

namespace LayoutMarkup.Selector

/-! ## Pieces with slashes between them -/

/-- The length of pieces with slashes between them. -/
def extent (pieces : List (List Char)) : Nat :=
  Text.byteLength (['/'].intercalate pieces)

theorem extent_cons (piece : List Char) {pieces : List (List Char)} (h : pieces ≠ []) :
    extent (piece :: pieces) = Text.byteLength piece + 1 + extent pieces := by
  have hslash : Text.byteLength ['/'] = 1 := rfl
  rw [extent, List.intercalate_cons_of_ne_nil h, Text.byteLength_append, Text.byteLength_append,
    hslash]
  rfl

/-- Pieces in front come first when pieces are put together with slashes, also when the last of them
goes on. -/
theorem intercalate_concat_prefix (good : List (List Char)) (front left : List Char)
    (more : List (List Char)) :
    ['/'].intercalate (good ++ [front]) <+:
      ['/'].intercalate (good ++ (front ++ left) :: more) := by
  induction good with
  | nil =>
    rw [List.nil_append, List.nil_append, List.intercalate_singleton]
    cases more with
    | nil =>
      rw [List.intercalate_singleton]
      exact List.prefix_append front left
    | cons next more =>
      rw [List.intercalate_cons_cons, List.append_assoc, List.append_assoc]
      exact List.prefix_append front _
  | cons piece good ih =>
    rw [List.cons_append, List.cons_append,
      List.intercalate_cons_of_ne_nil (List.concat_ne_nil _ _),
      List.intercalate_cons_of_ne_nil (List.append_ne_nil_of_right_ne_nil _ (List.cons_ne_nil _ _))]
    exact (List.prefix_append_right_inj _).2 ih

/-- Pieces in front come first when pieces are put together with slashes. -/
theorem intercalate_mono {pieces more : List (List Char)} (h : pieces <+: more) :
    ['/'].intercalate pieces <+: ['/'].intercalate more := by
  obtain ⟨rest, rfl⟩ := h
  cases rest with
  | nil => rw [List.append_nil]
  | cons next rest =>
    rcases List.eq_nil_or_concat pieces with rfl | ⟨pieces, last, rfl⟩
    · exact List.nil_prefix
    · rw [List.concat_eq_append]
      simpa using intercalate_concat_prefix pieces last [] (next :: rest)

/-- Pieces in front are no longer than all pieces. -/
theorem extent_mono {pieces more : List (List Char)} (h : pieces <+: more) :
    extent pieces ≤ extent more := by
  exact Text.byteLength_le_of_prefix (intercalate_mono h)

/-! ## Refused pieces -/

/-- Pieces that are refused: some fragments, and then a piece that is none. A front of it may be
accepted with the fragments. -/
structure Refuses (pieces good : List (List Char)) (bad : List Char)
    (accepted : List (List Char)) : Prop where
  /-- They begin with the fragments and the piece that is none. -/
  begins : good ++ [bad] <+: pieces
  /-- The fragments. -/
  whole : ∀ piece ∈ good, ∃ f, readFragment? piece = some (f, [])
  /-- The piece that is none. -/
  broken : ∀ f, readFragment? bad ≠ some (f, [])
  /-- What is accepted. -/
  accepts : accepted = good ∨ ∃ front, front <+: bad ∧
    (∃ f, readFragment? front = some (f, [])) ∧ accepted = good ++ [front]

/-- One more fragment in front changes nothing. -/
theorem Refuses.cons {pieces good accepted : List (List Char)} {bad piece : List Char}
    {f : Fragment} (h : Refuses pieces good bad accepted)
    (hread : readFragment? piece = some (f, [])) :
    Refuses (piece :: pieces) (piece :: good) bad (piece :: accepted) where
  begins := (List.prefix_cons_inj piece).2 h.begins
  whole := List.forall_mem_cons.2 ⟨⟨f, hread⟩, h.whole⟩
  broken := h.broken
  accepts := by
    rcases h.accepts with rfl | ⟨front, hfront, hwhole, rfl⟩
    · exact Or.inl rfl
    · exact Or.inr ⟨front, hfront, hwhole, rfl⟩

/-- The reading of pieces fails behind what is accepted. -/
theorem exists_refuses_of_readPieces {pieces : List (List Char)} {stop start k : Nat}
    (h : readPieces stop start pieces = .error k) : ∃ good bad accepted,
      Refuses pieces good bad accepted ∧
      k = if accepted = [] then stop else start + extent accepted := by
  induction pieces generalizing stop start with
  | nil => cases h
  | cons piece pieces ih =>
    dsimp only [readPieces] at h
    split at h
    next hnone =>
      cases h
      -- Nothing can be read from the first piece.
      exact ⟨[], piece, [], ⟨⟨pieces, rfl⟩, by simp, by simp [hnone], Or.inl rfl⟩, rfl⟩
    next f hread =>
      cases hrest : readPieces (start + Text.byteLength piece)
          (start + Text.byteLength piece + 1) pieces with
      | ok fragments => rw [hrest] at h; cases h
      | error k' =>
        rw [hrest] at h
        cases h
        obtain ⟨good, bad, accepted, hrefuses, hk⟩ := ih hrest
        refine ⟨piece :: good, bad, piece :: accepted, hrefuses.cons hread, ?_⟩
        rw [if_neg (List.cons_ne_nil _ _), hk]
        split
        next hnil => rw [hnil, extent, List.intercalate_singleton]
        next hne => rw [extent_cons piece hne, ← Nat.add_assoc, ← Nat.add_assoc]
    next f left hleft hread =>
      cases h
      -- Only the front of the piece is a fragment, and that is accepted.
      obtain ⟨front, rfl, hfront⟩ := exists_front_of_readFragment? hread
      refine ⟨[], front ++ left, [front], ⟨⟨pieces, rfl⟩, by simp, fun g hg => ?_,
        Or.inr ⟨front, List.prefix_append _ _, ⟨f, hfront⟩, rfl⟩⟩, ?_⟩
      · rw [hread] at hg
        exact hleft (Prod.mk.inj (Option.some.inj hg)).2
      · rw [if_neg (List.cons_ne_nil _ _), extent, List.intercalate_singleton,
          Text.byteLength_append, ← Nat.add_assoc, Nat.add_sub_cancel]

/-- What is accepted ends in the piece that is no fragment, or in front of it. -/
theorem Refuses.accepted_prefix {pieces good accepted : List (List Char)} {bad : List Char}
    (h : Refuses pieces good bad accepted) :
    ['/'].intercalate accepted <+: ['/'].intercalate (good ++ [bad]) := by
  rcases h.accepts with rfl | ⟨front, ⟨left, rfl⟩, -, rfl⟩
  · exact intercalate_mono (List.prefix_append _ _)
  · exact intercalate_concat_prefix good front left []

/-- The pieces that are accepted are fragments. -/
theorem Refuses.writes {pieces good accepted : List (List Char)} {bad : List Char}
    (h : Refuses pieces good bad accepted) (hslash : ∀ piece ∈ pieces, '/' ∉ piece) :
    ∀ piece ∈ accepted, '/' ∉ piece ∧ ∃ f, Writes piece f := by
  have hbegins : ∀ piece ∈ good ++ [bad], '/' ∉ piece := fun piece hpiece =>
    hslash piece (h.begins.subset hpiece)
  have hwrites : ∀ {piece}, '/' ∉ piece → (∃ f, readFragment? piece = some (f, [])) →
      '/' ∉ piece ∧ ∃ f, Writes piece f := by
    rintro piece hfree ⟨f, hread⟩
    exact ⟨hfree, f, (readFragment?_eq_some_iff hfree).1 hread⟩
  have hgood : ∀ piece ∈ good, '/' ∉ piece ∧ ∃ f, Writes piece f := fun piece hpiece =>
    hwrites (hbegins piece (List.mem_append_left _ hpiece)) (h.whole piece hpiece)
  rcases h.accepts with rfl | ⟨front, hfront, hwhole, rfl⟩
  · exact hgood
  · refine List.forall_mem_append.2 ⟨hgood, List.forall_mem_singleton.2 (hwrites ?_ hwhole)⟩
    exact fun hmem => hbegins bad (by simp) (hfront.subset hmem)

/-! ## Refused selectors -/

/-- Fragments with slashes between them are a selector. -/
theorem exists_parse_intercalate {pieces : List (List Char)} (hne : pieces ≠ [])
    (h : ∀ piece ∈ pieces, '/' ∉ piece ∧ ∃ f, Writes piece f) :
    ∃ fragments, parse (String.ofList (['/'].intercalate pieces)) = .ok fragments := by
  have hfirm : ∀ piece ∈ pieces, Firm piece := fun piece hpiece => by
    obtain ⟨hslash, f, hwrites⟩ := h piece hpiece
    exact hwrites.firm hslash
  have hpieces : Name.pieces (['/'].intercalate pieces) = pieces :=
    List.splitOn_intercalate '/' (fun piece hpiece => (h piece hpiece).1) hne
  obtain ⟨fragments, hall⟩ := exists_forall₂_iff.2 fun piece hpiece => (h piece hpiece).2
  refine ⟨fragments, parse_eq_ok_iff.2 ?_⟩
  rwa [String.toList_ofList, trim_intercalate hfirm, hpieces]

/-- The length of the blanks in front of a text. -/
def leading (text : String) : Nat :=
  Text.byteLength (text.toList.takeWhile Text.isBlank)

/-- The pieces of a text, the blanks around it left out. -/
def piecesOf (text : String) : List (List Char) :=
  Name.pieces (Text.trim text.toList)

/-- Where the first pieces of a text end. -/
def stopOf (text : String) (count : Nat) : Nat :=
  leading text + extent ((piecesOf text).take count)

/-- The span of an error tells how much of a text was accepted as a selector. -/
structure Pinpoints (text : String) (span : Span) : Prop where
  /-- It goes on to the end of the text. -/
  stop : span.stop = Text.byteLength text.toList
  /-- It begins in the text. -/
  start_le : span.start ≤ span.stop
  /-- It begins between two characters. -/
  boundary : Text.IsBoundary text.toList span.start
  /-- It does not begin in the blanks in front. -/
  leading_le : leading text ≤ span.start
  /-- Between these blanks and the span stands a selector, or nothing. -/
  accepted : ∃ front, Span.slice? ⟨leading text, span.start⟩ text = some front ∧
    (front = "" ∨ ∃ fragments, parse front = .ok fragments)
  /-- Pieces in front of the first one that is no fragment stand in front of the span. -/
  pieces : ∀ count,
    (∀ piece ∈ (piecesOf text).take count, ∃ f, Writes piece f) → stopOf text count ≤ span.start
  /-- The span begins no later than that one ends. -/
  broken : ∃ count piece, (piecesOf text)[count]? = some piece ∧ (∀ f, ¬ Writes piece f) ∧
    (∀ piece ∈ (piecesOf text).take count, ∃ f, Writes piece f) ∧
    span.start ≤ stopOf text (count + 1)

/-- The accepted pieces stand in the text behind its blanks. -/
theorem Refuses.exists_toList_eq {text : String} {good accepted : List (List Char)}
    {bad : List Char} (h : Refuses (piecesOf text) good bad accepted) :
    ∃ back, text.toList =
      text.toList.takeWhile Text.isBlank ++ (['/'].intercalate accepted ++ back) := by
  have hbody : ['/'].intercalate (piecesOf text) = Text.trim text.toList :=
    List.intercalate_splitOn '/'
  have haccepted := h.accepted_prefix.trans (intercalate_mono h.begins)
  have htrim : Text.trim text.toList <+: text.toList.dropWhile Text.isBlank :=
    List.rdropWhile_prefix Text.isBlank _
  rw [hbody] at haccepted
  obtain ⟨back, hback⟩ := haccepted.trans htrim
  exact ⟨back, by rw [hback, List.takeWhile_append_dropWhile]⟩

/-- Fragments in front are among those in front of the piece that is none. -/
theorem Refuses.take_prefix {pieces good accepted : List (List Char)} {bad : List Char}
    (h : Refuses pieces good bad accepted) (hslash : ∀ piece ∈ pieces, '/' ∉ piece) {count : Nat}
    (hall : ∀ piece ∈ pieces.take count, ∃ f, Writes piece f) : pieces.take count <+: good := by
  have hcount : count ≤ good.length := by
    by_contra hlt
    -- Otherwise the piece that is no fragment would be among them.
    have hmem : bad ∈ pieces.take count :=
      (List.prefix_take_iff.2 ⟨h.begins, by simpa using hlt⟩).subset (by simp)
    obtain ⟨f, hwrites⟩ := hall bad hmem
    refine h.broken f ((readFragment?_eq_some_iff ?_).2 hwrites)
    exact hslash bad (List.mem_of_mem_take hmem)
  refine List.prefix_of_prefix_length_le (List.take_prefix count pieces)
    ((List.prefix_append good [bad]).trans h.begins) ?_
  exact Nat.le_trans (List.length_take_le count pieces) hcount

/-- All fragments in front of the piece that is none are accepted. -/
theorem Refuses.good_prefix {pieces good accepted : List (List Char)} {bad : List Char}
    (h : Refuses pieces good bad accepted) : good <+: accepted := by
  rcases h.accepts with rfl | ⟨front, -, -, rfl⟩
  · exact List.prefix_rfl
  · exact List.prefix_append good [front]

/-- A refused selector has pieces that are refused, and the error begins behind what is accepted of
them. -/
theorem exists_refuses_of_parse {text : String} {d : Diagnostic} (h : parse text = .error d) :
    ∃ good bad accepted, Refuses (piecesOf text) good bad accepted ∧
      d.span = ⟨leading text + extent accepted, Text.byteLength text.toList⟩ := by
  unfold parse at h
  dsimp only at h
  split at h
  next => cases h
  next k hk =>
    cases h
    obtain ⟨good, bad, accepted, hrefuses, hstart⟩ := exists_refuses_of_readPieces hk
    refine ⟨good, bad, accepted, hrefuses, ?_⟩
    have hstart : k = leading text + extent accepted := by
      rw [hstart]
      split
      next hnil => subst hnil; rfl
      next => rfl
    rw [← hstart]
    rfl

/-- Refused pieces pinpoint where the accepted ones end. -/
theorem Refuses.pinpoints {text : String} {good accepted : List (List Char)} {bad : List Char}
    (h : Refuses (piecesOf text) good bad accepted) :
    Pinpoints text ⟨leading text + extent accepted, Text.byteLength text.toList⟩ := by
  have hslash : ∀ piece ∈ piecesOf text, '/' ∉ piece := fun _ => slash_notMem_of_mem_pieces
  have hfragment : ∀ {piece}, piece ∈ piecesOf text →
      ((∃ f, readFragment? piece = some (f, [])) ↔ ∃ f, Writes piece f) := fun hpiece =>
    exists_congr fun f => readFragment?_eq_some_iff (hslash _ hpiece)
  obtain ⟨back, htext⟩ := h.exists_toList_eq
  have hboundary : Text.IsBoundary text.toList (leading text + extent accepted) := by
    refine Text.isBoundary_iff.2 ⟨_, back, htext.trans (List.append_assoc _ _ _).symm, ?_⟩
    rw [Text.byteLength_append]
    rfl
  -- What is accepted stands behind the blanks at the beginning of the text.
  have hslice : Span.slice? ⟨leading text, leading text + extent accepted⟩ text =
      some (String.ofList (['/'].intercalate accepted)) := by
    have hcut := Span.slice?_append (text.toList.takeWhile Text.isBlank)
      (['/'].intercalate accepted) back
    rwa [← htext, String.ofList_toList] at hcut
  obtain ⟨rest, hrest⟩ := h.begins
  have hpieces : piecesOf text = good ++ bad :: rest :=
    hrest.symm.trans (List.append_cons good bad rest).symm
  -- The pieces up to the bad one.
  have htake : (piecesOf text).take (good.length + 1) = good ++ [bad] := by
    rw [hpieces, List.append_cons, List.take_left' (by simp)]
  refine ⟨rfl, hboundary.le_byteLength, hboundary, Nat.le_add_right _ _, ⟨_, hslice, ?_⟩,
    fun count hall => ?_, good.length, bad, ?_, ?_, ?_, ?_⟩
  · by_cases hnil : accepted = []
    · subst hnil
      exact Or.inl rfl
    · exact Or.inr (exists_parse_intercalate hnil (h.writes hslash))
  · exact Nat.add_le_add_left
      (extent_mono ((h.take_prefix hslash hall).trans h.good_prefix)) _
  · rw [hpieces, List.getElem?_append_right (Nat.le_refl _), Nat.sub_self, List.getElem?_cons_zero]
  · have hbad : bad ∈ piecesOf text := by simp [hpieces]
    exact not_exists.1 fun hwrites => not_exists.2 h.broken ((hfragment hbad).2 hwrites)
  · rw [hpieces, List.take_left]
    intro piece hpiece
    exact (hfragment (by simp [hpieces, hpiece])).1 (h.whole piece hpiece)
  · rw [stopOf, htake]
    exact Nat.add_le_add_left (Text.byteLength_le_of_prefix h.accepted_prefix) _

/-- The error of a refused selector goes from behind what is accepted to the end of the text. What
is accepted is nothing or a selector; it holds all pieces in front of the first one that is no
fragment, and does not go beyond that one. -/
theorem pinpoints_parse {text : String} {d : Diagnostic} (h : parse text = .error d) :
    Pinpoints text d.span := by
  obtain ⟨good, bad, accepted, hrefuses, hspan⟩ := exists_refuses_of_parse h
  rw [hspan]
  exact hrefuses.pinpoints

/-- A wide blank in front, and a bracket that is not closed before the slash: the ancestor without
its predicate is accepted. -/
theorem pinpoints_parse_unclosed :
    parse "\u3000a/$ancestor[@name=é/x " =
      .error ((Cause.invalidSelector "a/$ancestor[@name=é/x").on ⟨14, 26⟩) ∧
    Pinpoints "\u3000a/$ancestor[@name=é/x " ⟨14, 26⟩ := by
  have hrefused : parse "\u3000a/$ancestor[@name=é/x " =
      .error ((Cause.invalidSelector "a/$ancestor[@name=é/x").on ⟨14, 26⟩) := by
    decide +kernel
  exact ⟨hrefused, pinpoints_parse hrefused⟩

end LayoutMarkup.Selector
