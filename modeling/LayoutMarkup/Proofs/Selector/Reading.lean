import LayoutMarkup.Proofs.Selector.Grammar

/-!
# Reading from left to right

A selector can also be read without cutting it first: a fragment is read off the front, then a slash
and a fragment again, as long as there are any (`Reads`). The text is not cut then, so an optional
part could look beyond a slash, and a part that is not accepted is given back before the next slash
is looked for. That makes no difference, because no reader passes a slash: in front of one it reads
what it reads at the end of the text (`readFragment?_append_slash`). So a text is read from left to
right to its end exactly if each of its pieces is (`reads_nil_iff`).
-/

namespace LayoutMarkup.Selector

/-- Fragments are read off the front of a text, with a slash between each two, as far as they go. A
slash that no fragment follows is left, with what is behind it. -/
inductive Reads : List Char → List Fragment → List Char → Prop where
  /-- The last fragment. -/
  | last {cs rest : List Char} {f : Fragment} (hread : readFragment? cs = some (f, rest))
      (hstop : ∀ more, rest = '/' :: more → readFragment? more = none) : Reads cs [f] rest
  /-- A fragment with a slash and more fragments behind it. -/
  | more {cs behind rest : List Char} {f : Fragment} {fragments : List Fragment}
      (hread : readFragment? cs = some (f, '/' :: behind)) (hmore : Reads behind fragments rest) :
      Reads cs (f :: fragments) rest

/-! ## Reading in front of a slash -/

section

variable (cs more : List Char)

/-- What is read, with a slash and more text added to what is left. -/
abbrev addMore {α : Type} : Option (α × List Char) → Option (α × List Char) :=
  Option.map (Prod.map id (· ++ '/' :: more))

/-- A run of characters ends in front of a slash. -/
theorem takeWhile_append_slash {p : Char → Bool} (hp : p '/' = false) :
    (cs ++ '/' :: more).takeWhile p = cs.takeWhile p ∧
      (cs ++ '/' :: more).dropWhile p = cs.dropWhile p ++ '/' :: more := by
  obtain ⟨hcs, hfront, hback⟩ :=
    takeWhile_dropWhile_iff.1 ⟨rfl, (rfl : cs.dropWhile p = cs.dropWhile p)⟩
  refine takeWhile_dropWhile_iff.2 ⟨?_, hfront, ?_⟩
  · rw [← List.append_assoc, ← hcs]
  · intro c hc
    cases hdrop : cs.dropWhile p with
    | nil =>
      rw [hdrop] at hc
      cases hc
      exact hp
    | cons d back =>
      rw [hdrop] at hback hc
      exact hback c hc

theorem readOffset?_append_slash :
    readOffset? (cs ++ '/' :: more) = addMore more (readOffset? cs) := by
  cases cs with
  | nil => rfl
  | cons sign cs =>
    obtain ⟨htake, hdrop⟩ := takeWhile_append_slash cs more (p := Char.isDigit) rfl
    simp only [List.cons_append, readOffset?, htake, hdrop]
    split <;> rfl

/-- A literal without a slash does not reach beyond one. -/
theorem dropLiteral?_append_slash {literal : String} (h : '/' ∉ literal.toList) :
    dropLiteral? literal (cs ++ '/' :: more) =
      (dropLiteral? literal cs).map (· ++ '/' :: more) := by
  ext rest
  rw [Option.map_eq_some_iff, dropLiteral?_eq_some_iff]
  simp only [dropLiteral?_eq_some_iff]
  constructor
  · intro heq
    rcases List.append_eq_append_iff.1 heq with ⟨between, hliteral, hslash⟩ | ⟨front, hcs, hrest⟩
    · cases between with
      | nil => exact ⟨[], by simpa using hliteral.symm, by simpa using hslash⟩
      | cons c between =>
        rw [← (List.cons.inj hslash).1] at hliteral
        exact absurd (by simp [hliteral]) h
    · exact ⟨front, hcs, hrest.symm⟩
  · rintro ⟨front, rfl, rfl⟩
    rw [List.append_assoc]

theorem readPredicateAs?_append_slash {key : String} (h : '/' ∉ key.toList)
    (make : String → Predicate) :
    readPredicateAs? key make (cs ++ '/' :: more) =
      addMore more (readPredicateAs? key make cs) := by
  have hliteral : '/' ∉ (s!"@{key}=").toList := by
    show '/' ∉ ("@" ++ key ++ "=").toList
    simpa using h
  unfold readPredicateAs?
  rw [dropLiteral?_append_slash cs more hliteral]
  cases dropLiteral? s!"@{key}=" cs with
  | none => rfl
  | some behind =>
    -- A slash is no character of a value, so the value ends at the same place. Then the bracket has
    -- to come before the slash.
    obtain ⟨htake, hdrop⟩ := takeWhile_append_slash behind more (p := isPredicateChar) rfl
    simp only [Option.map_some, Option.bind_eq_bind, Option.bind_some, htake, hdrop]
    cases behind.takeWhile isPredicateChar with
    | nil => rfl
    | cons c value =>
      cases behind.dropWhile isPredicateChar with
      | nil => rfl
      | cons d rest =>
        by_cases hd : d = ']'
        · subst hd
          rfl
        · simp [hd]

theorem readPredicate?_append_slash :
    readPredicate? (cs ++ '/' :: more) = addMore more (readPredicate? cs) := by
  unfold readPredicate?
  rw [dropLiteral?_append_slash cs more (by decide)]
  cases dropLiteral? "[" cs with
  | none => rfl
  | some behind =>
    simp only [Option.map_some, Option.bind_eq_bind, Option.bind_some]
    rw [readPredicateAs?_append_slash behind more (by decide),
      readPredicateAs?_append_slash behind more (by decide),
      readPredicateAs?_append_slash behind more (by decide)]
    cases readPredicateAs? "name" .name behind with
    | some found => rfl
    | none => cases readPredicateAs? "type" .type behind <;> rfl

theorem readHandle_append_slash (name : String) :
    readHandle name (cs ++ '/' :: more) =
      Prod.map id (· ++ '/' :: more) (readHandle name cs) := by
  unfold readHandle
  rw [readOffset?_append_slash, readPredicate?_append_slash]
  split <;> try rfl
  · cases readOffset? cs <;> rfl
  · cases readPredicate? cs <;> rfl

/-- No fragment reaches beyond a slash. -/
theorem readFragment?_append_slash :
    readFragment? (cs ++ '/' :: more) = addMore more (readFragment? cs) := by
  cases cs with
  | nil => rfl
  | cons c cs =>
    by_cases hc : c = '$'
    · subst hc
      obtain ⟨htake, hdrop⟩ := takeWhile_append_slash cs more (p := isHandleChar) (by decide)
      rw [List.cons_append, readFragment?, readFragment?, htake, hdrop, readHandle_append_slash]
      split <;> rfl
    · obtain ⟨htake, hdrop⟩ := takeWhile_append_slash (c :: cs) more (p := isChildChar) (by decide)
      rw [List.cons_append] at htake hdrop ⊢
      rw [readFragment?_of_ne hc, readFragment?_of_ne hc, htake, hdrop]
      split <;> rfl

end

/-! ## What is left -/

/-- What is left behind a handle is the end of the text, and without it the handle is read all the
same. -/
theorem exists_front_of_readHandle {name : String} {cs left : List Char} {f : Fragment}
    (h : readHandle name cs = (f, left)) :
    ∃ front, cs = front ++ left ∧ readHandle name front = (f, []) := by
  unfold readHandle at h
  split at h
  -- A parent with or without a number. The number is what was written in front of `left`.
  case h_5 =>
    split at h
    next offset rest hoffset =>
      cases h
      obtain ⟨sign, digits, rfl, hdigits, -, hsign⟩ := readOffset?_eq_some_iff.1 hoffset
      have hread : readOffset? (sign :: digits) = some (offset, []) :=
        readOffset?_eq_some_iff.2 ⟨sign, digits, by simp, hdigits, by simp, hsign⟩
      exact ⟨sign :: digits, rfl, by rw [readHandle, hread]⟩
    next => cases h; exact ⟨[], rfl, rfl⟩
  -- An ancestor with or without a predicate.
  case h_6 =>
    split at h
    next predicate rest hpredicate =>
      cases h
      obtain ⟨key, make, value, hkey, rfl, hvalue⟩ := readPredicate?_eq_some_iff.1 hpredicate
      have hread : readPredicate? ("[@".toList ++ key.toList ++ '=' :: value ++ [']']) =
          some (predicate, []) :=
        readPredicate?_eq_some_iff.2 ⟨key, make, value, hkey, rfl, hvalue⟩
      exact ⟨"[@".toList ++ key.toList ++ '=' :: value ++ [']'], by simp, by rw [readHandle, hread]⟩
    next => cases h; exact ⟨[], rfl, rfl⟩
  all_goals cases h; exact ⟨[], rfl, by rw [readHandle] <;> assumption⟩

/-- What is left behind a fragment is the end of the text, and without it the fragment is read all
the same. -/
theorem exists_front_of_readFragment? {cs left : List Char} {f : Fragment}
    (h : readFragment? cs = some (f, left)) :
    ∃ front, cs = front ++ left ∧ readFragment? front = some (f, []) := by
  cases cs with
  | nil => cases h
  | cons c cs =>
    by_cases hc : c = '$'
    · subst hc
      rw [readFragment?] at h
      split at h
      next => cases h
      next hne =>
        obtain ⟨hcs, hname, hbehind⟩ := takeWhile_dropWhile_iff.1
          ⟨rfl, (rfl : cs.dropWhile isHandleChar = cs.dropWhile isHandleChar)⟩
        -- The name of the handle ends where it did, as the same character stands behind it.
        obtain ⟨front, hfront, hread⟩ := exists_front_of_readHandle (Option.some.inj h)
        rw [hfront] at hbehind hcs
        refine ⟨'$' :: (cs.takeWhile isHandleChar ++ front), ?_, ?_⟩
        · rw [List.cons_append, List.append_assoc, ← hcs]
        · rw [readFragment?_handle (by simpa using hne) hname, hread]
          intro d hd
          refine hbehind d ?_
          rw [List.head?_append, Option.mem_def.1 hd]
          rfl
    · rw [readFragment?_of_ne hc] at h
      split at h
      next => cases h
      next hne =>
        -- The name of a child ends at the first character of another kind.
        obtain ⟨rfl, rfl⟩ := Prod.mk.inj (Option.some.inj h)
        obtain ⟨hcs, hname, -⟩ := takeWhile_dropWhile_iff.1
          ⟨rfl, (rfl : (c :: cs).dropWhile isChildChar = (c :: cs).dropWhile isChildChar)⟩
        have hslash : '/' ∉ (c :: cs).takeWhile isChildChar :=
          fun hmem => absurd (hname '/' hmem) (by decide)
        have hwrites : Writes _ _ := .child (by simpa using hne) hname
        exact ⟨_, hcs, (readFragment?_eq_some_iff hslash).2 hwrites⟩

/-- What is left behind a fragment is the end of the text. -/
theorem suffix_of_readFragment? {cs rest : List Char} {f : Fragment}
    (h : readFragment? cs = some (f, rest)) : rest <:+ cs := by
  obtain ⟨front, rfl, -⟩ := exists_front_of_readFragment? h
  exact List.suffix_append front rest

/-! ## Selectors -/

/-- A text is a piece, or a piece with a slash and more text behind it. -/
theorem pieces_cases (cs : List Char) : '/' ∉ cs ∧ Name.pieces cs = [cs] ∨
    ∃ piece more, cs = piece ++ '/' :: more ∧ '/' ∉ piece ∧
      Name.pieces cs = piece :: Name.pieces more := by
  by_cases hslash : '/' ∈ cs
  · obtain ⟨piece, more, rfl, hpiece⟩ := List.eq_append_cons_of_mem hslash
    exact Or.inr ⟨piece, more, rfl, hpiece, List.splitOn_append_cons_self_of_not_mem hpiece more⟩
  · exact Or.inl ⟨hslash, List.splitOn_eq_singleton hslash⟩

/-- A text is read from left to right to its end exactly if each of its pieces is. -/
theorem reads_nil_iff {cs : List Char} {fragments : List Fragment} :
    Reads cs fragments [] ↔
      List.Forall₂ (fun piece f => readFragment? piece = some (f, [])) (Name.pieces cs)
        fragments := by
  constructor
  · intro h
    generalize hend : ([] : List Char) = rest at h
    induction h with
    | @last cs rest f hread hstop =>
      subst hend
      obtain ⟨-, hpieces⟩ | ⟨piece, more, rfl, -, -⟩ := pieces_cases cs
      · rw [hpieces]
        exact .cons hread .nil
      · -- The slash would be left.
        rw [readFragment?_append_slash] at hread
        obtain ⟨⟨g, left⟩, -, heq⟩ := Option.map_eq_some_iff.1 hread
        exact absurd (Prod.mk.inj heq).2 (by simp)
    | @more cs behind rest f fragments hread hmore ih =>
      subst hend
      obtain ⟨hslash, -⟩ | ⟨piece, more, rfl, hpiece, hpieces⟩ := pieces_cases cs
      · exact absurd ((suffix_of_readFragment? hread).subset List.mem_cons_self) hslash
      · rw [readFragment?_append_slash] at hread
        obtain ⟨⟨g, left⟩, hleft, heq⟩ := Option.map_eq_some_iff.1 hread
        obtain ⟨rfl, hbehind⟩ := Prod.mk.inj heq
        -- Nothing is left of the piece, since what is left begins with the slash.
        have hnil : left = [] ∧ more = behind := by
          cases left with
          | nil => exact ⟨rfl, (List.cons.inj hbehind).2⟩
          | cons c left =>
            have hc : c = '/' := (List.cons.inj hbehind).1
            have hmem := (suffix_of_readFragment? hleft).subset List.mem_cons_self
            exact absurd (hc ▸ hmem) hpiece
        obtain ⟨rfl, rfl⟩ := hnil
        rw [hpieces]
        exact .cons hleft (ih rfl)
  · intro h
    induction fragments generalizing cs with
    | nil => exact absurd (List.forall₂_nil_right_iff.1 h) (List.splitOn_ne_nil _ _)
    | cons f fragments ih =>
      obtain ⟨-, hpieces⟩ | ⟨piece, more, rfl, -, hpieces⟩ := pieces_cases cs
      · rw [hpieces] at h
        obtain ⟨hread, hnil⟩ := List.forall₂_cons.1 h
        rw [List.forall₂_nil_left_iff.1 hnil]
        exact .last hread fun more hmore => nomatch hmore
      · rw [hpieces] at h
        obtain ⟨hread, hmore⟩ := List.forall₂_cons.1 h
        refine .more ?_ (ih hmore)
        rw [readFragment?_append_slash, hread]
        rfl

/-- A text is accepted exactly if, without the blanks around it, each piece between its slashes
writes a fragment. It is read as these fragments, in their order, and the same text is read as them
from left to right. -/
theorem parse_language (text : String) :
    ((∃ fragments, parse text = .ok fragments) ↔
      ∀ piece ∈ Name.pieces (Text.trim text.toList), ∃ f, Writes piece f) ∧
    ∀ fragments,
      (parse text = .ok fragments ↔
        List.Forall₂ Writes (Name.pieces (Text.trim text.toList)) fragments) ∧
      (parse text = .ok fragments ↔ Reads (Text.trim text.toList) fragments []) := by
  refine ⟨?_, fun fragments => ⟨parse_eq_ok_iff, ?_⟩⟩
  · simp only [parse_eq_ok_iff, exists_forall₂_iff]
  · rw [parse_eq_ok_iff_readPieces, reads_nil_iff]

end LayoutMarkup.Selector
