import LayoutMarkup.Proofs.Index.Slots
import LayoutMarkup.Selector.Parse
import Mathlib.Data.List.Forall2
import Mathlib.Data.List.TakeWhile

/-!
# The grammar of selectors

What a piece of a selector may be, and which fragment it then writes, is said by `Writes` without
regard to how it is read. Reading a piece gives a fragment and leaves nothing exactly if the piece
writes that fragment (`readFragment?_eq_some_iff`), and a selector is read if each of its pieces is
(`parse_eq_ok_iff`).

The readers of the optional parts fall back to leaving their text, so each is described by what it
accepts (`readOffset?_eq_some_iff`, `readPredicate?_eq_some_iff`); whatever else stands there is
left over and makes the piece no fragment.
-/

namespace LayoutMarkup.Selector

/-! ## Pieces -/

/-- The handles that have a meaning of their own. -/
def reserved : List (String × Fragment) :=
  [("this", .this), ("parent", .parent), ("root", .root), ("layer", .layer),
    ("sibling", .sibling 0), ("ancestor", .ancestor none)]

/-- What a predicate may ask for. -/
def properties : List (String × (String → Predicate)) :=
  [("name", .name), ("type", .type), ("oftype", .ofType)]

/-- Digits that write the distance of a sibling. The sign is no part of the number that must not be
too large. -/
structure IsDistance (digits : List Char) : Prop where
  /-- There are some. -/
  ne_nil : digits ≠ []
  /-- They are decimal digits. -/
  isDigit : ∀ c ∈ digits, c.isDigit = true
  /-- The number is not too large. -/
  le : ofDigits digits ≤ maxOffset

/-- A piece of a selector, as a whole, writes a fragment. -/
inductive Writes : List Char → Fragment → Prop where
  /-- The name of a child. -/
  | child {name : List Char} (hne : name ≠ []) (hchars : ∀ c ∈ name, isChildChar c = true) :
      Writes name (.child (String.ofList name))
  /-- A handle with a meaning of its own. -/
  | handle {name : String} {f : Fragment} (hname : (name, f) ∈ reserved) :
      Writes ('$' :: name.toList) f
  /-- Any other handle. -/
  | custom {name : List Char} (hne : name ≠ []) (hchars : ∀ c ∈ name, isHandleChar c = true)
      (hfree : String.ofList name ∉ reserved.map Prod.fst) :
      Writes ('$' :: name) (.custom (String.ofList name))
  /-- A sibling further on. -/
  | forward {digits : List Char} (h : IsDistance digits) :
      Writes ("$sibling+".toList ++ digits) (.sibling (ofDigits digits))
  /-- A sibling further back. -/
  | backward {digits : List Char} (h : IsDistance digits) :
      Writes ("$sibling-".toList ++ digits) (.sibling (-(ofDigits digits : Int)))
  /-- An ancestor with a property. Blanks around the value do not count. -/
  | ancestor {key : String} {make : String → Predicate} {value : List Char}
      (hkey : (key, make) ∈ properties) (hne : value ≠ []) (hvalue : ']' ∉ value) :
      Writes ("$ancestor[@".toList ++ key.toList ++ '=' :: value ++ [']'])
        (.ancestor (some (make (String.ofList (Text.trim value)))))

/-- There are six handles with a meaning of their own. -/
theorem mem_reserved_iff {name : String} {f : Fragment} : (name, f) ∈ reserved ↔
    name = "this" ∧ f = .this ∨ name = "parent" ∧ f = .parent ∨ name = "root" ∧ f = .root ∨
      name = "layer" ∧ f = .layer ∨ name = "sibling" ∧ f = .sibling 0 ∨
      name = "ancestor" ∧ f = .ancestor none := by
  simp [reserved]

/-- There are three properties. -/
theorem mem_properties_iff {key : String} {make : String → Predicate} :
    (key, make) ∈ properties ↔ key = "name" ∧ make = .name ∨ key = "type" ∧ make = .type ∨
      key = "oftype" ∧ make = .ofType := by
  simp [properties]

/-! ## Runs of characters -/

/-- The longest run of characters at the front, and what is behind it. -/
theorem takeWhile_dropWhile_iff {p : Char → Bool} {cs front back : List Char} :
    cs.takeWhile p = front ∧ cs.dropWhile p = back ↔
      cs = front ++ back ∧ (∀ c ∈ front, p c = true) ∧ ∀ c ∈ back.head?, p c = false := by
  constructor
  · rintro ⟨rfl, rfl⟩
    refine ⟨List.takeWhile_append_dropWhile.symm, fun c hc => List.mem_takeWhile_imp hc, ?_⟩
    intro c hc
    have hhead := List.head?_dropWhile_not p cs
    rw [Option.mem_def.1 hc] at hhead
    simpa using hhead
  · rintro ⟨rfl, hfront, hback⟩
    rw [List.takeWhile_append_of_pos hfront, List.dropWhile_append_of_pos hfront]
    cases back with
    | nil => simp
    | cons c back =>
      have hc : ¬ p c = true := by rw [hback c rfl]; exact Bool.false_ne_true
      rw [List.takeWhile_cons_of_neg hc, List.dropWhile_cons_of_neg hc, List.append_nil]
      exact ⟨rfl, rfl⟩

/-- A literal is dropped from a text that begins with it. -/
theorem dropLiteral?_eq_some_iff {literal : String} {cs rest : List Char} :
    dropLiteral? literal cs = some rest ↔ cs = literal.toList ++ rest := by
  unfold dropLiteral?
  constructor
  · intro h
    split at h
    next hprefix =>
      obtain ⟨t, rfl⟩ := List.isPrefixOf_iff_prefix.1 hprefix
      cases h
      rw [List.drop_left]
    next => cases h
  · rintro rfl
    rw [if_pos (List.isPrefixOf_iff_prefix.2 (List.prefix_append _ _)), List.drop_left]

/-! ## Offsets and predicates -/

/-- An offset is a sign and all digits behind it. -/
theorem readOffset?_eq_some_iff {cs rest : List Char} {offset : Int} :
    readOffset? cs = some (offset, rest) ↔ ∃ sign digits, cs = sign :: (digits ++ rest) ∧
      IsDistance digits ∧ (∀ c ∈ rest.head?, c.isDigit = false) ∧
      (sign = '+' ∧ offset = ofDigits digits ∨ sign = '-' ∧ offset = -(ofDigits digits : Int)) := by
  constructor
  · intro h
    cases cs with
    | nil => cases h
    | cons sign cs =>
      -- The digits are all that there are behind the sign.
      obtain ⟨hcs, hdigits, hrest⟩ := takeWhile_dropWhile_iff.1
        ⟨rfl, (rfl : cs.dropWhile Char.isDigit = cs.dropWhile Char.isDigit)⟩
      dsimp only [readOffset?] at h
      split at h
      next hvalid =>
        simp only [Bool.and_eq_true, Bool.or_eq_true, beq_iff_eq, Bool.not_eq_true',
          List.isEmpty_eq_false_iff, decide_eq_true_eq] at hvalid
        obtain ⟨⟨hsign, hne⟩, hle⟩ := hvalid
        cases h
        refine ⟨sign, cs.takeWhile Char.isDigit, by rw [← hcs], ⟨hne, hdigits, hle⟩, hrest, ?_⟩
        rcases hsign with rfl | rfl
        · exact Or.inl ⟨rfl, rfl⟩
        · exact Or.inr ⟨rfl, rfl⟩
      next => cases h
  · rintro ⟨sign, digits, rfl, hdistance, hrest, hsign⟩
    obtain ⟨htake, hdrop⟩ := takeWhile_dropWhile_iff.2 ⟨rfl, hdistance.isDigit, hrest⟩
    have hne := List.isEmpty_eq_false_iff.2 hdistance.ne_nil
    dsimp only [readOffset?]
    rw [htake, hdrop, hne]
    rcases hsign with ⟨rfl, rfl⟩ | ⟨rfl, rfl⟩ <;> simp [hdistance.le]

/-- A property is asked for by its key, with all that stands in front of the bracket for a value. -/
theorem readPredicateAs?_eq_some_iff {key : String} {make : String → Predicate}
    {cs rest : List Char} {predicate : Predicate} :
    readPredicateAs? key make cs = some (predicate, rest) ↔
      ∃ value, cs = '@' :: key.toList ++ '=' :: value ++ ']' :: rest ∧ value ≠ [] ∧
        (∀ c ∈ value, isPredicateChar c = true) ∧
        predicate = make (String.ofList (Text.trim value)) := by
  have hliteral : (s!"@{key}=").toList = '@' :: key.toList ++ ['='] := by
    show ("@" ++ key ++ "=").toList = _
    simp
  unfold readPredicateAs?
  constructor
  · intro h
    obtain ⟨behind, hbehind, h⟩ := Option.bind_eq_some_iff.1 h
    rw [dropLiteral?_eq_some_iff, hliteral] at hbehind
    dsimp only at h
    split at h
    next c value' tail hvalue htail =>
      obtain ⟨hsplit, hchars, -⟩ := takeWhile_dropWhile_iff.1 ⟨hvalue, htail⟩
      cases h
      refine ⟨c :: value', ?_, List.cons_ne_nil _ _, hchars, by rw [hvalue]⟩
      rw [hbehind, hsplit]
      simp
    next => cases h
  · rintro ⟨value, rfl, hne, hchars, rfl⟩
    have hdrop : dropLiteral? s!"@{key}=" ('@' :: key.toList ++ '=' :: value ++ ']' :: rest) =
        some (value ++ ']' :: rest) := by
      rw [dropLiteral?_eq_some_iff, hliteral]
      simp
    -- A bracket is no character of a value, so the value ends in front of it.
    obtain ⟨htake, hbehind⟩ := takeWhile_dropWhile_iff.2 ⟨rfl, hchars,
      (by rintro _ ⟨⟩; rfl : ∀ c ∈ (']' :: rest).head?, isPredicateChar c = false)⟩
    obtain ⟨c, value, rfl⟩ := List.exists_cons_of_ne_nil hne
    rw [hdrop, Option.bind_eq_bind, Option.bind_some]
    dsimp only
    rw [htake, hbehind]
    rfl

/-- A predicate asks for one of the properties. -/
theorem readPredicate?_eq_some_iff {cs rest : List Char} {predicate : Predicate} :
    readPredicate? cs = some (predicate, rest) ↔ ∃ key make value, (key, make) ∈ properties ∧
      cs = "[@".toList ++ key.toList ++ '=' :: value ++ ']' :: rest ∧ value ≠ [] ∧
      (∀ c ∈ value, isPredicateChar c = true) ∧
      predicate = make (String.ofList (Text.trim value)) := by
  constructor
  · intro h
    obtain ⟨behind, hbehind, h⟩ := Option.bind_eq_some_iff.1 h
    rw [dropLiteral?_eq_some_iff] at hbehind
    -- One of the three readers has read it.
    have hsome : ∃ key make, (key, make) ∈ properties ∧
        readPredicateAs? key make behind = some (predicate, rest) := by
      simp only [Option.orElse_eq_orElse, Option.orElse_eq_or, Option.or_eq_some_iff] at h
      rcases h with hname | ⟨-, htype | ⟨-, hofType⟩⟩
      · exact ⟨"name", .name, by simp [mem_properties_iff], hname⟩
      · exact ⟨"type", .type, by simp [mem_properties_iff], htype⟩
      · exact ⟨"oftype", .ofType, by simp [mem_properties_iff], hofType⟩
    obtain ⟨key, make, hkey, hread⟩ := hsome
    obtain ⟨value, rfl, hvalue⟩ := readPredicateAs?_eq_some_iff.1 hread
    exact ⟨key, make, value, hkey, hbehind, hvalue⟩
  · rintro ⟨key, make, value, hkey, rfl, hvalue⟩
    have hread : readPredicateAs? key make ('@' :: key.toList ++ '=' :: value ++ ']' :: rest) =
        some (predicate, rest) := readPredicateAs?_eq_some_iff.2 ⟨value, rfl, hvalue⟩
    -- Another key is not found behind the bracket.
    have hother : ∀ {key' : String} {make' : String → Predicate},
        (∀ more, '@' :: key.toList ++ '=' :: value ++ ']' :: rest ≠ '@' :: key'.toList ++ more) →
        readPredicateAs? key' make' ('@' :: key.toList ++ '=' :: value ++ ']' :: rest) = none := by
      intro key' make' hne
      refine Option.eq_none_iff_forall_ne_some.2 fun (predicate', rest') hfound => ?_
      obtain ⟨value', heq, -⟩ := readPredicateAs?_eq_some_iff.1 hfound
      refine hne ('=' :: value' ++ ']' :: rest') (heq.trans ?_)
      simp
    have hbracket : dropLiteral? "[" ("[@".toList ++ key.toList ++ '=' :: value ++ ']' :: rest) =
        some ('@' :: key.toList ++ '=' :: value ++ ']' :: rest) :=
      dropLiteral?_eq_some_iff.2 rfl
    rw [readPredicate?, hbracket, Option.bind_eq_bind, Option.bind_some]
    rcases mem_properties_iff.1 hkey with ⟨rfl, rfl⟩ | ⟨rfl, rfl⟩ | ⟨rfl, rfl⟩
    · rw [hread]
      rfl
    · rw [hother (by simp), hread]
      rfl
    · rw [hother (by simp), hother (by simp), hread]
      rfl

/-! ## Fragments -/

/-- A text that does not begin with a dollar sign is read as the name of a child. -/
theorem readFragment?_of_ne {c : Char} (hc : c ≠ '$') (cs : List Char) :
    readFragment? (c :: cs) =
      if ((c :: cs).takeWhile isChildChar).isEmpty then none
      else some (.child (String.ofList ((c :: cs).takeWhile isChildChar)),
        (c :: cs).dropWhile isChildChar) := by
  rw [readFragment?]
  exact fun _ h => hc (List.cons.inj h).1

/-- A handle is read by its name, and its meaning by what is behind the name. -/
theorem readFragment?_handle {name : List Char} (hne : name ≠ [])
    (hchars : ∀ c ∈ name, isHandleChar c = true) (rest : List Char)
    (hrest : ∀ c ∈ rest.head?, isHandleChar c = false) :
    readFragment? ('$' :: (name ++ rest)) = some (readHandle (String.ofList name) rest) := by
  obtain ⟨htake, hdrop⟩ := takeWhile_dropWhile_iff.2 ⟨rfl, hchars, hrest⟩
  rw [readFragment?, htake, hdrop, List.isEmpty_eq_false_iff.2 hne]
  rfl

/-- The handles with a meaning of their own, and what they mean with nothing behind them. -/
theorem readHandle_reserved {name : String} {f : Fragment} (h : (name, f) ∈ reserved) :
    readHandle name [] = (f, []) := by
  have htable : ∀ entry ∈ reserved, readHandle entry.1 [] = (entry.2, []) := by decide
  exact htable (name, f) h

/-- A handle without a meaning of its own has none of the six names. -/
theorem notMem_reserved_iff {name : String} : name ∉ reserved.map Prod.fst ↔ name ≠ "this" ∧
    name ≠ "parent" ∧ name ≠ "root" ∧ name ≠ "layer" ∧ name ≠ "sibling" ∧ name ≠ "ancestor" := by
  simp [reserved]

/-- Any other handle leaves what is behind its name. -/
theorem readHandle_custom {name : String} (h : name ∉ reserved.map Prod.fst) (cs : List Char) :
    readHandle name cs = (.custom name, cs) := by
  obtain ⟨hthis, hparent, hroot, hlayer, hsibling, hancestor⟩ := notMem_reserved_iff.1 h
  rw [readHandle] <;> assumption

/-- An offset that is read to its end belongs to the sibling. -/
theorem readFragment?_sibling {sign : Char} {digits : List Char} {offset : Int}
    (hsign : isHandleChar sign = false) (h : readOffset? (sign :: digits) = some (offset, [])) :
    readFragment? ('$' :: ("sibling".toList ++ sign :: digits)) = some (.sibling offset, []) := by
  have hword : ∀ c ∈ "sibling".toList, isHandleChar c = true := List.all_eq_true.1 (by decide)
  rw [readFragment?_handle (by decide) hword _ (by rintro _ ⟨⟩; exact hsign),
    String.ofList_toList, readHandle, h]

/-- A predicate that is read to its end belongs to the ancestor. -/
theorem readFragment?_ancestor {cs : List Char} {predicate : Predicate}
    (hcs : cs.head? = some '[') (h : readPredicate? cs = some (predicate, [])) :
    readFragment? ('$' :: ("ancestor".toList ++ cs)) = some (.ancestor (some predicate), []) := by
  have hword : ∀ c ∈ "ancestor".toList, isHandleChar c = true := List.all_eq_true.1 (by decide)
  rw [readFragment?_handle (by decide) hword _ (by rw [hcs]; rintro _ ⟨⟩; decide),
    String.ofList_toList, readHandle, h]

/-- The names of the handles consist of characters of handles. -/
theorem isHandleChar_of_reserved {name : String} {f : Fragment} (h : (name, f) ∈ reserved) :
    name.toList ≠ [] ∧ ∀ c ∈ name.toList, isHandleChar c = true := by
  have htable : ∀ entry ∈ reserved,
      entry.1.toList ≠ [] ∧ entry.1.toList.all isHandleChar = true := by
    decide
  obtain ⟨hne, hall⟩ := htable (name, f) h
  exact ⟨hne, List.all_eq_true.1 hall⟩

/-- A handle that is read to its end was written. -/
theorem writes_of_readHandle {name rest : List Char} {f : Fragment} (hne : name ≠ [])
    (hchars : ∀ c ∈ name, isHandleChar c = true)
    (h : readHandle (String.ofList name) rest = (f, [])) : Writes ('$' :: (name ++ rest)) f := by
  -- A reserved name with nothing behind it writes what it means.
  have hreserved : ∀ {word : String} {f : Fragment}, String.ofList name = word →
      (word, f) ∈ reserved → Writes ('$' :: (name ++ [])) f := by
    intro word f hword hmem
    rw [List.append_nil, ← String.toList_ofList (l := name), hword]
    exact .handle hmem
  unfold readHandle at h
  split at h
  next hword => cases h; exact hreserved hword (by simp [mem_reserved_iff])
  next hword => cases h; exact hreserved hword (by simp [mem_reserved_iff])
  next hword => cases h; exact hreserved hword (by simp [mem_reserved_iff])
  next hword => cases h; exact hreserved hword (by simp [mem_reserved_iff])
  next hword =>
    split at h
    next offset behind hoffset =>
      cases h
      -- Behind `sibling` an offset may stand, and behind `ancestor` a predicate.
      obtain ⟨sign, digits, rfl, hdistance, -, hsign⟩ := readOffset?_eq_some_iff.1 hoffset
      have hname : name = "sibling".toList := by rw [← hword, String.toList_ofList]
      rw [hname, List.append_nil]
      rcases hsign with ⟨rfl, rfl⟩ | ⟨rfl, rfl⟩
      · exact .forward hdistance
      · exact .backward hdistance
    next => cases h; exact hreserved hword (by simp [mem_reserved_iff])
  next hword =>
    split at h
    next predicate behind hpredicate =>
      cases h
      obtain ⟨key, make, value, hkey, rfl, hvalue, hfree, rfl⟩ :=
        readPredicate?_eq_some_iff.1 hpredicate
      have hname : name = "ancestor".toList := by rw [← hword, String.toList_ofList]
      have hbracket : ']' ∉ value := fun hmem => absurd (hfree ']' hmem) (by decide)
      rw [hname]
      exact .ancestor hkey hvalue hbracket
    next => cases h; exact hreserved hword (by simp [mem_reserved_iff])
  -- What is no reserved word is a handle of its own.
  next hthis hparent hroot hlayer hsibling hancestor =>
    cases h
    rw [List.append_nil]
    exact .custom hne hchars
      (notMem_reserved_iff.2 ⟨hthis, hparent, hroot, hlayer, hsibling, hancestor⟩)

/-- A piece that is read to its end writes the fragment. -/
theorem writes_of_readFragment? {piece : List Char} {f : Fragment}
    (h : readFragment? piece = some (f, [])) : Writes piece f := by
  match piece with
  | [] => cases h
  | c :: cs =>
    by_cases hc : c = '$'
    · subst hc
      obtain ⟨hcs, hname, -⟩ := takeWhile_dropWhile_iff.1
        ⟨rfl, (rfl : cs.dropWhile isHandleChar = cs.dropWhile isHandleChar)⟩
      rw [readFragment?] at h
      split at h
      next => cases h
      next hne =>
        rw [hcs]
        exact writes_of_readHandle (by simpa using hne) hname (Option.some.inj h)
    · -- Anything else is the name of a child, and goes on to the end of the piece.
      rw [readFragment?_of_ne hc] at h
      split at h
      next => cases h
      next hne =>
        obtain ⟨rfl, hrest⟩ := Prod.mk.inj (Option.some.inj h)
        obtain ⟨hcs, hname, -⟩ := takeWhile_dropWhile_iff.1 ⟨rfl, hrest⟩
        rw [List.append_nil] at hcs
        rw [← hcs] at hname ⊢
        exact .child (List.cons_ne_nil _ _) hname

/-- The name of a child is read to its end. -/
theorem readFragment?_child {name : List Char} (hne : name ≠ [])
    (hchars : ∀ c ∈ name, isChildChar c = true) :
    readFragment? name = some (.child (String.ofList name), []) := by
  obtain ⟨c, cs, rfl⟩ := List.exists_cons_of_ne_nil hne
  have hc : c ≠ '$' := by
    rintro rfl
    exact absurd (hchars '$' List.mem_cons_self) (by decide)
  obtain ⟨htake, hdrop⟩ := takeWhile_dropWhile_iff.2
    ⟨(List.append_nil (c :: cs)).symm, hchars, by simp⟩
  rw [readFragment?_of_ne hc, htake, hdrop]
  rfl

/-- A piece that writes a fragment is read to its end. -/
theorem Writes.readFragment?_eq {piece : List Char} {f : Fragment} (h : Writes piece f)
    (hslash : '/' ∉ piece) : readFragment? piece = some (f, []) := by
  cases h with
  | child hne hchars => exact readFragment?_child hne hchars
  | @handle name _ hname =>
    obtain ⟨hne, hchars⟩ := isHandleChar_of_reserved hname
    have hread := readFragment?_handle hne hchars [] (by simp)
    rw [List.append_nil, String.ofList_toList, readHandle_reserved hname] at hread
    exact hread
  | @custom name hne hchars hfree =>
    have hread := readFragment?_handle hne hchars [] (by simp)
    rw [List.append_nil, readHandle_custom hfree] at hread
    exact hread
  | @forward digits hdistance =>
    have hoffset : readOffset? ('+' :: digits) = some ((ofDigits digits : Int), []) :=
      readOffset?_eq_some_iff.2 ⟨'+', digits, by simp, hdistance, by simp, Or.inl ⟨rfl, rfl⟩⟩
    exact readFragment?_sibling (by decide) hoffset
  | @backward digits hdistance =>
    have hoffset : readOffset? ('-' :: digits) = some (-(ofDigits digits : Int), []) :=
      readOffset?_eq_some_iff.2 ⟨'-', digits, by simp, hdistance, by simp, Or.inr ⟨rfl, rfl⟩⟩
    exact readFragment?_sibling (by decide) hoffset
  | @ancestor key make value hkey hne hvalue =>
    -- A value is anything without a bracket, and the piece has no slash.
    have hchars : ∀ c ∈ value, isPredicateChar c = true := by
      intro c hc
      have hbracket : c ≠ ']' := fun h => hvalue (h ▸ hc)
      have hslash' : c ≠ '/' := by
        rintro rfl
        exact hslash (by simp [hc])
      simp [isPredicateChar, hbracket, hslash']
    exact readFragment?_ancestor rfl (readPredicate?_eq_some_iff.2
      ⟨key, make, value, hkey, rfl, hne, hchars, rfl⟩)

/-- A piece is read to its end exactly if it writes a fragment, and as that one. -/
theorem readFragment?_eq_some_iff {piece : List Char} (hslash : '/' ∉ piece) {f : Fragment} :
    readFragment? piece = some (f, []) ↔ Writes piece f :=
  ⟨writes_of_readFragment?, fun h => h.readFragment?_eq hslash⟩

/-! ## Selectors -/

/-- There is no slash in a piece. -/
theorem slash_notMem_of_mem_pieces {cs piece : List Char} (h : piece ∈ Name.pieces cs) :
    '/' ∉ piece := by
  induction cs generalizing piece with
  | nil =>
    rw [List.mem_singleton.1 h]
    exact List.not_mem_nil
  | cons c cs ih =>
    -- A slash begins a new piece, and any other character goes in front of the first one.
    rw [Name.pieces, List.splitOn_cons_eq_if_modifyHead] at h
    split at h
    next =>
      rcases List.mem_cons.1 h with rfl | h
      · exact List.not_mem_nil
      · exact ih h
    next hc =>
      obtain ⟨first, pieces, hsplit⟩ :=
        List.exists_cons_of_ne_nil (List.splitOn_ne_nil Name.separator cs)
      have hmem : ∀ {piece}, piece ∈ first :: pieces → '/' ∉ piece := by
        intro piece hpiece
        rw [← hsplit] at hpiece
        exact ih hpiece
      rw [hsplit, List.modifyHead_cons] at h
      rcases List.mem_cons.1 h with rfl | h
      · rw [List.mem_cons, not_or]
        exact ⟨fun heq => hc (by rw [← heq]; rfl), hmem List.mem_cons_self⟩
      · exact hmem (List.mem_cons_of_mem first h)

/-- All elements of a list stand in a relation to something exactly if they do so as a list. -/
theorem exists_forall₂_iff {α β : Type} {R : α → β → Prop} {l : List α} :
    (∃ u, List.Forall₂ R l u) ↔ ∀ a ∈ l, ∃ b, R a b := by
  induction l with
  | nil => simp
  | cons a l ih =>
    rw [List.forall_mem_cons, ← ih]
    constructor
    · rintro ⟨_, _ | ⟨hab, hl⟩⟩
      exact ⟨⟨_, hab⟩, ⟨_, hl⟩⟩
    · rintro ⟨⟨b, hab⟩, ⟨u, hl⟩⟩
      exact ⟨b :: u, .cons hab hl⟩

/-- Pieces are read if each is read to its end. -/
theorem readPieces_eq_ok_iff {pieces : List (List Char)} {fragments : List Fragment}
    {stop start : Nat} : readPieces stop start pieces = .ok fragments ↔
      List.Forall₂ (fun piece f => readFragment? piece = some (f, [])) pieces fragments := by
  induction pieces generalizing stop start fragments with
  | nil =>
    rw [readPieces, List.forall₂_nil_left_iff]
    exact ⟨fun h => (Except.ok.inj h).symm, fun h => h ▸ rfl⟩
  | cons piece pieces ih =>
    rw [List.forall₂_cons_left_iff]
    constructor
    · intro h
      dsimp only [readPieces] at h
      -- Only a piece that is read to its end is passed; the other two cases are the refusals.
      split at h
      next => cases h
      next f hread =>
        obtain ⟨rest, hrest, hret⟩ := exists_of_bind_eq_ok h
        exact ⟨f, rest, hread, ih.1 hrest, (Except.ok.inj hret).symm⟩
      next => cases h
    · rintro ⟨f, rest, hread, hrest, rfl⟩
      rw [readPieces, hread]
      dsimp only
      rw [ih.2 hrest]
      rfl

/-- A selector is read if its pieces are. -/
theorem parse_eq_ok_iff_readPieces {text : String} {fragments : List Fragment} :
    parse text = .ok fragments ↔
      List.Forall₂ (fun piece f => readFragment? piece = some (f, []))
        (Name.pieces (Text.trim text.toList)) fragments := by
  rw [← readPieces_eq_ok_iff, parse]
  split
  next found hfound => rw [hfound, Except.ok.injEq, Except.ok.injEq]
  next offset hfound =>
    rw [hfound]
    constructor <;> intro h <;> cases h

/-- A selector is read if all its pieces write fragments, and as these. -/
theorem parse_eq_ok_iff {text : String} {fragments : List Fragment} :
    parse text = .ok fragments ↔
      List.Forall₂ Writes (Name.pieces (Text.trim text.toList)) fragments := by
  have hslash : ∀ piece ∈ Name.pieces (Text.trim text.toList), '/' ∉ piece :=
    fun _ => slash_notMem_of_mem_pieces
  rw [parse_eq_ok_iff_readPieces]
  constructor
  · intro h
    exact ((List.forall₂_and_left _ _).2 ⟨hslash, h⟩).imp
      fun _ _ hread => (readFragment?_eq_some_iff hread.1).1 hread.2
  · intro h
    exact ((List.forall₂_and_left _ _).2 ⟨hslash, h⟩).imp
      fun _ _ hwrites => (readFragment?_eq_some_iff hwrites.1).2 hwrites.2

end LayoutMarkup.Selector
