import LayoutMarkup.Proofs.Selector.Grammar
import Mathlib.Data.List.DropRight

/-!
# Written selectors

A selector that was read is written again, and that text is read. It need not be the text that was
read first: blanks around the selector and around the values of predicates are gone, and offsets
have no leading zeros and no sign if they are zero. But each fragment in writing is a piece that
writes the fragment again (`Writes.render_iff`), with one exception: a value of blanks is accepted
and becomes empty, and a predicate with an empty value is not read. So a selector comes back exactly
if no value in it is empty (`parse_render_iff`).
-/

namespace LayoutMarkup

namespace Text

/-! ## Trimmed text -/

/-- Nothing is trimmed from a text with no blank at either end. -/
theorem trim_eq_self {cs : List Char} (hhead : ∀ c ∈ cs.head?, isBlank c = false)
    (hlast : ∀ c ∈ cs.getLast?, isBlank c = false) : trim cs = cs := by
  have hstart : trimStart cs = cs := by
    cases cs with
    | nil => rfl
    | cons c cs => exact List.dropWhile_cons_of_neg (by rw [hhead c rfl]; exact Bool.false_ne_true)
  rw [trim, hstart]
  refine List.rdropWhile_eq_self_iff.2 fun hne => ?_
  rw [hlast _ (List.getLast?_eq_getLast_of_ne_nil hne)]
  exact Bool.false_ne_true

/-- A trimmed text is a part of the text. -/
theorem trim_sublist (cs : List Char) : (trim cs).Sublist cs :=
  (List.rdropWhile_prefix isBlank _).sublist.trans (List.dropWhile_sublist _)

/-- There are no blanks to trim from a trimmed text. -/
theorem trim_trim (cs : List Char) : trim (trim cs) = trim cs := by
  refine trim_eq_self (fun c hc => ?_) fun c hc => ?_
  · obtain ⟨back, hback⟩ : trim cs <+: trimStart cs := List.rdropWhile_prefix isBlank _
    have hhead : (trimStart cs).head? = some c := by
      rw [← hback, List.head?_append, Option.mem_def.1 hc, Option.some_or]
    have hnot := List.head?_dropWhile_not isBlank cs
    rw [← trimStart, hhead] at hnot
    simpa using hnot
  · obtain ⟨hne, rfl⟩ := List.mem_getLast?_eq_getLast hc
    exact Bool.eq_false_iff.2 (List.rdropWhile_last_not isBlank _ hne)

/-- No blank is a letter or a numeral. -/
theorem isLetterOrNumeral_of_isBlank {c : Char} (h : isBlank c = true) :
    isLetterOrNumeral c = false := by
  have htable : ∀ range ∈ blanks, ∀ k < range.2 - range.1 + 1,
      isLetterOrNumeral (Char.ofNat (range.1 + k)) = false := by
    decide +kernel
  obtain ⟨⟨low, high⟩, hrange, hbounds⟩ := List.any_eq_true.1 h
  simp only [Bool.and_eq_true, decide_eq_true_eq] at hbounds
  have hc := htable (low, high) hrange (c.toNat - low) (by dsimp only; omega)
  rwa [Nat.add_sub_cancel' hbounds.1, Char.ofNat_toNat] at hc

end Text

namespace Selector

/-! ## Characters -/

/-- Whether a character is neither a slash nor a blank. -/
def isPlain (c : Char) : Bool :=
  c != '/' && !Text.isBlank c

/-- The characters of names are plain. -/
theorem isPlain_of_isChildChar {c : Char} (h : isChildChar c = true) : isPlain c = true := by
  simp only [isChildChar, Bool.not_eq_true', Bool.or_eq_false_iff, beq_eq_false_iff_ne] at h
  simp [isPlain, h.1.1.1.1, h.1.1.1.2]

/-- The characters of handles are plain. -/
theorem isPlain_of_isHandleChar {c : Char} (h : isHandleChar c = true) : isPlain c = true := by
  by_contra hplain
  simp only [isPlain, Bool.and_eq_true, bne_iff_ne, Bool.not_eq_true', not_and_or, not_not,
    Bool.not_eq_false] at hplain
  rcases hplain with rfl | hblank
  · exact absurd h (by decide)
  · rw [isHandleChar, Text.isLetterOrNumeral_of_isBlank hblank, Bool.false_or, beq_iff_eq] at h
    rw [h] at hblank
    exact absurd hblank (by decide)

/-- Digits are plain. -/
theorem isPlain_of_isDigit {c : Char} (h : c.isDigit = true) : isPlain c = true :=
  isPlain_of_isHandleChar (by simp [isHandleChar, Text.isLetterOrNumeral, Text.isNumeral, h])

/-- The digits of a number write it. -/
theorem ofDigits_toDigits (n : Nat) : ofDigits (Nat.toDigits 10 n) = n :=
  Nat.ofDigitChars_toDigits (by decide) (by decide)

/-! ## Fragments in writing -/

/-- The value that a predicate asks for. -/
def Predicate.value : Predicate → String
  | name value | type value | ofType value => value

/-- A piece that stays a piece between slashes, and in front of and behind all others. -/
structure Firm (piece : List Char) : Prop where
  /-- There is something in it. -/
  ne_nil : piece ≠ []
  /-- There is no slash in it. -/
  slash : '/' ∉ piece
  /-- It begins with no blank. -/
  head : ∀ c ∈ piece.head?, Text.isBlank c = false
  /-- It ends with no blank. -/
  last : ∀ c ∈ piece.getLast?, Text.isBlank c = false

/-- A piece of plain characters is firm. -/
theorem Firm.of_forall {piece : List Char} (hne : piece ≠ [])
    (h : ∀ c ∈ piece, isPlain c = true) : Firm piece := by
  have hblank : ∀ c ∈ piece, Text.isBlank c = false := fun c hc => by
    have hplain := h c hc
    simp only [isPlain, Bool.and_eq_true, Bool.not_eq_true'] at hplain
    exact hplain.2
  refine ⟨hne, fun hslash => ?_, fun c hc => hblank c (List.mem_of_mem_head? hc),
    fun c hc => hblank c (List.mem_of_mem_getLast? hc)⟩
  exact absurd (h '/' hslash) (by decide)

/-- A sibling in writing. -/
theorem toList_render_sibling (n : Int) : (Fragment.sibling n).render.toList =
    "$sibling".toList ++
      if n = 0 then [] else (if 0 < n then '+' else '-') :: Nat.toDigits 10 n.natAbs := by
  rw [Fragment.render]
  split
  next => simp
  next =>
    split
    next =>
      show ("$sibling+" ++ n.natAbs.repr).toList = _
      simp
    next =>
      show ("$sibling-" ++ n.natAbs.repr).toList = _
      simp

/-- A handle with a meaning of its own in writing. -/
theorem toList_render_reserved {name : String} {f : Fragment} (h : (name, f) ∈ reserved) :
    f.render.toList = '$' :: name.toList := by
  have htable : ∀ entry ∈ reserved, entry.2.render.toList = '$' :: entry.1.toList := by decide
  exact htable (name, f) h

/-- Any other handle in writing. -/
theorem toList_render_custom (name : List Char) :
    (Fragment.custom (String.ofList name)).render.toList = '$' :: name := by
  show ("$" ++ String.ofList name).toList = _
  simp

/-- An ancestor with a property in writing. -/
theorem toList_render_ancestor {key : String} {make : String → Predicate}
    (hkey : (key, make) ∈ properties) (value : List Char) :
    (Fragment.ancestor (some (make (String.ofList value)))).render.toList =
      "$ancestor[@".toList ++ key.toList ++ '=' :: value ++ [']'] := by
  rcases mem_properties_iff.1 hkey with ⟨rfl, rfl⟩ | ⟨rfl, rfl⟩ | ⟨rfl, rfl⟩
  · show ("$ancestor" ++ ("[@name=" ++ String.ofList value ++ "]")).toList = _
    simp
  · show ("$ancestor" ++ ("[@type=" ++ String.ofList value ++ "]")).toList = _
    simp
  · show ("$ancestor" ++ ("[@oftype=" ++ String.ofList value ++ "]")).toList = _
    simp

/-- A sibling that is not too far is written as a piece. -/
theorem writes_render_sibling {n : Int} (hle : n.natAbs ≤ maxOffset) :
    Writes (Fragment.sibling n).render.toList (.sibling n) := by
  have hdistance : IsDistance (Nat.toDigits 10 n.natAbs) :=
    { ne_nil := Nat.toDigits_ne_nil
      isDigit := fun _ => Nat.isDigit_of_mem_toDigits (by decide) (by decide)
      le := by rwa [ofDigits_toDigits] }
  have hforward := Writes.forward hdistance
  have hbackward := Writes.backward hdistance
  rw [ofDigits_toDigits] at hforward hbackward
  rw [toList_render_sibling]
  split_ifs with hzero hpos
  · have hword : ("sibling", Fragment.sibling 0) ∈ reserved := by simp [mem_reserved_iff]
    rw [hzero, List.append_nil]
    exact .handle hword
  · have hn : (n.natAbs : Int) = n := by omega
    rwa [hn] at hforward
  · have hn : -(n.natAbs : Int) = n := by omega
    rwa [hn] at hbackward

/-- A handle is a firm piece. -/
theorem firm_handle {name : List Char} (hchars : ∀ c ∈ name, isHandleChar c = true) :
    Firm ('$' :: name) := by
  refine .of_forall (List.cons_ne_nil _ _) fun c hc => ?_
  rcases List.mem_cons.1 hc with rfl | hc
  · decide
  · exact isPlain_of_isHandleChar (hchars c hc)

/-- A sibling is written as a firm piece, whatever its distance. -/
theorem firm_render_sibling (n : Int) : Firm (Fragment.sibling n).render.toList := by
  have hword : ∀ c ∈ "$sibling".toList, isPlain c = true := List.all_eq_true.1 (by decide)
  have hsign : ∀ sign ∈ ['+', '-'], isPlain sign = true := List.all_eq_true.1 (by decide)
  have hdigits : ∀ c ∈ Nat.toDigits 10 n.natAbs, isPlain c = true :=
    fun c hc => isPlain_of_isDigit (Nat.isDigit_of_mem_toDigits (by decide) (by decide) hc)
  rw [toList_render_sibling]
  refine .of_forall (List.append_ne_nil_of_left_ne_nil (by decide) _) fun c hc => ?_
  rcases List.mem_append.1 hc with hc | hc
  · exact hword c hc
  · split_ifs at hc
    · exact absurd hc List.not_mem_nil
    all_goals
      rcases List.mem_cons.1 hc with rfl | hc
      · exact hsign _ (by simp)
      · exact hdigits c hc

/-- An ancestor with a property is a firm piece. -/
theorem firm_ancestor {key value : List Char}
    (hslash : '/' ∉ "$ancestor[@".toList ++ key ++ '=' :: value ++ [']']) :
    Firm ("$ancestor[@".toList ++ key ++ '=' :: value ++ [']']) := by
  refine ⟨by simp, hslash, ?_, ?_⟩
  · rintro _ ⟨⟩
    decide
  · rw [List.getLast?_concat]
    rintro _ ⟨⟩
    decide

/-- A sign and digits behind a word are a firm piece. -/
theorem firm_distance {word digits : List Char} (hword : ∀ c ∈ word, isPlain c = true)
    (hne : word ≠ []) (hdigits : IsDistance digits) : Firm (word ++ digits) := by
  refine .of_forall (List.append_ne_nil_of_left_ne_nil hne _) fun c hc => ?_
  rcases List.mem_append.1 hc with hc | hc
  · exact hword c hc
  · exact isPlain_of_isDigit (hdigits.isDigit c hc)

/-- A piece that writes a fragment is firm. -/
theorem Writes.firm {piece : List Char} {f : Fragment} (h : Writes piece f)
    (hslash : '/' ∉ piece) : Firm piece := by
  cases h with
  | child hne hchars => exact .of_forall hne fun c hc => isPlain_of_isChildChar (hchars c hc)
  | handle hname => exact firm_handle (isHandleChar_of_reserved hname).2
  | custom hne hchars hfree => exact firm_handle hchars
  | forward hdigits =>
    exact firm_distance (List.all_eq_true.1 (by decide)) (by decide) hdigits
  | backward hdigits =>
    exact firm_distance (List.all_eq_true.1 (by decide)) (by decide) hdigits
  | ancestor hkey hne hvalue => exact firm_ancestor hslash

/-- A fragment that a piece writes is written as a firm piece. -/
theorem Writes.firm_render {piece : List Char} {f : Fragment} (h : Writes piece f)
    (hslash : '/' ∉ piece) : Firm f.render.toList := by
  cases h with
  | child hne hchars =>
    rw [Fragment.render, String.toList_ofList]
    exact .of_forall hne fun c hc => isPlain_of_isChildChar (hchars c hc)
  | handle hname =>
    rw [toList_render_reserved hname]
    exact firm_handle (isHandleChar_of_reserved hname).2
  | custom hne hchars hfree =>
    rw [toList_render_custom]
    exact firm_handle hchars
  | forward => exact firm_render_sibling _
  | backward => exact firm_render_sibling _
  | @ancestor key make value hkey hne hvalue =>
    rw [toList_render_ancestor hkey]
    -- Trimming the value adds no slash to the piece.
    have hfree : '/' ∉ "$ancestor[@".toList ++ key.toList ++ '=' :: Text.trim value ++ [']'] :=
      fun hmem => hslash (((((Text.trim_sublist value).cons_cons '=').append_left _).append_right
        _).subset hmem)
    exact firm_ancestor hfree

/-- A predicate holds the value that it was made with. -/
theorem value_of_mem_properties {key : String} {make : String → Predicate}
    (hkey : (key, make) ∈ properties) (value : String) : (make value).value = value := by
  rcases mem_properties_iff.1 hkey with ⟨-, rfl⟩ | ⟨-, rfl⟩ | ⟨-, rfl⟩ <;> rfl

/-- A predicate was made with one key. -/
theorem properties_inj {key key' : String} {make make' : String → Predicate}
    (hkey : (key, make) ∈ properties) (hkey' : (key', make') ∈ properties) {value value' : String}
    (h : make value = make' value') : key = key' := by
  rcases mem_properties_iff.1 hkey with ⟨rfl, rfl⟩ | ⟨rfl, rfl⟩ | ⟨rfl, rfl⟩ <;>
    rcases mem_properties_iff.1 hkey' with ⟨rfl, rfl⟩ | ⟨rfl, rfl⟩ | ⟨rfl, rfl⟩ <;>
    cases h <;> rfl

/-- A piece that writes a predicate holds a value for it. -/
theorem Writes.exists_of_predicate {piece : List Char} {predicate : Predicate}
    (h : Writes piece (.ancestor (some predicate))) : ∃ key make value,
      (key, make) ∈ properties ∧ value ≠ [] ∧
      piece = "$ancestor[@".toList ++ key.toList ++ '=' :: value ++ [']'] ∧
      predicate = make (String.ofList (Text.trim value)) := by
  cases h with
  | handle hname => simp [mem_reserved_iff] at hname
  | @ancestor key make value hkey hne _ => exact ⟨key, make, value, hkey, hne, rfl, rfl⟩

/-- A fragment that a piece writes is written as a piece that writes it again, unless it asks for an
empty value. -/
theorem Writes.render_iff {piece : List Char} {f : Fragment} (h : Writes piece f) :
    Writes f.render.toList f ↔ ∀ predicate, f = .ancestor (some predicate) →
      predicate.value ≠ "" := by
  -- Only a predicate has a value, so for the others writing is all there is to show.
  have hvalueless : ∀ {f : Fragment}, (∀ predicate, f ≠ .ancestor (some predicate)) →
      Writes f.render.toList f → (Writes f.render.toList f ↔
        ∀ predicate, f = .ancestor (some predicate) → predicate.value ≠ "") :=
    fun hne hwrites => iff_of_true hwrites fun predicate hf => absurd hf (hne predicate)
  cases h with
  | child hne hchars =>
    refine hvalueless (by simp) ?_
    rw [Fragment.render, String.toList_ofList]
    exact .child hne hchars
  | handle hname =>
    refine hvalueless ?_ ?_
    · rintro predicate rfl
      simp [mem_reserved_iff] at hname
    · rw [toList_render_reserved hname]
      exact .handle hname
  | custom hne hchars hfree =>
    refine hvalueless (by simp) ?_
    rw [toList_render_custom]
    exact .custom hne hchars hfree
  | @forward digits hdistance =>
    have hle : (ofDigits digits : Int).natAbs ≤ maxOffset := hdistance.le
    exact hvalueless (by simp) (writes_render_sibling hle)
  | @backward digits hdistance =>
    have hle : (-(ofDigits digits : Int)).natAbs ≤ maxOffset := by
      rw [Int.natAbs_neg]
      exact hdistance.le
    exact hvalueless (by simp) (writes_render_sibling hle)
  | @ancestor key make value hkey hne hvalue =>
    rw [toList_render_ancestor hkey]
    constructor
    · -- An empty value would have to be written by a value that is not empty.
      rintro hwrites _ ⟨⟩ hempty
      rw [value_of_mem_properties hkey, String.ofList_eq_empty_iff] at hempty
      obtain ⟨key', make', value', hkey', hne', hpiece, hmake⟩ := hwrites.exists_of_predicate
      obtain rfl := properties_inj hkey hkey' hmake
      rw [hempty] at hpiece
      exact hne' (by simpa using hpiece)
    · intro hvalues
      -- A value without the blanks around it is read as itself.
      have htrimmed : Text.trim value ≠ [] := by
        intro hnil
        refine hvalues _ rfl ?_
        rw [value_of_mem_properties hkey, hnil]
      have hbracket : ']' ∉ Text.trim value := fun hmem =>
        hvalue ((Text.trim_sublist value).subset hmem)
      have hwrites := Writes.ancestor hkey htrimmed hbracket
      rwa [Text.trim_trim] at hwrites

/-! ## Selectors in writing -/

/-- No blank is at either end of firm pieces with slashes between them. -/
theorem trim_intercalate {pieces : List (List Char)} (h : ∀ piece ∈ pieces, Firm piece) :
    Text.trim (['/'].intercalate pieces) = ['/'].intercalate pieces := by
  -- Neither the first nor the last character is a blank.
  have hends : (∀ c ∈ (['/'].intercalate pieces).head?, Text.isBlank c = false) ∧
      ∀ c ∈ (['/'].intercalate pieces).getLast?, Text.isBlank c = false := by
    induction pieces with
    | nil => simp
    | cons piece pieces ih =>
      obtain ⟨hpiece, hpieces⟩ := List.forall_mem_cons.1 h
      cases pieces with
      | nil =>
        rw [List.intercalate_singleton]
        exact ⟨hpiece.head, hpiece.last⟩
      | cons next pieces =>
        rw [List.intercalate_cons_cons]
        constructor
        · intro c hc
          obtain ⟨first, rest, rfl⟩ := List.exists_cons_of_ne_nil hpiece.ne_nil
          exact hpiece.head c hc
        · -- The last character is that of the other pieces, or the slash.
          intro c hc
          rw [List.getLast?_append, List.getLast?_concat] at hc
          cases hlast : (['/'].intercalate (next :: pieces)).getLast? with
          | none =>
            rw [hlast] at hc
            cases hc
            decide
          | some d =>
            rw [hlast] at hc
            cases hc
            exact (ih hpieces).2 c hlast
  exact Text.trim_eq_self hends.1 hends.2

/-- The selector in writing is read if each fragment in writing is. -/
theorem parse_render_eq_ok_iff {fragments : List Fragment} (hne : fragments ≠ [])
    (h : ∀ f ∈ fragments, Firm f.render.toList) {found : List Fragment} :
    parse (render fragments) = .ok found ↔
      List.Forall₂ (fun f g => Writes f.render.toList g) fragments found := by
  have hfirm : ∀ piece ∈ fragments.map fun f => f.render.toList, Firm piece := by
    simpa using h
  have htext : (render fragments).toList =
      ['/'].intercalate (fragments.map fun f => f.render.toList) := by
    rw [render, String.toList_intercalate, List.map_map]
    rfl
  have hpieces : Name.pieces (Text.trim (render fragments).toList) =
      fragments.map fun f => f.render.toList := by
    rw [htext, trim_intercalate hfirm]
    exact List.splitOn_intercalate '/' (fun piece hpiece => (hfirm piece hpiece).slash)
      (by simpa using hne)
  rw [parse_eq_ok_iff, hpieces, List.forall₂_map_left_iff]

/-- A selector that was read is written as a text that is read as the same selector, exactly if no
predicate in it asks for an empty value. -/
theorem parse_render_iff {text : String} {fragments : List Fragment}
    (h : parse text = .ok fragments) :
    parse (render fragments) = .ok fragments ↔
      ∀ predicate, Fragment.ancestor (some predicate) ∈ fragments → predicate.value ≠ "" := by
  have hwrites := parse_eq_ok_iff.1 h
  -- Every fragment was read from a piece, and a piece has no slash; that is why a fragment is
  -- written without one.
  have hwritten : ∀ f ∈ fragments, ∃ piece, '/' ∉ piece ∧ Writes piece f :=
    exists_forall₂_iff.1 ⟨_, ((List.forall₂_and_left _ _).2
      ⟨fun _ => slash_notMem_of_mem_pieces, hwrites⟩).flip⟩
  have hne : fragments ≠ [] := by
    rintro rfl
    exact List.splitOn_ne_nil _ _ (List.forall₂_nil_right_iff.1 hwrites)
  have hfirm : ∀ f ∈ fragments, Firm f.render.toList := by
    intro f hf
    obtain ⟨piece, hslash, hpiece⟩ := hwritten f hf
    exact hpiece.firm_render hslash
  rw [parse_render_eq_ok_iff hne hfirm, List.forall₂_same]
  constructor
  · intro hrendered predicate hmem
    obtain ⟨piece, -, hpiece⟩ := hwritten _ hmem
    exact hpiece.render_iff.1 (hrendered _ hmem) predicate rfl
  · intro hvalues f hf
    obtain ⟨piece, -, hpiece⟩ := hwritten f hf
    refine hpiece.render_iff.2 ?_
    rintro predicate rfl
    exact hvalues predicate hf

/-- Spellings that are not kept: blanks, leading zeros and the sign of a zero. -/
theorem parse_render_respelled :
    parse " $sibling+007/$sibling-0/$ancestor[@name= a b ]/x " =
      .ok [.sibling 7, .sibling 0, .ancestor (some (.name "a b")), .child "x"] ∧
    render [.sibling 7, .sibling 0, .ancestor (some (.name "a b")), .child "x"] =
      "$sibling+7/$sibling/$ancestor[@name=a b]/x" ∧
    parse (render [.sibling 7, .sibling 0, .ancestor (some (.name "a b")), .child "x"]) =
      .ok [.sibling 7, .sibling 0, .ancestor (some (.name "a b")), .child "x"] := by
  have hread : parse " $sibling+007/$sibling-0/$ancestor[@name= a b ]/x " =
      .ok [.sibling 7, .sibling 0, .ancestor (some (.name "a b")), .child "x"] := by
    decide +kernel
  refine ⟨hread, by decide +kernel, (parse_render_iff hread).2 ?_⟩
  intro predicate hmem
  have hpredicate : predicate = .name "a b" := by simpa using hmem
  rw [hpredicate]
  decide

/-- A value of blanks is accepted and becomes empty, and is then not accepted. -/
theorem parse_render_emptied :
    parse "$ancestor[@name= ]" = .ok [.ancestor (some (.name ""))] ∧
    render [.ancestor (some (.name ""))] = "$ancestor[@name=]" ∧
    ∀ fragments, parse "$ancestor[@name=]" ≠ .ok fragments := by
  refine ⟨by decide +kernel, by decide +kernel, fun fragments hread => ?_⟩
  have hrefused : (parse "$ancestor[@name=]").toOption = none := by decide +kernel
  rw [hread] at hrefused
  cases hrefused

end Selector

end LayoutMarkup
