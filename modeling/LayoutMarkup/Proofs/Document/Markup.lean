import LayoutMarkup.Document.Basic
import LayoutMarkup.Token.Scanner
import Mathlib.Data.List.Infix

/-!
# Canonical markup

Markup as a tree, and the one way in which it is written here: an attribute behind one blank and
with its value in double quotes, no blanks elsewhere. `WellFormed` says which trees can be written
so that every part is recognised, and `Shows` says that the elements of a document are those of some
markup, numbered in the order in which they begin. Texts and comments leave no trace in a document.
-/

namespace LayoutMarkup

/-- A piece of markup. -/
inductive Markup where
  /-- An element with its attributes, each with its value, and what stands in it. One without
  anything in it may be closed by `/>`. -/
  | element (tag : String) (attributes : List (String × String)) (selfClosed : Bool)
      (children : List Markup)
  /-- Text between tags. -/
  | text (value : String)
  /-- A comment. -/
  | comment (body : String)

namespace Markup

/-! ## Writing -/

/-- An attribute in writing, with the blank in front of it. -/
def attributeChars (a : String × String) : List Char :=
  ' ' :: (a.1.toList ++ '=' :: '"' :: (a.2.toList ++ ['"']))

mutual

/-- Markup in writing. -/
def chars : Markup → List Char
  | element tag attributes selfClosed children =>
    '<' :: (tag.toList ++ (attributes.flatMap attributeChars ++
      if selfClosed then ['/', '>']
      else '>' :: (charsAll children ++ '<' :: '/' :: (tag.toList ++ ['>']))))
  | text value => value.toList
  | comment body => '<' :: '!' :: '-' :: '-' :: (body.toList ++ ['-', '-', '>'])

/-- Pieces of markup in writing, one behind the other. -/
def charsAll : List Markup → List Char
  | [] => []
  | m :: ms => m.chars ++ charsAll ms

end

/-- Markup as a text. -/
def render (m : Markup) : String :=
  String.ofList m.chars

/-- Whether a name can be a tag. -/
def isTag (name : String) : Bool :=
  name.toList.head?.any isTagNameStart && name.toList.tail.all isTagNameChar

/-- Whether a name can be that of an attribute. -/
def isAttributeName (name : String) : Bool :=
  !name.toList.isEmpty && name.toList.all isAttributeNameChar

/-- Markup that can be written. -/
inductive WellFormed : Markup → Prop where
  /-- Tag and attributes have proper names, no two attributes have the same name up to the case of
  letters, no value has a double quote in it, and only an element without content is closed by
  `/>`. -/
  | element {tag : String} {attributes : List (String × String)} {selfClosed : Bool}
      {children : List Markup} (htag : isTag tag = true)
      (hnames : ∀ a ∈ attributes, isAttributeName a.1 = true)
      (hdistinct : (attributes.map fun a => Text.lower a.1).Nodup)
      (hvalues : ∀ a ∈ attributes, '"' ∉ a.2.toList) (hself : selfClosed = true → children = [])
      (hchildren : ∀ m ∈ children, WellFormed m) :
      WellFormed (.element tag attributes selfClosed children)
  /-- A text has characters, and no tag begins in it. -/
  | text {value : String} (hne : value ≠ "") (hopen : '<' ∉ value.toList) : WellFormed (.text value)
  /-- A comment does not end before its end. -/
  | comment {body : String} (hclose : ¬ ['-', '-', '>'] <:+: body.toList) :
      WellFormed (.comment body)

/-! ## Elements -/

mutual

/-- The number of elements in markup. -/
def size : Markup → Nat
  | element _ _ _ children => sizeAll children + 1
  | text _ | comment _ => 0

/-- The number of elements in pieces of markup. -/
def sizeAll : List Markup → Nat
  | [] => 0
  | m :: ms => m.size + sizeAll ms

end

/-- The numbers of the outermost elements of markup if its elements are numbered from `id` on in the
order in which they begin. -/
def idsFrom : (id : Nat) → List Markup → List ElementId
  | _, [] => []
  | id, .element _ _ _ children :: ms => id :: idsFrom (id + (sizeAll children + 1)) ms
  | id, .text _ :: ms | id, .comment _ :: ms => idsFrom id ms

/-- From the number `id` on, elements are those of markup in the order in which they begin: each
with the tag, the attributes and the values that are written there, in that order, closed as it is
written there, and around the elements that stand in it there. -/
inductive Shows (get : ElementId → Option Element) : (id : Nat) → List Markup → Prop where
  /-- There is no markup. -/
  | nil (id : Nat) : Shows get id []
  /-- An element comes first. -/
  | element {id : Nat} {tag : String} {attributes : List (String × String)}
      {selfClosed : Bool} {children ms : List Markup} {e : Element} (he : get id = some e)
      (htag : e.tag = some tag)
      (hattributes : e.attributes.values.map (fun a => (a.name, a.value)) =
        attributes.map fun a => (a.1, some a.2))
      (hclosed : e.closed = true) (hself : e.selfClosed = selfClosed)
      (hids : e.children = idsFrom (id + 1) children) (hchildren : Shows get (id + 1) children)
      (hrest : Shows get (id + (sizeAll children + 1)) ms) :
      Shows get id (.element tag attributes selfClosed children :: ms)
  /-- A text comes first. -/
  | text {id : Nat} {value : String} {ms : List Markup} (hrest : Shows get id ms) :
      Shows get id (.text value :: ms)
  /-- A comment comes first. -/
  | comment {id : Nat} {body : String} {ms : List Markup} (hrest : Shows get id ms) :
      Shows get id (.comment body :: ms)

/-- The elements of some pieces come before those of the next ones. -/
theorem sizeAll_append (ms ms' : List Markup) : sizeAll (ms ++ ms') = sizeAll ms + sizeAll ms' := by
  induction ms with
  | nil => simp [sizeAll]
  | cons m ms ih => rw [List.cons_append, sizeAll, sizeAll, ih, Nat.add_assoc]

/-- The numbers go on behind the elements of the first pieces. -/
theorem idsFrom_append (id : Nat) (ms ms' : List Markup) :
    idsFrom id (ms ++ ms') = idsFrom id ms ++ idsFrom (id + sizeAll ms) ms' := by
  induction ms generalizing id with
  | nil => rfl
  | cons m ms ih =>
    cases m with
    | element tag attributes selfClosed children =>
      rw [List.cons_append, idsFrom, idsFrom, ih, sizeAll, size, List.cons_append, Nat.add_assoc]
    | text value =>
      rw [List.cons_append, idsFrom, idsFrom, ih, sizeAll, size, Nat.zero_add]
    | comment body =>
      rw [List.cons_append, idsFrom, idsFrom, ih, sizeAll, size, Nat.zero_add]

namespace Shows

variable {get get' : ElementId → Option Element} {id : Nat} {ms ms' : List Markup}

/-- Only the elements that are numbered matter. -/
theorem congr (h : Shows get id ms) (hsame : ∀ i, id ≤ i → i < id + sizeAll ms → get' i = get i) :
    Shows get' id ms := by
  induction h with
  | nil id => exact .nil id
  | @element id tag attributes selfClosed children ms e he htag hattributes hclosed hself hids _ _
      ihc ihr =>
    rw [sizeAll, size] at hsame
    refine .element ((hsame id (Nat.le_refl id) (by omega)).trans he) htag hattributes hclosed hself
      hids (ihc fun i hi hlt => hsame i (by omega) (by omega))
      (ihr fun i hi hlt => hsame i (by omega) (by omega))
  | text _ ih =>
    rw [sizeAll, size, Nat.zero_add] at hsame
    exact .text (ih hsame)
  | comment _ ih =>
    rw [sizeAll, size, Nat.zero_add] at hsame
    exact .comment (ih hsame)

/-- Pieces may stand behind each other. -/
theorem append (h : Shows get id ms) (h' : Shows get (id + sizeAll ms) ms') :
    Shows get id (ms ++ ms') := by
  induction h with
  | nil id => exact h'
  | element he htag hattributes hclosed hself hids hchildren _ _ ihr =>
    rw [sizeAll, size, ← Nat.add_assoc] at h'
    exact .element he htag hattributes hclosed hself hids hchildren (ihr h')
  | text _ ih =>
    rw [sizeAll, size, Nat.zero_add] at h'
    exact .text (ih h')
  | comment _ ih =>
    rw [sizeAll, size, Nat.zero_add] at h'
    exact .comment (ih h')

end Shows

end Markup

end LayoutMarkup
