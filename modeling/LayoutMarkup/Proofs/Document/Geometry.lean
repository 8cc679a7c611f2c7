import LayoutMarkup.Document.Parse
import LayoutMarkup.Proofs.Document.Drafting
import Mathlib.Data.List.Count
import Mathlib.Data.List.Sort

/-!
# Geometry

What holds of the places of the elements in every document that was read (`Document.Placed`): they
make a tree, each lies behind the start tag of its parent and in front of its next sibling, and its
tags lie in it. From the places alone it follows that elements are numbered in preorder
(`Placed.preorder_root`): the elements below one begin in front of its end, its next sibling begins
behind it, and numbers are in the order of the beginnings.
-/

namespace LayoutMarkup.Document

/-- The elements from one on downwards, each in front of what stands in it. -/
def preorder (doc : Document) (id : ElementId) : List ElementId :=
  id :: (doc.childrenOf id).flatMap fun child =>
    if id < child ∧ child < doc.size then doc.preorder child else []
termination_by doc.size - id
decreasing_by lia

/-- The places of the elements of a document. -/
structure Placed (doc : Document) : Prop where
  /-- The root covers the whole text. -/
  root : ∃ r, doc.get? .root = some r ∧ r.parent = none ∧ r.start = 0 ∧ r.startTagEnd = some 0 ∧
    r.stop = Text.byteLength doc.text.toList
  /-- Every other element is listed once by its parent, which has a smaller number. -/
  parent : ∀ {id e}, doc.get? id = some e → id ≠ .root →
    ∃ p f, e.parent = some p ∧ p < id ∧ doc.get? p = some f ∧ f.children.count id = 1
  /-- No element is listed by another one. -/
  child : ∀ {p f c}, doc.get? p = some f → c ∈ f.children →
    ∃ e, doc.get? c = some e ∧ e.parent = some p
  /-- Elements begin in the order of their numbers. -/
  starts : ∀ {i j e f}, doc.get? i = some e → doc.get? j = some f → i ≠ .root → i < j →
    e.start < f.start
  /-- The start tag is not empty and lies in the element, and the element lies in the text. -/
  startTag : ∀ {id e}, doc.get? id = some e → id ≠ .root →
    ∃ t, e.startTagEnd = some t ∧ e.start < t ∧ t ≤ e.stop ∧
      e.stop ≤ Text.byteLength doc.text.toList
  /-- An end tag comes after the start tag and begins in the element. -/
  endTag : ∀ {id e x}, doc.get? id = some e → e.endTagStart = some x →
    ∃ t, e.startTagEnd = some t ∧ t ≤ x ∧ x ≤ e.stop
  /-- A child stands behind the start tag of its parent and in the parent. -/
  inside : ∀ {p f c e}, doc.get? p = some f → c ∈ f.children → doc.get? c = some e →
    ∃ t, f.startTagEnd = some t ∧ t ≤ e.start ∧ e.stop ≤ f.stop
  /-- A child ends in front of every later one. -/
  siblings : ∀ {p f}, doc.get? p = some f → f.children.Pairwise fun a b =>
    ∀ {e e'}, doc.get? a = some e → doc.get? b = some e' → e.stop ≤ e'.start
  /-- An element that is closed by `/>` consists of its start tag. -/
  bare : ∀ {id e}, doc.get? id = some e → e.selfClosed = true →
    e.startTagEnd = some e.stop ∧ e.endTagStart = none ∧ e.children = []
  /-- All offsets are boundaries. -/
  boundary : ∀ {id e}, doc.get? id = some e → e.shape.All (Text.IsBoundary doc.text.toList)

/-! ## The numbers -/

namespace Placed

variable {doc : Document} {id : ElementId} {e : Element}

/-- The children of an element that is there. -/
theorem childrenOf_eq (he : doc.get? id = some e) : doc.childrenOf id = e.children := by
  unfold childrenOf
  rw [he]
  rfl

/-- What is there has a small number. -/
theorem lt_size (he : doc.get? id = some e) : id < doc.size :=
  (Array.getElem?_eq_some_iff.1 he).1

/-- A child comes after its parent and is there. -/
theorem lt_child (h : doc.Placed) {c : ElementId} (he : doc.get? id = some e)
    (hc : c ∈ e.children) : id < c ∧ ∃ f, doc.get? c = some f := by
  obtain ⟨f, hf, hparent⟩ := h.child he hc
  have hroot : c ≠ .root := by
    rintro rfl
    obtain ⟨r, hr, hnone, -⟩ := h.root
    rw [hf] at hr
    cases hr
    exact Option.some_ne_none id (hparent.symm.trans hnone)
  obtain ⟨p, -, hp, hlt, -⟩ := h.parent hf hroot
  rw [hparent] at hp
  cases hp
  exact ⟨hlt, f, hf⟩

/-- An element comes first, and then, child by child, what stands in it. -/
theorem preorder_eq (h : doc.Placed) (he : doc.get? id = some e) :
    doc.preorder id = id :: e.children.flatMap doc.preorder := by
  rw [preorder, childrenOf_eq he]
  congr 1
  refine List.flatMap_congr fun c hc => ?_
  obtain ⟨hlt, f, hf⟩ := h.lt_child he hc
  rw [if_pos ⟨hlt, lt_size hf⟩]

/-- What holds of an element when it holds of its children, holds of all. -/
theorem induction_down (h : doc.Placed) {Q : ElementId → Prop}
    (step : ∀ {id e}, doc.get? id = some e → (∀ c ∈ e.children, Q c) → Q id)
    (he : doc.get? id = some e) : Q id := by
  -- The numbers of the children are larger, and all numbers are below the size.
  induction hn : doc.size - id using Nat.strong_induction_on generalizing id e with
  | _ n ih =>
    refine step he fun c hc => ?_
    obtain ⟨hlt, f, hf⟩ := h.lt_child he hc
    have hsize := lt_size hf
    refine ih (doc.size - c) ?_ hf rfl
    rw [← hn]
    exact Nat.sub_lt_sub_left (Nat.lt_trans hlt hsize) hlt

/-- What stands in an element has a number that is not smaller, and ends in the element. -/
theorem preorder_bounds (h : doc.Placed) (he : doc.get? id = some e) :
    ∀ x ∈ doc.preorder id, id ≤ x ∧ ∃ f, doc.get? x = some f ∧ f.stop ≤ e.stop := by
  refine h.induction_down (Q := fun id => ∀ e, doc.get? id = some e → ∀ x ∈ doc.preorder id,
    id ≤ x ∧ ∃ f, doc.get? x = some f ∧ f.stop ≤ e.stop) ?_ he e he
  intro id e he ih e' he' x hx
  rw [he] at he'
  cases he'
  rw [h.preorder_eq he, List.mem_cons, List.mem_flatMap] at hx
  rcases hx with rfl | ⟨c, hc, hx⟩
  · exact ⟨Nat.le_refl x, e, he, Nat.le_refl e.stop⟩
  · obtain ⟨hlt, g, hg⟩ := h.lt_child he hc
    obtain ⟨hle, f, hf, hstop⟩ := ih c hc g hg x hx
    obtain ⟨t, -, -, hin⟩ := h.inside he hc hg
    exact ⟨Nat.le_trans (Nat.le_of_lt hlt) hle, f, hf, Nat.le_trans hstop hin⟩

/-- What stands in an element has a smaller number than what begins behind it. -/
theorem lt_of_stop_le (h : doc.Placed) {b x : ElementId} {f : Element} (he : doc.get? id = some e)
    (hx : x ∈ doc.preorder id) (hid : id ≠ .root) (hf : doc.get? b = some f) (hb : b ≠ .root)
    (hle : e.stop ≤ f.start) : x < b := by
  obtain ⟨hidx, g, hg, hstop⟩ := h.preorder_bounds he x hx
  have hxroot : x ≠ .root := by
    rintro rfl
    exact hid (Nat.le_zero.1 hidx)
  obtain ⟨t, -, hlt, hte, -⟩ := h.startTag hg hxroot
  have hstart : g.start < f.start := by omega
  by_contra hnot
  -- Otherwise it would not begin in front of the other one.
  rcases Nat.lt_or_eq_of_le (Nat.le_of_not_lt hnot) with hbx | rfl
  · exact Nat.lt_asymm hstart (h.starts hf hg hb hbx)
  · rw [hf] at hg
    cases hg
    exact Nat.lt_irrefl _ hstart

/-- Numbers grow in preorder. -/
theorem pairwise_preorder (h : doc.Placed) (he : doc.get? id = some e) :
    (doc.preorder id).Pairwise (· < ·) := by
  refine h.induction_down (Q := fun id => (doc.preorder id).Pairwise (· < ·)) ?_ he
  intro id e he ih
  have hroot : ∀ {c}, c ∈ e.children → c ≠ .root := by
    rintro c hc rfl
    exact Nat.not_lt_zero id (h.lt_child he hc).1
  rw [h.preorder_eq he, List.pairwise_cons, List.pairwise_flatMap]
  refine ⟨fun x hx => ?_, ih, (h.siblings he).imp_of_mem fun {a b} ha hb hle x hx y hy => ?_⟩
  · obtain ⟨c, hc, hx⟩ := List.mem_flatMap.1 hx
    obtain ⟨hlt, g, hg⟩ := h.lt_child he hc
    exact Nat.lt_of_lt_of_le hlt (h.preorder_bounds hg x hx).1
  · obtain ⟨-, f, hf⟩ := h.lt_child he ha
    obtain ⟨-, g, hg⟩ := h.lt_child he hb
    have hxb : x < b := h.lt_of_stop_le hf hx (hroot ha) hg (hroot hb) (hle hf hg)
    exact Nat.lt_of_lt_of_le hxb (h.preorder_bounds hg y hy).1

/-- A child of what stands in an element stands in the element. -/
theorem mem_preorder_child (h : doc.Placed) {p c : ElementId} {f : Element}
    (he : doc.get? id = some e) (hp : p ∈ doc.preorder id) (hf : doc.get? p = some f)
    (hc : c ∈ f.children) : c ∈ doc.preorder id := by
  refine h.induction_down (Q := fun id => p ∈ doc.preorder id → c ∈ doc.preorder id) ?_ he hp
  intro id e he ih hp
  rw [h.preorder_eq he, List.mem_cons, List.mem_flatMap] at hp ⊢
  rcases hp with rfl | ⟨a, ha, hp⟩
  · rw [he] at hf
    cases hf
    obtain ⟨-, g, hg⟩ := h.lt_child he hc
    exact Or.inr ⟨c, hc, by rw [h.preorder_eq hg]; exact List.mem_cons_self⟩
  · exact Or.inr ⟨a, ha, ih a ha hp⟩

/-- All elements are below the root. -/
theorem mem_preorder_root (h : doc.Placed) (hid : id < doc.size) :
    id ∈ doc.preorder .root := by
  obtain ⟨r, hr, -⟩ := h.root
  induction id using Nat.strong_induction_on with
  | _ id ih =>
    by_cases hroot : id = ElementId.root
    · rw [hroot, h.preorder_eq hr]
      exact List.mem_cons_self
    · obtain ⟨e, he⟩ : ∃ e, doc.get? id = some e := ⟨_, Array.getElem?_eq_getElem hid⟩
      obtain ⟨p, f, -, hlt, hf, hcount⟩ := h.parent he hroot
      have hmem : id ∈ f.children := List.count_pos_iff.1 (by rw [hcount]; exact Nat.zero_lt_one)
      exact h.mem_preorder_child hr (ih p hlt (lt_size hf)) hf hmem

/-- Elements are numbered in preorder. -/
theorem preorder_root (h : doc.Placed) : doc.preorder .root = List.range doc.size := by
  obtain ⟨r, hr, -⟩ := h.root
  refine (h.pairwise_preorder hr).eq_of_mem_iff List.pairwise_lt_range fun x => ?_
  rw [List.mem_range]
  refine ⟨fun hx => ?_, h.mem_preorder_root⟩
  obtain ⟨-, f, hf, -⟩ := h.preorder_bounds hr x hx
  exact lt_size hf

end Placed

/-! ## Documents that were read -/

/-- The elements of a document that are laid out up to the end of the text are placed, once all
start tags are closed. -/
theorem placed_of_laid {doc : Document} {stack : List ElementId}
    (h : Laid (Text.IsBoundary doc.text.toList) (Text.byteLength doc.text.toList)
      (fun id => (doc.get? id).map Element.shape) doc.size stack
      (Text.byteLength doc.text.toList))
    (hclosed : ∀ {id e}, doc.get? id = some e → e.startTagEnd ≠ none) : doc.Placed := by
  have hshape : ∀ {id e}, doc.get? id = some e →
      (doc.get? id).map Element.shape = some e.shape := fun he => by rw [he, Option.map_some]
  have helement : ∀ {id s}, (doc.get? id).map Element.shape = some s →
      ∃ e, doc.get? id = some e ∧ e.shape = s := Option.map_eq_some_iff.1
  refine ⟨?_, fun he hroot => ?_, fun hf hc => ?_, fun he hf => ?_, fun he hroot => ?_,
    fun he hend => ?_, fun hf hc he => ?_, fun hf => ?_, fun he hself => ?_, fun he => ?_⟩
  · obtain ⟨s, hs, hstart, htag, -⟩ := h.root
    obtain ⟨s', hs', hparent⟩ := h.family.root
    rw [hs] at hs'
    cases hs'
    obtain ⟨r, hr, rfl⟩ := helement hs
    exact ⟨r, hr, hparent, hstart, htag, (h.opened hs h.stacked.root_mem).1⟩
  · obtain ⟨p, s, hparent, hlt, hs, hmem⟩ := h.family.parent (hshape he) hroot
    obtain ⟨f, hf, rfl⟩ := helement hs
    have hnodup : f.children.Nodup := (h.family.increasing hs).imp Nat.ne_of_lt
    exact ⟨p, f, hparent, hlt, hf, List.count_eq_one_of_mem hnodup hmem⟩
  · obtain ⟨s, hs, hparent⟩ := h.family.child (hshape hf) hc
    obtain ⟨e, he, rfl⟩ := helement hs
    exact ⟨e, he, hparent⟩
  · exact h.starts (hshape he) (hshape hf)
  · obtain ⟨t, ht⟩ := Option.ne_none_iff_exists'.1 (hclosed he)
    obtain ⟨hbelow, hlen⟩ := h.below_stop (hshape he) hroot
    obtain ⟨hlt, hle⟩ := hbelow.startTag ht
    exact ⟨t, ht, hlt, hle, hlen⟩
  · -- The root has no end tag.
    have hroot : ∀ {id e}, doc.get? id = some e → e.endTagStart ≠ none → id ≠ .root := by
      rintro id e he hne rfl
      obtain ⟨r, hr, -, -, hnone⟩ := h.root
      rw [hshape he] at hr
      cases hr
      exact hne hnone
    have hsome := hroot he (by rw [hend]; exact Option.some_ne_none _)
    exact (h.below_stop (hshape he) hsome).1.endTag hend
  · obtain ⟨s, hs, hparent⟩ := h.family.child (hshape hf) hc
    rw [hshape he] at hs
    cases hs
    exact h.inside (hshape hf) (hshape he) hparent
  · -- Children in the order of their numbers stand in that order.
    refine (h.family.increasing (hshape hf)).imp_of_mem fun {a b} ha hb hlt e e' he he' => ?_
    obtain ⟨s, hs, hparent⟩ := h.family.child (hshape hf) ha
    obtain ⟨s', hs', hparent'⟩ := h.family.child (hshape hf) hb
    rw [hshape he] at hs
    rw [hshape he'] at hs'
    cases hs
    cases hs'
    exact h.siblings (hshape he) (hshape he') hparent hparent' hlt
  · exact h.bare (hshape he) hself
  · exact h.all (hshape he)

/-- The elements of a document that was read are placed. -/
theorem isPlaced_parse (name text : String) (schema : Schema) (rootType : Option TypeId) :
    (parse name text schema rootType).Placed := by
  obtain ⟨stack, hlaid, hopen⟩ := Draft.laid_ofText schema rootType text
  exact placed_of_laid hlaid fun he hnone => hopen ⟨_, Draft.shapes_eq he, hnone⟩

/-- For every text, schema and root type the elements of the document are placed, and they are
numbered in preorder. -/
theorem placed_parse (name text : String) (schema : Schema) (rootType : Option TypeId) :
    (parse name text schema rootType).Placed ∧
      (parse name text schema rootType).preorder .root =
        List.range (parse name text schema rootType).size := by
  have hplaced := isPlaced_parse name text schema rootType
  exact ⟨hplaced, hplaced.preorder_root⟩

end LayoutMarkup.Document
