import LayoutMarkup.Proofs.Document.Geometry
import Mathlib.Logic.Relation

/-!
# Locating

Which element an offset belongs to is found by going down from the root, each time to the first
child that covers the offset, and without ever turning back. In a placed document that is enough: an
element that covers an offset is covered by all elements it stands in (`Placed.covers_of_standsIn`),
and no two children of one element cover the same offset (`Placed.childAt?_eq`). So everything that
covers the offset lies on the one way down, and the way ends at the deepest of them
(`Placed.descend_standsIn`).

The numbers grow on the way down and stay below the size of the document, so it has an end.
-/

namespace LayoutMarkup.Document

/-- One element stands in another one, or is that one: the parents of the first lead up to the
second. -/
def StandsIn (doc : Document) : ElementId → ElementId → Prop :=
  Relation.ReflTransGen fun c p => doc.parent? c = some p

namespace Placed

variable {doc : Document} {id c j : ElementId} {e f : Element} {offset : Nat}

/-- The parent of an element that is there. -/
theorem parent?_eq (he : doc.get? id = some e) : doc.parent? id = e.parent := by
  unfold parent?
  rw [he, Option.bind_some]

/-- A parent is there, has a smaller number, and lists its child. -/
theorem of_parent? (h : doc.Placed) (hp : doc.parent? c = some id) :
    id < c ∧ ∃ e f, doc.get? id = some e ∧ doc.get? c = some f ∧ c ∈ e.children := by
  obtain ⟨f, hf, hparent⟩ := Option.bind_eq_some_iff.1 hp
  have hroot : c ≠ .root := by
    rintro rfl
    obtain ⟨r, hr, hnone, -⟩ := h.root
    rw [hf] at hr
    cases hr
    exact Option.some_ne_none id (hparent.symm.trans hnone)
  obtain ⟨p, e, hp', hlt, he, hcount⟩ := h.parent hf hroot
  obtain rfl : id = p := Option.some_inj.1 (hparent.symm.trans hp')
  have hmem : c ∈ e.children := List.count_pos_iff.1 (by rw [hcount]; exact Nat.zero_lt_one)
  exact ⟨hlt, e, f, he, hf, hmem⟩

/-- All elements stand in the root. -/
theorem standsIn_root (h : doc.Placed) (he : doc.get? id = some e) : doc.StandsIn id .root := by
  induction id using Nat.strong_induction_on generalizing e with
  | _ id ih =>
    by_cases hroot : id = ElementId.root
    · rw [hroot]
      exact Relation.ReflTransGen.refl
    · obtain ⟨p, f, hparent, hlt, hf, -⟩ := h.parent he hroot
      exact Relation.ReflTransGen.head ((parent?_eq he).trans hparent) (ih p hlt hf)

/-- The root stands in nothing else. -/
theorem eq_root_of_standsIn (h : doc.Placed) (hin : doc.StandsIn .root id) : id = .root := by
  rcases Relation.ReflTransGen.cases_head hin with heq | ⟨p, hp, -⟩
  · exact heq.symm
  · exact absurd (h.of_parent? hp).1 (Nat.not_lt_zero p)

/-! ## Covering -/

/-- An element covers an offset that lies between its beginning and its end. -/
theorem covers_iff : e.covers offset = true ↔ e.start ≤ offset ∧ offset < e.stop := by
  unfold Element.covers
  rw [Bool.and_eq_true, decide_eq_true_eq, decide_eq_true_eq]

/-- A child does not stick out of its parent. -/
theorem covers_of_child (h : doc.Placed) (he : doc.get? id = some e) (hc : c ∈ e.children)
    (hf : doc.get? c = some f) (hcovers : f.covers offset = true) (hid : id ≠ .root) :
    e.covers offset = true := by
  obtain ⟨t, ht, hle, hstop⟩ := h.inside he hc hf
  obtain ⟨t', ht', hlt, -⟩ := h.startTag he hid
  obtain rfl : t = t' := Option.some_inj.1 (ht.symm.trans ht')
  rw [covers_iff] at hcovers ⊢
  omega

/-- What covers an offset is covered by all elements other than the root that it stands in. -/
theorem covers_of_standsIn (h : doc.Placed) (hin : doc.StandsIn j id) (hid : id ≠ .root)
    (hf : doc.get? j = some f) (hcovers : f.covers offset = true) :
    ∃ e, doc.get? id = some e ∧ e.covers offset = true := by
  induction hin with
  | refl => exact ⟨f, hf, hcovers⟩
  | @tail b c _ hp ih =>
    obtain ⟨hlt, e, g, he, hg, hmem⟩ := h.of_parent? hp
    have hb : b ≠ .root := by
      rintro rfl
      exact Nat.not_lt_zero c hlt
    obtain ⟨g', hg', hcovers'⟩ := ih hb
    obtain rfl : g = g' := Option.some_inj.1 (hg.symm.trans hg')
    exact ⟨e, he, h.covers_of_child he hmem hg hcovers' hid⟩

/-- No two children of an element cover the same offset. -/
theorem eq_of_covers (h : doc.Placed) (he : doc.get? id = some e) {a b : ElementId} {f g : Element}
    (ha : a ∈ e.children) (hb : b ∈ e.children) (hf : doc.get? a = some f)
    (hg : doc.get? b = some g) (hfa : f.covers offset = true) (hgb : g.covers offset = true) :
    a = b := by
  rw [covers_iff] at hfa hgb
  obtain ⟨i, hi, rfl⟩ := List.mem_iff_getElem.1 ha
  obtain ⟨k, hk, rfl⟩ := List.mem_iff_getElem.1 hb
  -- Of two different children the earlier one would end in front of the other.
  have hapart := List.pairwise_iff_getElem.1 (h.siblings he)
  rcases Nat.lt_trichotomy i k with hlt | rfl | hlt
  · have hle := hapart i k hi hk hlt hf hg
    omega
  · rfl
  · have hle := hapart k i hk hi hlt hg hf
    omega

/-! ## The way down -/

/-- The child that is found is one that covers the offset, and it has a larger number. -/
theorem of_childAt? (h : doc.Placed) (hc : doc.childAt? offset id = some c) :
    id < c ∧ c < doc.size ∧ doc.parent? c = some id ∧
      ∃ f, doc.get? c = some f ∧ f.covers offset = true := by
  obtain ⟨hcovers, hmem⟩ := And.intro (List.find?_some hc) (List.mem_of_find?_eq_some hc)
  obtain ⟨f, hf, hcovers⟩ := (Option.any_eq_true _ _).1 hcovers
  -- Only an element that is there has children.
  obtain ⟨e, he⟩ : ∃ e, doc.get? id = some e := by
    refine Option.ne_none_iff_exists'.1 fun hnone => ?_
    unfold childrenOf at hmem
    rw [hnone] at hmem
    exact List.not_mem_nil hmem
  rw [childrenOf_eq he] at hmem
  obtain ⟨f', hf', hparent⟩ := h.child he hmem
  exact ⟨(h.lt_child he hmem).1, lt_size hf, (parent?_eq hf').trans hparent, f, hf, hcovers⟩

/-- The child that is found is the one that covers the offset. -/
theorem childAt?_eq (h : doc.Placed) (he : doc.get? id = some e) (hc : c ∈ e.children)
    (hf : doc.get? c = some f) (hcovers : f.covers offset = true) :
    doc.childAt? offset id = some c := by
  obtain ⟨a, ha⟩ : ∃ a, doc.childAt? offset id = some a := by
    refine Option.isSome_iff_exists.1 (List.find?_isSome.2 ⟨c, ?_, ?_⟩)
    · rw [childrenOf_eq he]
      exact hc
    · rw [hf]
      exact hcovers
  obtain ⟨-, -, hparent, g, hg, hcovers'⟩ := h.of_childAt? ha
  obtain ⟨-, e', g', he', hg', hmem⟩ := h.of_parent? hparent
  obtain rfl : e = e' := Option.some_inj.1 (he.symm.trans he')
  rw [ha, h.eq_of_covers he hmem hc hg hf hcovers' hcovers]

/-- The way down goes on as long as there is a child that covers the offset. -/
theorem descend_eq (h : doc.Placed) (offset : Nat) (id : ElementId) :
    doc.descend offset id = match doc.childAt? offset id with
      | some child => doc.descend offset child
      | none => id := by
  rw [descend]
  cases hchild : doc.childAt? offset id with
  | none => rfl
  | some child =>
    obtain ⟨hlt, hsize, -⟩ := h.of_childAt? hchild
    exact if_pos ⟨hlt, hsize⟩

/-- The way down ends where it began, or at an element that covers the offset. -/
theorem descend_cases (h : doc.Placed) (offset : Nat) (id : ElementId) :
    doc.descend offset id = id ∨ id < doc.descend offset id ∧
      ∃ e, doc.get? (doc.descend offset id) = some e ∧ e.covers offset = true := by
  fun_induction doc.descend offset id with
  | case1 id child hchild hbound ih =>
    obtain ⟨hlt, -, -, hcovers⟩ := h.of_childAt? hchild
    rcases ih with heq | ⟨hlt', hcovers'⟩
    · rw [heq]
      exact Or.inr ⟨hlt, hcovers⟩
    · exact Or.inr ⟨Nat.lt_trans hlt hlt', hcovers'⟩
  | case2 => exact Or.inl rfl
  | case3 => exact Or.inl rfl

/-- The way down stays in the element where it began. -/
theorem descend_standsIn_self (h : doc.Placed) (offset : Nat) (id : ElementId) :
    doc.StandsIn (doc.descend offset id) id := by
  fun_induction doc.descend offset id with
  | case1 id child hchild hbound ih =>
    obtain ⟨-, -, hparent, -⟩ := h.of_childAt? hchild
    exact ih.tail hparent
  | case2 => exact Relation.ReflTransGen.refl
  | case3 => exact Relation.ReflTransGen.refl

/-- The end of the way down stands in everything that covers the offset and stands where the way
began. -/
theorem descend_standsIn (h : doc.Placed) (he : doc.get? id = some e) (hin : doc.StandsIn j id)
    (hf : doc.get? j = some f) (hcovers : f.covers offset = true) :
    doc.StandsIn (doc.descend offset id) j := by
  refine h.induction_down (Q := fun id => doc.StandsIn j id →
    doc.StandsIn (doc.descend offset id) j) ?_ he hin
  intro id e he ih hin
  rcases Relation.ReflTransGen.cases_tail hin with rfl | ⟨c, hc, hparent⟩
  · exact h.descend_standsIn_self offset id
  · -- It stands in a child, which covers the offset too and so is the one the way goes to.
    obtain ⟨hlt, e', g, he', hg, hmem⟩ := h.of_parent? hparent
    obtain rfl : e = e' := Option.some_inj.1 (he.symm.trans he')
    have hroot : c ≠ .root := by
      rintro rfl
      exact Nat.not_lt_zero id hlt
    obtain ⟨g', hg', hcovers'⟩ := h.covers_of_standsIn hc hroot hf hcovers
    obtain rfl : g = g' := Option.some_inj.1 (hg.symm.trans hg')
    rw [h.descend_eq, h.childAt?_eq he hmem hg hcovers']
    exact ih c hmem hc

/-- The end of the way down from the root stands in everything that covers the offset. -/
theorem descend_root_standsIn (h : doc.Placed) (hf : doc.get? j = some f)
    (hcovers : f.start ≤ offset ∧ offset < f.stop) : doc.StandsIn (doc.descend offset .root) j := by
  obtain ⟨r, hr, -⟩ := h.root
  exact h.descend_standsIn hr (h.standsIn_root hf) hf (covers_iff.2 hcovers)

/-- Below the root the way down ends at an element that covers the offset. -/
theorem exists_covers_of_descend (h : doc.Placed) (hne : doc.descend offset .root ≠ .root) :
    ∃ e, doc.get? (doc.descend offset .root) = some e ∧ e.start ≤ offset ∧ offset < e.stop := by
  rcases h.descend_cases offset .root with heq | ⟨-, e, he, hcovers⟩
  · exact absurd heq hne
  · exact ⟨e, he, covers_iff.1 hcovers⟩

end Placed

/-- Nothing is found if the way down ends at the root. -/
theorem elementAt?_eq_none_iff {doc : Document} {offset : Nat} :
    doc.elementAt? offset = none ↔ doc.descend offset .root = .root := by
  unfold elementAt?
  dsimp only
  split
  next heq => exact iff_of_true rfl heq
  next hne => exact iff_of_false (Option.some_ne_none _) hne

/-- Otherwise the end of the way down is found. -/
theorem elementAt?_eq_some_iff {doc : Document} {offset : Nat} {id : ElementId} :
    doc.elementAt? offset = some id ↔ doc.descend offset .root = id ∧ id ≠ .root := by
  unfold elementAt?
  dsimp only
  split
  next heq => exact iff_of_false (Option.some_ne_none id ·.symm) fun ⟨hid, hne⟩ => hne (hid ▸ heq)
  next hne => exact ⟨fun hid => Option.some_inj.1 hid ▸ ⟨rfl, hne⟩, fun hid => congrArg some hid.1⟩

/-! ## Documents that were read -/

/-- What there is to find at an offset of a document. -/
structure Locates (doc : Document) (offset : Nat) : Prop where
  /-- The search goes on as long as there is a child that covers the offset. -/
  goesOn : ∀ id, doc.descend offset id = match doc.childAt? offset id with
    | some child => doc.descend offset child
    | none => id
  /-- It goes to larger numbers, of elements that are there. -/
  bounded : ∀ {id child}, doc.childAt? offset id = some child → id < child ∧ child < doc.size
  /-- Nothing is found exactly if no element other than the root covers the offset. -/
  none_iff : doc.elementAt? offset = none ↔
    ∀ id e, doc.get? id = some e → id ≠ .root → ¬ (e.start ≤ offset ∧ offset < e.stop)
  /-- What is found covers the offset, and it stands in every element other than the root that
  does. -/
  deepest : ∀ {id}, doc.elementAt? offset = some id → id ≠ .root ∧
    (∃ e, doc.get? id = some e ∧ e.start ≤ offset ∧ offset < e.stop) ∧
    ∀ j f, doc.get? j = some f → j ≠ .root → f.start ≤ offset ∧ offset < f.stop →
      doc.StandsIn id j

/-- For every text, schema, root type and offset, the deepest element that covers the offset is
found, and nothing is found only if there is none. -/
theorem locates_parse (name text : String) (schema : Schema) (rootType : Option TypeId)
    (offset : Nat) : (parse name text schema rootType).Locates offset := by
  have h := isPlaced_parse name text schema rootType
  refine ⟨h.descend_eq offset, fun hc => ?_, elementAt?_eq_none_iff.trans ⟨?_, ?_⟩, fun hsome => ?_⟩
  · obtain ⟨hlt, hsize, -⟩ := h.of_childAt? hc
    exact ⟨hlt, hsize⟩
  · intro hroot j f hf hj hcovers
    have hin := h.descend_root_standsIn hf hcovers
    rw [hroot] at hin
    exact hj (h.eq_root_of_standsIn hin)
  · intro hnone
    by_contra hne
    obtain ⟨e, he, hcovers⟩ := h.exists_covers_of_descend hne
    exact hnone _ e he hne hcovers
  · obtain ⟨rfl, hne⟩ := elementAt?_eq_some_iff.1 hsome
    exact ⟨hne, h.exists_covers_of_descend hne, fun j f hf _ hcovers =>
      h.descend_root_standsIn hf hcovers⟩

/-- The offset of a text in an element that broke off belongs to the innermost open element. -/
example : (parse "Main" "<a><b>x<c/></a>" {} none).elementAt? 6 = some 2 := by
  decide +kernel

end LayoutMarkup.Document
