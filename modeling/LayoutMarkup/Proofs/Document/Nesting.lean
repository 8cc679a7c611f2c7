import LayoutMarkup.Document.Basic
import Mathlib.Data.List.Pairwise
import Mathlib.Logic.Function.Basic
import Mathlib.Tactic.Common

/-!
# Nesting

Where elements stand in a text is said by their shapes: the offsets of an element and its links in
the tree. While a text is read, the elements from the root to the current one are open, and all
others are closed. `Laid` is what holds of the shapes then, with a mark in the text that all offsets
but the ends of open elements are in front of. Three changes keep it: the innermost open element
gets an offset (`Laid.amend`), it is closed (`Laid.pop`), or an element begins in it (`Laid.push`).
The first two are cases of `Laid.revise`. A shape that is not the changed one stays (`Shape.Stays`),
so each field is carried over first for the shapes that stay, then for the one that does not.
-/

namespace LayoutMarkup

/-- The offsets and links of an element. -/
structure Shape where
  /-- The offset at which the element begins. -/
  start : Nat
  /-- The offset behind the element. -/
  stop : Nat
  /-- The offset behind the start tag, once that is closed. -/
  startTagEnd : Option Nat
  /-- The offset of an end tag that fits. -/
  endTagStart : Option Nat
  /-- Whether it is closed by `/>`. -/
  selfClosed : Bool
  /-- The element it stands in. -/
  parent : Option ElementId
  /-- The elements that stand in it. -/
  children : List ElementId

/-- Where an element stands. -/
def Element.shape (e : Element) : Shape :=
  ⟨e.start, e.stop, e.startTagEnd, e.endTagStart, e.selfClosed, e.parent, e.children⟩

/-- Where the elements stand. -/
abbrev Shapes := ElementId → Option Shape

namespace Shape

/-- The offsets of the tags are in order and not behind a bound. -/
structure Below (s : Shape) (bound : Nat) : Prop where
  /-- The element begins in front of the bound. -/
  start : s.start < bound
  /-- The start tag is not empty. -/
  startTag : ∀ {t}, s.startTagEnd = some t → s.start < t ∧ t ≤ bound
  /-- The end tag comes after the start tag. -/
  endTag : ∀ {e}, s.endTagStart = some e → ∃ t, s.startTagEnd = some t ∧ t ≤ e ∧ e ≤ bound

/-- A bound may be moved back. -/
theorem Below.mono {s : Shape} {a b : Nat} (h : s.Below a) (hab : a ≤ b) : s.Below b where
  start := Nat.lt_of_lt_of_le h.start hab
  startTag ht := ⟨(h.startTag ht).1, Nat.le_trans (h.startTag ht).2 hab⟩
  endTag he := by
    obtain ⟨t, ht, hte, hea⟩ := h.endTag he
    exact ⟨t, ht, hte, Nat.le_trans hea hab⟩

/-- Without a start tag there is no end tag. -/
theorem Below.endTagStart_eq_none {s : Shape} {bound : Nat} (h : s.Below bound)
    (hnone : s.startTagEnd = none) : s.endTagStart = none := by
  by_contra hne
  obtain ⟨e, he⟩ := Option.ne_none_iff_exists'.1 hne
  obtain ⟨t, ht, -⟩ := h.endTag he
  exact Option.some_ne_none t (ht.symm.trans hnone)

/-- An element that is closed by `/>` consists of its start tag. -/
def Bare (s : Shape) : Prop :=
  s.selfClosed = true → s.startTagEnd = some s.stop ∧ s.endTagStart = none ∧ s.children = []

/-- All offsets have a property. -/
structure All (P : Nat → Prop) (s : Shape) : Prop where
  /-- The beginning has it. -/
  start : P s.start
  /-- The end has it. -/
  stop : P s.stop
  /-- The end of the start tag has it. -/
  startTagEnd : ∀ {t}, s.startTagEnd = some t → P t
  /-- The beginning of the end tag has it. -/
  endTagStart : ∀ {e}, s.endTagStart = some e → P e

/-- Children do not matter for the offsets of the tags. -/
theorem Below.replaceChildren {s : Shape} {bound : Nat} (h : s.Below bound)
    (children : List ElementId) : Below { s with children } bound :=
  ⟨h.start, h.startTag, h.endTag⟩

/-- Children do not matter for the offsets. -/
theorem All.replaceChildren {P : Nat → Prop} {s : Shape} (h : s.All P)
    (children : List ElementId) : All P { s with children } :=
  ⟨h.start, h.stop, h.startTagEnd, h.endTagStart⟩

/-- Two shapes have the same links. -/
def SameLinks (s s' : Shape) : Prop :=
  s'.parent = s.parent ∧ s'.children = s.children

/-- A shape has the links that it has. -/
theorem SameLinks.refl (s : Shape) : s.SameLinks s :=
  ⟨rfl, rfl⟩

/-- A shape keeps its beginning, its parent and the end of a closed start tag. -/
structure Stays (s s' : Shape) : Prop where
  /-- The beginning. -/
  start : s'.start = s.start
  /-- The parent. -/
  parent : s'.parent = s.parent
  /-- The end of the start tag, once that is closed. -/
  startTagEnd : ∀ {t}, s.startTagEnd = some t → s'.startTagEnd = some t

/-- Nothing has to change. -/
theorem Stays.refl (s : Shape) : s.Stays s :=
  ⟨rfl, rfl, id⟩

/-- Children may change. -/
theorem Stays.replaceChildren (s : Shape) (children : List ElementId) :
    s.Stays { s with children } :=
  ⟨rfl, rfl, id⟩

end Shape

/-! ## Changes -/

namespace Shapes

variable {v : Shapes} {id j p : ElementId} {s s' t t' f new : Shape} {size : Nat}

/-- After a change of one shape, a shape is an old one or the new one. -/
theorem update_cases (h : Function.update v id (some s') j = some t') :
    j ≠ id ∧ v j = some t' ∨ j = id ∧ t' = s' := by
  by_cases hj : j = id
  · rw [hj, Function.update_self] at h
    exact Or.inr ⟨hj, (Option.some_inj.1 h).symm⟩
  · rw [Function.update_of_ne hj] at h
    exact Or.inl ⟨hj, h⟩

/-- Where one shape is changed within a relation, every shape comes from one it is related to. -/
theorem exists_of_update (R : Shape → Shape → Prop) (hrefl : ∀ t, R t t) (hs : v id = some s)
    (hchange : R s s') (h : Function.update v id (some s') j = some t') :
    ∃ t, v j = some t ∧ R t t' := by
  rcases update_cases h with ⟨-, ht⟩ | ⟨rfl, rfl⟩
  · exact ⟨t', ht, hrefl t'⟩
  · exact ⟨s, hs, hchange⟩

/-- Where one shape is changed within a relation, every shape becomes one it is related to. -/
theorem exists_update (R : Shape → Shape → Prop) (hrefl : ∀ t, R t t) (hs : v id = some s)
    (hchange : R s s') (h : v j = some t) :
    ∃ t', Function.update v id (some s') j = some t' ∧ R t t' := by
  by_cases hj : j = id
  · obtain rfl : s = t := Option.some_inj.1 (hs.symm.trans (hj ▸ h))
    exact ⟨s', by rw [hj, Function.update_self], hchange⟩
  · exact ⟨t, by rw [Function.update_of_ne hj, h], hrefl t⟩

/-- The shapes after an element got a number and was put into another one. -/
abbrev push (v : Shapes) (p : ElementId) (f : Shape) (size : Nat) (new : Shape) : Shapes :=
  Function.update (Function.update v p (some { f with children := f.children ++ [size] })) size
    (some new)

/-- After an element was put into another one, a shape is that of the new element, or an old one up
to its children; these are the old ones, and perhaps the new one. -/
theorem push_cases (hf : v p = some f) (h : v.push p f size new j = some t') :
    j = size ∧ t' = new ∨ j ≠ size ∧ ∃ t children, v j = some t ∧ t' = { t with children } ∧
      (children = t.children ∨ j = p ∧ children = t.children ++ [size]) := by
  rcases update_cases h with ⟨hj, h⟩ | hnew
  · rcases update_cases h with ⟨-, ht⟩ | ⟨rfl, rfl⟩
    · exact Or.inr ⟨hj, t', t'.children, ht, rfl, Or.inl rfl⟩
    · exact Or.inr ⟨hj, f, f.children ++ [size], hf, rfl, Or.inr ⟨rfl, rfl⟩⟩
  · exact Or.inl hnew

/-- When an element is put into another one, every shape stays up to its children, and these stay in
it. -/
theorem exists_push (hf : v p = some f) (hfresh : v size = none) (h : v j = some t) :
    ∃ children, v.push p f size new j = some { t with children } ∧ t.children ⊆ children := by
  have hj : j ≠ size := by
    rintro rfl
    exact Option.some_ne_none t (h.symm.trans hfresh)
  rw [push, Function.update_of_ne hj]
  by_cases hjp : j = p
  · obtain rfl : f = t := Option.some_inj.1 (hf.symm.trans (hjp ▸ h))
    rw [hjp, Function.update_self]
    exact ⟨_, rfl, List.subset_append_left ..⟩
  · rw [Function.update_of_ne hjp]
    exact ⟨t.children, h, List.Subset.refl _⟩

end Shapes

/-! ## The tree -/

/-- The shapes make a tree whose numbers grow downwards and to the right. -/
structure Shapes.Family (v : Shapes) (size : Nat) : Prop where
  /-- The elements are those with small numbers. -/
  live : ∀ id, v id ≠ none ↔ id < size
  /-- The root stands in nothing. -/
  root : ∃ r, v .root = some r ∧ r.parent = none
  /-- Every other element is a child of one with a smaller number. -/
  parent : ∀ {id s}, v id = some s → id ≠ .root →
    ∃ p f, s.parent = some p ∧ p < id ∧ v p = some f ∧ id ∈ f.children
  /-- A child knows its parent. -/
  child : ∀ {p f c}, v p = some f → c ∈ f.children → ∃ s, v c = some s ∧ s.parent = some p
  /-- Children are in the order of their numbers. -/
  increasing : ∀ {p f}, v p = some f → f.children.Pairwise (· < ·)

/-- A change that keeps the links keeps the tree. -/
theorem Shapes.Family.update {v : Shapes} {size : Nat} (h : v.Family size) {id : ElementId}
    {s s' : Shape} (hs : v id = some s) (hparent : s'.parent = s.parent)
    (hchildren : s'.children = s.children) :
    Shapes.Family (Function.update v id (some s')) size := by
  -- Every shape has a counterpart with the same links, in both directions.
  have hlinks : s.SameLinks s' := ⟨hparent, hchildren⟩
  have hback : ∀ {j t'}, Function.update v id (some s') j = some t' →
      ∃ t, v j = some t ∧ t.SameLinks t' :=
    Shapes.exists_of_update Shape.SameLinks Shape.SameLinks.refl hs hlinks
  have hforth : ∀ {j t}, v j = some t →
      ∃ t', Function.update v id (some s') j = some t' ∧ t.SameLinks t' :=
    Shapes.exists_update Shape.SameLinks Shape.SameLinks.refl hs hlinks
  refine ⟨fun j => ?_, ?_, fun {j t'} ht' hj => ?_, fun {p f' c} hf' hc => ?_,
    fun {p f'} hf' => ?_⟩
  · by_cases hj : j = id
    · rw [hj, Function.update_self, ← h.live, hs]
      simp
    · rw [Function.update_of_ne hj, h.live]
  · obtain ⟨r, hr, hnone⟩ := h.root
    obtain ⟨r', hr', hp, -⟩ := hforth hr
    exact ⟨r', hr', hp.trans hnone⟩
  · obtain ⟨t, ht, hp, -⟩ := hback ht'
    obtain ⟨p, f, htp, hlt, hf, hmem⟩ := h.parent ht hj
    obtain ⟨f', hf', -, hc⟩ := hforth hf
    exact ⟨p, f', hp.trans htp, hlt, hf', hc ▸ hmem⟩
  · obtain ⟨f, hf, -, hch⟩ := hback hf'
    obtain ⟨t, ht, htp⟩ := h.child hf (hch ▸ hc)
    obtain ⟨t', ht', hp, -⟩ := hforth ht
    exact ⟨t', ht', hp.trans htp⟩
  · obtain ⟨f, hf, -, hch⟩ := hback hf'
    rw [hch]
    exact h.increasing hf

/-- A new element at the end of the numbers may become the last child of an element. -/
theorem Shapes.Family.push {v : Shapes} {size : Nat} (h : v.Family size) {p : ElementId}
    {f new : Shape} (hf : v p = some f) (hparent : new.parent = some p)
    (hchildren : new.children = []) : (v.push p f size new).Family (size + 1) := by
  have hp : p < size := (h.live p).1 (by rw [hf]; simp)
  have hfresh : v size = none := by
    by_contra hne
    exact Nat.lt_irrefl size ((h.live size).1 hne)
  have hnew : v.push p f size new size = some new := Function.update_self ..
  have htop : v.push p f size new p = some { f with children := f.children ++ [size] } := by
    rw [Shapes.push, Function.update_of_ne (Nat.ne_of_lt hp), Function.update_self]
  have hforth : ∀ {j t}, v j = some t →
      ∃ children, v.push p f size new j = some { t with children } ∧ t.children ⊆ children :=
    Shapes.exists_push hf hfresh
  refine ⟨fun j => ?_, ?_, fun {j t'} ht' hj => ?_, fun {q f' c} hf' hc => ?_,
    fun {q f'} hf' => ?_⟩
  · constructor
    · intro hne
      obtain ⟨t', ht'⟩ := Option.ne_none_iff_exists'.1 hne
      rcases Shapes.push_cases hf ht' with ⟨rfl, -⟩ | ⟨-, t, -, ht, -⟩
      · exact Nat.lt_succ_self _
      · exact Nat.lt_succ_of_lt ((h.live j).1 (by rw [ht]; exact Option.some_ne_none _))
    · intro hj
      rcases Nat.lt_succ_iff_lt_or_eq.1 hj with hlt | rfl
      · obtain ⟨t, ht⟩ := Option.ne_none_iff_exists'.1 ((h.live j).2 hlt)
        obtain ⟨children, ht', -⟩ := hforth ht
        exact ne_of_eq_of_ne ht' (Option.some_ne_none _)
      · exact ne_of_eq_of_ne hnew (Option.some_ne_none _)
  · obtain ⟨r, hr, hnone⟩ := h.root
    obtain ⟨children, hr', -⟩ := hforth hr
    exact ⟨_, hr', hnone⟩
  · rcases Shapes.push_cases hf ht' with ⟨rfl, rfl⟩ | ⟨-, t, children, ht, rfl, -⟩
    · exact ⟨p, _, hparent, hp, htop, List.mem_append_right _ (List.mem_singleton_self _)⟩
    · obtain ⟨q, g, htq, hlt, hg, hmem⟩ := h.parent ht hj
      obtain ⟨_, hg', hsub⟩ := hforth hg
      exact ⟨q, _, htq, hlt, hg', hsub hmem⟩
  · rcases Shapes.push_cases hf hf' with ⟨rfl, rfl⟩ | ⟨-, g, children, hg, rfl, hch⟩
    · exact absurd (hchildren ▸ hc) List.not_mem_nil
    · -- The child is one from before, or the new element in its parent.
      have hcases : c ∈ g.children ∨ q = p ∧ c = size := by
        rcases hch with rfl | ⟨hqp, rfl⟩
        · exact Or.inl hc
        · exact (List.mem_append.1 hc).imp_right fun hsize => ⟨hqp, List.mem_singleton.1 hsize⟩
      rcases hcases with hmem | ⟨rfl, rfl⟩
      · obtain ⟨t, ht, htp⟩ := h.child hg hmem
        obtain ⟨_, ht', -⟩ := hforth ht
        exact ⟨_, ht', htp⟩
      · exact ⟨new, hnew, hparent⟩
  · rcases Shapes.push_cases hf hf' with ⟨rfl, rfl⟩ | ⟨-, g, children, hg, rfl, rfl | ⟨-, rfl⟩⟩
    · rw [hchildren]
      exact List.Pairwise.nil
    · exact h.increasing hg
    · -- The new element comes last, and its number is the largest.
      refine List.pairwise_append.2
        ⟨h.increasing hg, List.pairwise_singleton _ _, fun c hc d hd => ?_⟩
      obtain ⟨t, ht, -⟩ := h.child hg hc
      rw [List.mem_singleton.1 hd]
      exact (h.live c).1 (by rw [ht]; simp)

/-! ## The open elements -/

/-- The open elements, the innermost first: each stands in the next, and the last is the root. -/
inductive Shapes.Stacked (v : Shapes) : List ElementId → Prop where
  /-- The root alone. -/
  | root : Stacked v [.root]
  /-- An element in another one. -/
  | inner {id p : ElementId} {rest : List ElementId} {s : Shape} (hs : v id = some s)
      (hparent : s.parent = some p) (hlt : p < id) (hrest : Stacked v (p :: rest)) :
      Stacked v (id :: p :: rest)

namespace Shapes.Stacked

variable {v v' : Shapes} {stack rest : List ElementId} {top : ElementId}

/-- The numbers grow inwards. -/
theorem pairwise (h : v.Stacked stack) : stack.Pairwise (· > ·) := by
  induction h with
  | root => exact List.pairwise_singleton _ _
  | @inner id p below s hs hparent hlt hrest ih =>
    refine List.pairwise_cons.2 ⟨fun j hj => ?_, ih⟩
    rcases List.mem_cons.1 hj with rfl | hj
    · exact hlt
    · exact Nat.lt_trans ((List.pairwise_cons.1 ih).1 j hj) hlt

/-- The root is always open. -/
theorem root_mem (h : v.Stacked stack) : ElementId.root ∈ stack := by
  induction h with
  | root => exact List.mem_singleton_self _
  | inner hs hparent hlt hrest ih => exact List.mem_cons_of_mem _ ih

/-- The innermost element has the largest number. -/
theorem lt_top (h : v.Stacked (top :: rest)) : ∀ id ∈ rest, id < top :=
  (List.pairwise_cons.1 h.pairwise).1

/-- The innermost element occurs once. -/
theorem top_notMem (h : v.Stacked (top :: rest)) : top ∉ rest :=
  fun hmem => Nat.lt_irrefl top (h.lt_top top hmem)

/-- What stands in the innermost open element is closed. -/
theorem notMem_of_parent (h : v.Stacked (top :: rest)) {c : ElementId} (hlt : top < c) :
    c ∉ top :: rest := by
  intro hmem
  rcases List.mem_cons.1 hmem with rfl | hmem
  · exact Nat.lt_irrefl c hlt
  · exact Nat.lt_irrefl c (Nat.lt_trans (h.lt_top c hmem) hlt)

/-- Where parents stay, open elements are still stacked. -/
theorem congr (h : v.Stacked stack) (hparents : ∀ {id s}, v id = some s →
    ∃ s', v' id = some s' ∧ s'.parent = s.parent) : v'.Stacked stack := by
  induction h with
  | root => exact .root
  | inner hs hparent hlt hrest ih =>
    obtain ⟨s', hs', hp⟩ := hparents hs
    exact .inner hs' (hp.trans hparent) hlt ih

/-- An open element other than the root stands in the next one. -/
theorem exists_parent (h : v.Stacked (top :: rest)) (htop : top ≠ .root) :
    ∃ s p below, v top = some s ∧ s.parent = some p ∧ rest = p :: below ∧ v.Stacked rest := by
  cases h with
  | root => exact absurd rfl htop
  | inner hs hparent hlt hrest => exact ⟨_, _, _, hs, hparent, rfl, hrest⟩

end Shapes.Stacked

/-! ## Layouts -/

/-- The elements of a text that was read up to a mark, where some elements are open. The offsets
have a property. -/
structure Laid (P : Nat → Prop) (length : Nat) (v : Shapes) (size : Nat)
    (stack : List ElementId) (mark : Nat) : Prop where
  /-- The elements make a tree. -/
  family : v.Family size
  /-- The open elements. -/
  stacked : v.Stacked stack
  /-- The mark lies in the text. -/
  mark_le : mark ≤ length
  /-- The root covers the whole text. -/
  root : ∃ r, v .root = some r ∧ r.start = 0 ∧ r.startTagEnd = some 0 ∧ r.endTagStart = none
  /-- Elements begin in the order of their numbers. -/
  starts : ∀ {i j s t}, v i = some s → v j = some t → i ≠ .root → i < j → s.start < t.start
  /-- An open element has no end yet. -/
  opened : ∀ {id s}, v id = some s → id ∈ stack →
    s.stop = length ∧ s.selfClosed = false ∧ (id ≠ .root → s.Below mark)
  /-- A closed element ends in front of the mark, and its tags lie in it. -/
  closed : ∀ {id s}, v id = some s → id ∉ stack →
    s.stop ≤ mark ∧ s.startTagEnd ≠ none ∧ s.Below s.stop ∧ s.Bare
  /-- Only the innermost element may have an open start tag, and nothing stands in it then. -/
  unclosed : ∀ {id s}, v id = some s → s.startTagEnd = none →
    stack.head? = some id ∧ s.children = []
  /-- A child stands behind the start tag of its parent and in the parent. -/
  inside : ∀ {p f c s}, v p = some f → v c = some s → s.parent = some p →
    ∃ t, f.startTagEnd = some t ∧ t ≤ s.start ∧ s.stop ≤ f.stop
  /-- A child stands in front of the next one. -/
  siblings : ∀ {p i j s t}, v i = some s → v j = some t → s.parent = some p → t.parent = some p →
    i < j → s.stop ≤ t.start
  /-- All offsets have the property. -/
  all : ∀ {id s}, v id = some s → s.All P

namespace Laid

variable {P : Nat → Prop} {length size mark : Nat} {v : Shapes} {top : ElementId}
  {stack rest : List ElementId} {s : Shape}

/-- The mark may be moved on. -/
theorem mono (h : Laid P length v size stack mark) {mark' : Nat} (hle : mark ≤ mark')
    (hlen : mark' ≤ length) : Laid P length v size stack mark' :=
  { h with
    mark_le := hlen
    opened := fun hs hmem => by
      obtain ⟨hstop, hself, hbelow⟩ := h.opened hs hmem
      exact ⟨hstop, hself, fun hroot => (hbelow hroot).mono hle⟩
    closed := fun hs hmem => by
      obtain ⟨hstop, hrest⟩ := h.closed hs hmem
      exact ⟨Nat.le_trans hstop hle, hrest⟩ }

/-- The innermost open element is there. -/
theorem exists_top (h : Laid P length v size (top :: rest) mark) : ∃ s, v top = some s := by
  by_cases htop : top = .root
  · obtain ⟨r, hr, -⟩ := h.root
    exact ⟨r, htop ▸ hr⟩
  · obtain ⟨s, -, -, hs, -⟩ := h.stacked.exists_parent htop
    exact ⟨s, hs⟩

/-- The number of what stands in an element is larger. -/
theorem lt_of_parent (h : Laid P length v size stack mark) {c p : ElementId} (hs : v c = some s)
    (hparent : s.parent = some p) : p < c ∧ ∃ f, v p = some f ∧ c ∈ f.children := by
  have hroot : c ≠ .root := by
    rintro rfl
    obtain ⟨r, hr, hnone⟩ := h.family.root
    rw [hs] at hr
    cases hr
    rw [hparent] at hnone
    exact Option.some_ne_none p hnone
  obtain ⟨p', f, hp', hlt, hf, hmem⟩ := h.family.parent hs hroot
  rw [hparent] at hp'
  cases hp'
  exact ⟨hlt, f, hf, hmem⟩

/-- All offsets of the elements but the ends of open ones are in front of the mark. -/
theorem start_lt (h : Laid P length v size stack mark) {id : ElementId} (hs : v id = some s)
    (hroot : id ≠ .root) : s.start < mark := by
  by_cases hmem : id ∈ stack
  · exact ((h.opened hs hmem).2.2 hroot).start
  · obtain ⟨hstop, -, hbelow, -⟩ := h.closed hs hmem
    exact Nat.lt_of_lt_of_le hbelow.start hstop

/-- At the end of the text the tags of every element lie in it. -/
theorem below_stop (h : Laid P length v size stack length) {id : ElementId} (hs : v id = some s)
    (hroot : id ≠ .root) : s.Below s.stop ∧ s.stop ≤ length := by
  by_cases hmem : id ∈ stack
  · obtain ⟨hstop, -, hbelow⟩ := h.opened hs hmem
    rw [hstop]
    exact ⟨hbelow hroot, Nat.le_refl length⟩
  · obtain ⟨hstop, -, hbelow, -⟩ := h.closed hs hmem
    exact ⟨hbelow, hstop⟩

/-- An element that is closed by `/>` consists of its start tag. -/
theorem bare (h : Laid P length v size stack mark) {id : ElementId} (hs : v id = some s) :
    s.Bare := by
  by_cases hmem : id ∈ stack
  · obtain ⟨-, hself, -⟩ := h.opened hs hmem
    exact fun hyes => absurd (hyes.symm.trans hself) Bool.noConfusion
  · exact (h.closed hs hmem).2.2.2

/-- A start tag that is open is not that of the root. -/
theorem ne_root_of_unclosed (h : Laid P length v size stack mark) {id : ElementId}
    (hs : v id = some s) (hnone : s.startTagEnd = none) : id ≠ .root := by
  rintro rfl
  obtain ⟨r, hr, -, hzero, -⟩ := h.root
  obtain rfl : s = r := Option.some_inj.1 (hs.symm.trans hr)
  exact Option.some_ne_none 0 (hzero.symm.trans hnone)

/-- What stands in the innermost open element is closed, and ends in front of the mark. -/
theorem stop_le_of_parent (h : Laid P length v size (top :: rest) mark) {c : ElementId}
    (hs : v c = some s) (hparent : s.parent = some top) : s.stop ≤ mark :=
  (h.closed hs (h.stacked.notMem_of_parent (h.lt_of_parent hs hparent).1)).1

/-! ### Shapes that stay -/

section Stays

variable {i j p : ElementId} {a a' b b' : Shape}

/-- Elements that stay begin in the order of their numbers. -/
theorem starts_of_stays (h : Laid P length v size stack mark) (ha : v i = some a)
    (hb : v j = some b) (haa : a.Stays a') (hbb : b.Stays b') (hroot : i ≠ .root) (hlt : i < j) :
    a'.start < b'.start := by
  rw [haa.start, hbb.start]
  exact h.starts ha hb hroot hlt

/-- A child that stays begins behind the start tag of its parent, and its end was that of the parent
or in front of it. -/
theorem inside_of_stays (h : Laid P length v size stack mark) (ha : v i = some a)
    (hb : v j = some b) (haa : a.Stays a') (hbb : b.Stays b') (hparent : b'.parent = some i) :
    ∃ x, a'.startTagEnd = some x ∧ x ≤ b'.start ∧ b.stop ≤ a.stop := by
  obtain ⟨x, hx, hle, hstop⟩ := h.inside ha hb (hbb.parent ▸ hparent)
  exact ⟨x, haa.startTagEnd hx, hbb.start ▸ hle, hstop⟩

/-- A child that stays begins behind the end that a child before it had. -/
theorem siblings_of_stays (h : Laid P length v size stack mark) (ha : v i = some a)
    (hb : v j = some b) (haa : a.Stays a') (hbb : b.Stays b') (hpa : a'.parent = some p)
    (hpb : b'.parent = some p) (hlt : i < j) : a.stop ≤ b'.start := by
  rw [hbb.start]
  exact h.siblings ha hb (haa.parent ▸ hpa) (hbb.parent ▸ hpb) hlt

end Stays

/-! ### Changes of the innermost open element -/

section Revise

variable {s' : Shape}

/-- When the innermost open element is changed, only it may have an open start tag. -/
theorem unclosed_revise (h : Laid P length v size (top :: rest) mark) (hs : v top = some s)
    (hstays : s.Stays s') (hchildren : s'.children = s.children) {j : ElementId} {t' : Shape}
    (ht' : Function.update v top (some s') j = some t') (hnone : t'.startTagEnd = none) :
    j = top ∧ t' = s' ∧ t'.children = [] := by
  rcases Shapes.update_cases ht' with ⟨hj, ht⟩ | ⟨rfl, rfl⟩
  · exact absurd (Option.some_inj.1 (h.unclosed ht hnone).1).symm hj
  · have hwas : s.startTagEnd = none := by
      by_contra hne
      obtain ⟨t, ht⟩ := Option.ne_none_iff_exists'.1 hne
      exact Option.some_ne_none t ((hstays.startTagEnd ht).symm.trans hnone)
    exact ⟨rfl, rfl, hchildren.trans (h.unclosed hs hwas).2⟩

/-- When the end of the innermost open element is moved to the mark or behind it, children still
stand in their parents. -/
theorem inside_revise (h : Laid P length v size (top :: rest) mark) (hs : v top = some s)
    (hstays : s.Stays s') (hfrom : mark ≤ s'.stop) (hto : s'.stop ≤ length) {p c : ElementId}
    {f' t' : Shape} (hf' : Function.update v top (some s') p = some f')
    (ht' : Function.update v top (some s') c = some t') (hparent : t'.parent = some p) :
    ∃ x, f'.startTagEnd = some x ∧ x ≤ t'.start ∧ t'.stop ≤ f'.stop := by
  obtain ⟨f, hf, hff⟩ := Shapes.exists_of_update Shape.Stays .refl hs hstays hf'
  obtain ⟨t, ht, htt⟩ := Shapes.exists_of_update Shape.Stays .refl hs hstays ht'
  obtain ⟨x, hx, hle, hend⟩ := h.inside_of_stays hf ht hff htt hparent
  have hpt : t.parent = some p := htt.parent ▸ hparent
  refine ⟨x, hx, hle, ?_⟩
  rcases Shapes.update_cases ht' with ⟨hc, ht₁⟩ | ⟨rfl, rfl⟩
  · obtain rfl : t = t' := Option.some_inj.1 (ht.symm.trans ht₁)
    rcases Shapes.update_cases hf' with ⟨-, hf₁⟩ | ⟨rfl, rfl⟩
    · obtain rfl : f = f' := Option.some_inj.1 (hf.symm.trans hf₁)
      exact hend
    · exact Nat.le_trans (h.stop_le_of_parent ht hpt) hfrom
  · -- The parent of an open element ends with the text, whatever the element becomes.
    obtain rfl : s = t := Option.some_inj.1 (hs.symm.trans ht)
    have hne : p ≠ c := Nat.ne_of_lt (h.lt_of_parent ht hpt).1
    rw [Function.update_of_ne hne] at hf'
    obtain rfl : f = f' := Option.some_inj.1 (hf.symm.trans hf')
    have hstop := (h.opened hs List.mem_cons_self).1
    exact Nat.le_trans hto (hstop ▸ hend)

/-- When the innermost open element is changed, children still stand in front of the next ones. -/
theorem siblings_revise (h : Laid P length v size (top :: rest) mark) (hs : v top = some s)
    (hstays : s.Stays s') {p i j : ElementId} {a' b' : Shape}
    (ha' : Function.update v top (some s') i = some a')
    (hb' : Function.update v top (some s') j = some b') (hpa : a'.parent = some p)
    (hpb : b'.parent = some p) (hlt : i < j) : a'.stop ≤ b'.start := by
  obtain ⟨a, ha, haa⟩ := Shapes.exists_of_update Shape.Stays .refl hs hstays ha'
  obtain ⟨b, hb, hbb⟩ := Shapes.exists_of_update Shape.Stays .refl hs hstays hb'
  have hle := h.siblings_of_stays ha hb haa hbb hpa hpb hlt
  rcases Shapes.update_cases ha' with ⟨-, ha₁⟩ | ⟨rfl, rfl⟩
  · obtain rfl : a = a' := Option.some_inj.1 (ha.symm.trans ha₁)
    exact hle
  · -- Nothing begins behind the end of the text, where an open element ends.
    obtain rfl : s = a := Option.some_inj.1 (hs.symm.trans ha)
    have hj : j ≠ .root := by
      rintro rfl
      exact Nat.not_lt_zero i hlt
    have hbefore := h.start_lt hb hj
    have hstop := (h.opened hs List.mem_cons_self).1
    have hmark := h.mark_le
    rw [hbb.start] at hle
    omega

/-- The innermost open element may get other offsets behind its beginning: it stays open, or it is
closed. Its end may only move to the mark or behind it. -/
theorem revise (h : Laid P length v size (top :: rest) mark) (hs : v top = some s)
    (htop : top ≠ .root) {stack' : List ElementId} (hstart : s'.start = s.start)
    (hparent : s'.parent = s.parent) (hchildren : s'.children = s.children)
    (hkeep : ∀ {t}, s.startTagEnd = some t → s'.startTagEnd = some t)
    (hfrom : mark ≤ s'.stop) (hto : s'.stop ≤ length) (hall : s'.All P)
    (hstack : stack' = top :: rest ∧ s'.stop = length ∧ s'.selfClosed = false ∧ s'.Below mark ∨
      stack' = rest ∧ s'.stop ≤ mark ∧ s'.startTagEnd ≠ none ∧ s'.Below s'.stop ∧ s'.Bare) :
    Laid P length (Function.update v top (some s')) size stack' mark := by
  have hstays : s.Stays s' := ⟨hstart, hparent, hkeep⟩
  have hlinks : ∀ {j t}, v j = some t →
      ∃ t', Function.update v top (some s') j = some t' ∧ t'.parent = t.parent := by
    intro j t ht
    obtain ⟨t', ht', hstay⟩ := Shapes.exists_update Shape.Stays .refl hs hstays ht
    exact ⟨t', ht', hstay.parent⟩
  exact
    { family := h.family.update hs hparent hchildren
      stacked := by
        rcases hstack with ⟨rfl, -⟩ | ⟨rfl, -⟩
        · exact h.stacked.congr hlinks
        · obtain ⟨-, -, -, -, -, -, hrest⟩ := h.stacked.exists_parent htop
          exact hrest.congr hlinks
      mark_le := h.mark_le
      root := by
        obtain ⟨r, hr, hroot⟩ := h.root
        exact ⟨r, (Function.update_of_ne htop.symm ..).trans hr, hroot⟩
      starts := fun ha' hb' hne hlt => by
        obtain ⟨a, ha, haa⟩ := Shapes.exists_of_update Shape.Stays .refl hs hstays ha'
        obtain ⟨b, hb, hbb⟩ := Shapes.exists_of_update Shape.Stays .refl hs hstays hb'
        exact h.starts_of_stays ha hb haa hbb hne hlt
      opened := fun {j t'} ht' hmem => by
        rcases Shapes.update_cases ht' with ⟨hj, ht⟩ | ⟨rfl, rfl⟩
        · -- The others that are open were so before.
          rcases hstack with ⟨rfl, -⟩ | ⟨rfl, -⟩
          · exact h.opened ht hmem
          · exact h.opened ht (List.mem_cons_of_mem _ hmem)
        · rcases hstack with ⟨-, hend, hself, hbelow⟩ | ⟨rfl, -⟩
          · exact ⟨hend, hself, fun _ => hbelow⟩
          · exact absurd hmem h.stacked.top_notMem
      closed := fun {j t'} ht' hmem => by
        rcases Shapes.update_cases ht' with ⟨hj, ht⟩ | ⟨rfl, rfl⟩
        · -- The others that are closed were so before.
          rcases hstack with ⟨rfl, -⟩ | ⟨rfl, -⟩
          · exact h.closed ht hmem
          · exact h.closed ht fun hin => (List.mem_cons.1 hin).elim hj hmem
        · rcases hstack with ⟨rfl, -⟩ | ⟨-, hclosed⟩
          · exact absurd List.mem_cons_self hmem
          · exact hclosed
      unclosed := fun ht' hnone => by
        obtain ⟨rfl, rfl, hnil⟩ := h.unclosed_revise hs hstays hchildren ht' hnone
        rcases hstack with ⟨rfl, -⟩ | ⟨-, -, htag, -⟩
        · exact ⟨rfl, hnil⟩
        · exact absurd hnone htag
      inside := fun hf' ht' hpt => h.inside_revise hs hstays hfrom hto hf' ht' hpt
      siblings := fun ha' hb' hpa hpb hlt => h.siblings_revise hs hstays ha' hb' hpa hpb hlt
      all := fun ht' => by
        rcases Shapes.update_cases ht' with ⟨-, ht⟩ | ⟨-, rfl⟩
        · exact h.all ht
        · exact hall }

end Revise

/-- The innermost open element may get offsets of its tags. -/
theorem amend (h : Laid P length v size (top :: rest) mark) (hs : v top = some s)
    (htop : top ≠ .root) {startTagEnd endTagStart : Option Nat}
    (hbelow : Shape.Below { s with startTagEnd, endTagStart } mark)
    (hkeep : ∀ {t}, s.startTagEnd = some t → startTagEnd = some t)
    (hall : Shape.All P { s with startTagEnd, endTagStart }) :
    Laid P length (Function.update v top (some { s with startTagEnd, endTagStart })) size
      (top :: rest) mark := by
  obtain ⟨hstop, hself, -⟩ := h.opened hs List.mem_cons_self
  have hfrom : mark ≤ s.stop := hstop ▸ h.mark_le
  exact h.revise hs htop rfl rfl rfl hkeep hfrom (Nat.le_of_eq hstop) hall
    (Or.inl ⟨rfl, hstop, hself, hbelow⟩)

/-- An open start tag may be closed at the mark. -/
theorem closeStartTag (h : Laid P length v size stack mark) {id : ElementId} (hs : v id = some s)
    (hnone : s.startTagEnd = none) (hmark : P mark) :
    Laid P length (Function.update v id (some { s with startTagEnd := some mark })) size stack
      mark := by
  have hroot := h.ne_root_of_unclosed hs hnone
  obtain ⟨hhead, -⟩ := h.unclosed hs hnone
  obtain ⟨rest, rfl⟩ := List.head?_eq_some_iff.1 hhead
  have hbelow := (h.opened hs List.mem_cons_self).2.2 hroot
  have hall := h.all hs
  refine h.amend hs hroot ⟨hbelow.start, fun ht => ?_, fun hend => ?_⟩ (fun ht => ?_)
    ⟨hall.start, hall.stop, fun ht => ?_, hall.endTagStart⟩
  · cases ht
    exact ⟨hbelow.start, Nat.le_refl mark⟩
  · exact absurd (hend.symm.trans (hbelow.endTagStart_eq_none hnone)) (Option.some_ne_none _)
  · exact absurd (ht.symm.trans hnone) (Option.some_ne_none _)
  · cases ht
    exact hmark

/-- The innermost open element may be closed at the mark, once its start tag is. -/
theorem pop (h : Laid P length v size (top :: rest) mark) (hs : v top = some s)
    (htop : top ≠ .root) (htag : s.startTagEnd ≠ none) {selfClosed : Bool}
    (hbare : Shape.Bare { s with stop := mark, selfClosed }) (hmark : P mark) :
    Laid P length (Function.update v top (some { s with stop := mark, selfClosed })) size rest
      mark := by
  obtain ⟨-, -, hbelow⟩ := h.opened hs List.mem_cons_self
  have hb := hbelow htop
  have hall := h.all hs
  exact h.revise hs htop rfl rfl rfl id (Nat.le_refl mark) h.mark_le
    ⟨hall.start, hmark, hall.startTagEnd, hall.endTagStart⟩
    (Or.inr ⟨rfl, Nat.le_refl mark, htag, ⟨hb.start, hb.startTag, hb.endTag⟩, hbare⟩)

/-- The shape of an element that begins at an offset. -/
def fresh (length offset : Nat) (parent : ElementId) : Shape where
  start := offset
  stop := length
  startTagEnd := none
  endTagStart := none
  selfClosed := false
  parent := some parent
  children := []

/-- An element that begins has no tags yet. -/
theorem fresh_below {offset bound : Nat} {p : ElementId} (hlt : offset < bound) :
    (fresh length offset p).Below bound where
  start := hlt
  startTag ht := absurd ht (Option.some_ne_none _).symm
  endTag he := absurd he (Option.some_ne_none _).symm

/-- An element that begins has two offsets. -/
theorem fresh_all {offset : Nat} {p : ElementId} (hoffset : P offset) (hlength : P length) :
    (fresh length offset p).All P where
  start := hoffset
  stop := hlength
  startTagEnd ht := absurd ht (Option.some_ne_none _).symm
  endTagStart he := absurd he (Option.some_ne_none _).symm

/-- A start tag that is closed ends in front of the mark. -/
theorem exists_startTagEnd (h : Laid P length v size (top :: rest) mark) (hs : v top = some s)
    (htag : s.startTagEnd ≠ none) : ∃ x, s.startTagEnd = some x ∧ x ≤ mark := by
  obtain ⟨x, hx⟩ := Option.ne_none_iff_exists'.1 htag
  refine ⟨x, hx, ?_⟩
  by_cases hroot : top = .root
  · -- The content of the root begins with the text.
    obtain ⟨r, hr, -, hzero, -⟩ := h.root
    obtain rfl : s = r := Option.some_inj.1 (hs.symm.trans (hroot ▸ hr))
    obtain rfl : x = 0 := Option.some_inj.1 (hx.symm.trans hzero)
    exact Nat.zero_le _
  · exact (((h.opened hs List.mem_cons_self).2.2 hroot).startTag hx).2

section Push

variable {i j p : ElementId} {a' b' : Shape}

/-- After an element began, a shape is its own, or an old one up to its children. -/
theorem push_cases (h : Laid P length v size (top :: rest) mark) (hs : v top = some s)
    (ha' : v.push top s size (fresh length mark top) i = some a') :
    i = size ∧ a' = fresh length mark top ∨
      i < size ∧ ∃ a children, v i = some a ∧ a' = { a with children } := by
  rcases Shapes.push_cases hs ha' with hnew | ⟨-, a, children, ha, rfl, -⟩
  · exact Or.inl hnew
  · have hi : i < size := (h.family.live i).1 (ne_of_eq_of_ne ha (Option.some_ne_none a))
    exact Or.inr ⟨hi, a, children, ha, rfl⟩

/-- A shape with an old number is an old one up to its children. -/
theorem exists_of_push (h : Laid P length v size (top :: rest) mark) (hs : v top = some s)
    (ha' : v.push top s size (fresh length mark top) i = some a') (hi : i < size) :
    ∃ a children, v i = some a ∧ a' = { a with children } :=
  (h.push_cases hs ha').elim (fun hnew => absurd hi (hnew.1 ▸ Nat.lt_irrefl _)) And.right

/-- When an element begins at the mark, elements still begin in the order of their numbers. -/
theorem starts_push (h : Laid P length v size (top :: rest) mark) (hs : v top = some s)
    (ha' : v.push top s size (fresh length mark top) i = some a')
    (hb' : v.push top s size (fresh length mark top) j = some b') (hroot : i ≠ .root)
    (hlt : i < j) : a'.start < b'.start := by
  rcases h.push_cases hs hb' with ⟨rfl, rfl⟩ | ⟨hj, b, _, hb, rfl⟩
  · -- Everything from before begins in front of the mark.
    obtain ⟨a, _, ha, rfl⟩ := h.exists_of_push hs ha' hlt
    exact (h.start_lt ha hroot :)
  · obtain ⟨a, _, ha, rfl⟩ := h.exists_of_push hs ha' (Nat.lt_trans hlt hj)
    exact h.starts_of_stays ha hb (.replaceChildren a _) (.replaceChildren b _) hroot hlt

/-- When an element begins at the mark, children still stand in their parents. -/
theorem inside_push (h : Laid P length v size (top :: rest) mark) (hs : v top = some s)
    (htag : s.startTagEnd ≠ none) (ha' : v.push top s size (fresh length mark top) i = some a')
    (hb' : v.push top s size (fresh length mark top) j = some b') (hparent : b'.parent = some i) :
    ∃ x, a'.startTagEnd = some x ∧ x ≤ b'.start ∧ b'.stop ≤ a'.stop := by
  rcases h.push_cases hs hb' with ⟨rfl, rfl⟩ | ⟨hj, b, _, hb, rfl⟩
  · -- It begins behind the start tag of the innermost open element, and both end with the text.
    obtain rfl : top = i := Option.some_inj.1 hparent
    have htop := (h.family.live top).1 (ne_of_eq_of_ne hs (Option.some_ne_none s))
    obtain ⟨a, _, ha, rfl⟩ := h.exists_of_push hs ha' htop
    obtain rfl : s = a := Option.some_inj.1 (hs.symm.trans ha)
    obtain ⟨x, hx, hle⟩ := h.exists_startTagEnd hs htag
    exact ⟨x, hx, hle, Nat.le_of_eq (h.opened hs List.mem_cons_self).1.symm⟩
  · have hlt := (h.lt_of_parent hb hparent).1
    obtain ⟨a, _, ha, rfl⟩ := h.exists_of_push hs ha' (Nat.lt_trans hlt hj)
    exact (h.inside_of_stays ha hb (.replaceChildren a _) (.replaceChildren b _) hparent :)

/-- When an element begins at the mark, children still stand in front of the next ones. -/
theorem siblings_push (h : Laid P length v size (top :: rest) mark) (hs : v top = some s)
    (ha' : v.push top s size (fresh length mark top) i = some a')
    (hb' : v.push top s size (fresh length mark top) j = some b') (hpa : a'.parent = some p)
    (hpb : b'.parent = some p) (hlt : i < j) : a'.stop ≤ b'.start := by
  rcases h.push_cases hs hb' with ⟨rfl, rfl⟩ | ⟨hj, b, _, hb, rfl⟩
  · -- The children from before are closed.
    obtain rfl : top = p := Option.some_inj.1 hpb
    obtain ⟨a, _, ha, rfl⟩ := h.exists_of_push hs ha' hlt
    exact (h.stop_le_of_parent ha hpa :)
  · obtain ⟨a, _, ha, rfl⟩ := h.exists_of_push hs ha' (Nat.lt_trans hlt hj)
    exact (h.siblings_of_stays ha hb (.replaceChildren a _) (.replaceChildren b _) hpa hpb hlt :)

/-- An element may begin at the mark in the innermost open element, once the start tag of that is
closed. The new mark is behind the old one. -/
theorem push (h : Laid P length v size (top :: rest) mark) (hs : v top = some s)
    (htag : s.startTagEnd ≠ none) {mark' : Nat} (hlt : mark < mark') (hlen : mark' ≤ length)
    (hmark : P mark) (hlength : P length) :
    Laid P length
      (Function.update (Function.update v top (some { s with children := s.children ++ [size] }))
        size (some (fresh length mark top)))
      (size + 1) (size :: top :: rest) mark' := by
  have hsize : top < size := (h.family.live top).1 (ne_of_eq_of_ne hs (Option.some_ne_none s))
  have hnone : v size = none := by_contra fun hne => Nat.lt_irrefl size ((h.family.live size).1 hne)
  have hforth : ∀ {j t}, v j = some t → ∃ children,
      v.push top s size (fresh length mark top) j = some { t with children } ∧
        t.children ⊆ children := Shapes.exists_push hs hnone
  exact
    { family := h.family.push hs rfl rfl
      stacked := .inner (Function.update_self ..) rfl hsize (h.stacked.congr fun ht => by
        obtain ⟨children, ht', -⟩ := hforth ht
        exact ⟨_, ht', rfl⟩)
      mark_le := hlen
      root := by
        obtain ⟨r, hr, hroot⟩ := h.root
        obtain ⟨children, hr', -⟩ := hforth hr
        exact ⟨_, hr', hroot⟩
      starts := h.starts_push hs
      opened := fun ht' hmem => by
        rcases h.push_cases hs ht' with ⟨-, rfl⟩ | ⟨hj, t, children, ht, rfl⟩
        · exact ⟨rfl, rfl, fun _ => fresh_below hlt⟩
        · obtain ⟨hend, hself, hbelow⟩ :=
            h.opened ht ((List.mem_cons.1 hmem).resolve_left (Nat.ne_of_lt hj))
          exact ⟨hend, hself, fun hroot =>
            ((hbelow hroot).mono (Nat.le_of_lt hlt)).replaceChildren children⟩
      closed := fun {j t'} ht' hmem => by
        have hjt : j ∉ top :: rest := fun hin => hmem (List.mem_cons_of_mem _ hin)
        -- The element that got a child is open.
        rcases Shapes.push_cases hs ht' with ⟨rfl, -⟩ | ⟨-, t, _, ht, rfl, rfl | ⟨rfl, -⟩⟩
        · exact absurd List.mem_cons_self hmem
        · obtain ⟨hend, hrest⟩ := h.closed ht hjt
          exact ⟨Nat.le_trans hend (Nat.le_of_lt hlt), hrest⟩
        · exact absurd List.mem_cons_self hjt
      unclosed := fun {j t'} ht' hopen => by
        rcases h.push_cases hs ht' with ⟨rfl, rfl⟩ | ⟨hj, t, children, ht, rfl⟩
        · exact ⟨rfl, rfl⟩
        · -- The start tag of the element it begins in was closed.
          obtain ⟨hhead, -⟩ := h.unclosed ht hopen
          obtain rfl : top = j := Option.some_inj.1 hhead
          obtain rfl : s = t := Option.some_inj.1 (hs.symm.trans ht)
          exact absurd hopen htag
      inside := h.inside_push hs htag
      siblings := h.siblings_push hs
      all := fun ht' => by
        rcases h.push_cases hs ht' with ⟨-, rfl⟩ | ⟨-, t, children, ht, rfl⟩
        · exact fresh_all hmark hlength
        · exact (h.all ht).replaceChildren children }

end Push

end Laid

end LayoutMarkup
