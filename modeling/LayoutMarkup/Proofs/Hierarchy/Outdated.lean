import LayoutMarkup.Proofs.Document.Geometry
import LayoutMarkup.Proofs.Hierarchy.Linked

/-!
# Outdated trees

Trees outlive the indices that they were made from. Operations with any indices, each with any
documents, are done one after another on one tree (`Tree.after`), so that its contributors may be
slots that are free or in use for something else. Each operation leaves the nodes linked
(`Sources.linked_evolves`), hence so do all of them, and an operation on linked nodes follows no
number that leads nowhere, unless it is asked to begin at one (`Operation.exists_apply_eq_ok`).
What holds of a tree and of what becomes of it, whichever operation is done, is proved once for all
operations (`Sources.Evolves`).
-/

namespace LayoutMarkup

namespace Document

/-- The root is there, and so is every element that another one lists. -/
def Complete (doc : Document) : Prop :=
  doc.get? .root ≠ none ∧
    ∀ id e, doc.get? id = some e → ∀ child ∈ e.children, doc.get? child ≠ none

/-- A document that was read is complete. -/
theorem complete_parse (name text : String) (schema : Schema) (rootType : Option TypeId) :
    (parse name text schema rootType).Complete := by
  have hplaced := isPlaced_parse name text schema rootType
  constructor
  · obtain ⟨r, hr, -⟩ := hplaced.root
    rw [hr]
    exact Option.some_ne_none r
  · intro id e he child hchild
    obtain ⟨f, hf, -⟩ := hplaced.child he hchild
    rw [hf]
    exact Option.some_ne_none f

end Document

namespace Hierarchy

open Selector (Fragment)

/-! ## Operations -/

/-- What is done with a tree. -/
inductive Operation where
  /-- Adds a node for an entry. -/
  | createRoot (entry : EntryId)
  /-- Builds the hierarchy of an entry. -/
  | buildNode (entry : EntryId)
  /-- Expands a node, as a whole or along names. -/
  | expand (id : NodeId) (names : Option (List String))
  /-- Expands a node by one level. -/
  | expandLevel (id : NodeId)
  /-- Asks for the elements in the declarations of a node. -/
  | rawChildren (id : NodeId)
  /-- Asks for tag and type of a node. -/
  | effectiveType (id : NodeId)
  /-- Asks for the frame type of a node. -/
  | frameType (id : NodeId)
  /-- Asks for the names down to a node. -/
  | path (id : NodeId)
  /-- Follows one fragment. -/
  | followFragment (id : NodeId) (fragment : Fragment)
  /-- Follows a selector. -/
  | select (id : NodeId) (fragments : List Fragment)
  /-- Looks for the child of a name. -/
  | childNode (id : NodeId) (name : String)
  /-- Looks for the children of a kind. -/
  | childrenOfKind (id : NodeId) (kind : Kind)

namespace Operation

/-- The node at which an operation begins. -/
def start? : Operation → Option NodeId
  | createRoot _ | buildNode _ => none
  | expand id _ | expandLevel id | rawChildren id | effectiveType id | frameType id | path id
  | followFragment id _ | select id _ | childNode id _ | childrenOfKind id _ => some id

/-- The tree that an operation leaves. -/
def apply (src : Sources) (t : Tree) : Operation → Except Fault Tree
  | createRoot entry => return ((src.createRoot? t entry).map (·.1)).getD t
  | buildNode entry => do return (← src.buildNode t entry).1
  | expand id names => src.expand t id names
  | expandLevel id => src.expandLevel t id
  | rawChildren id => do return (← src.rawChildren t id).1
  | effectiveType id => do
    let _ ← src.effectiveType? t id
    return t
  | frameType id => do
    let _ ← src.frameType? t id
    return t
  | path id => do
    let _ ← t.path id
    return t
  | followFragment id fragment => do return (← src.followFragment t id fragment).1
  | select id fragments => do return (← src.select t id fragments).1
  | childNode id name => do return (← src.childNode t id name).1
  | childrenOfKind id kind => do return (← src.childrenOfKind t id kind).1

/-- The tree that an operation leaves, or the tree as it was if there is a fault. -/
def run (src : Sources) (t : Tree) (op : Operation) : Tree :=
  match op.apply src t with
  | .ok t' => t'
  | .error _ => t

end Operation

/-- The tree that operations leave, each with its own index and documents. -/
def Tree.after (steps : List (Sources × Operation)) : Tree :=
  steps.foldl (fun t step => step.2.run step.1 t) {}

variable {src : Sources} {t t' : Tree} {id : NodeId}

/-! ## Questions -/

/-- What succeeds on each element of a list succeeds on the list. -/
theorem exists_mapM_eq_ok {ε α β : Type} {f : α → Except ε β} {l : List α}
    (hf : ∀ a ∈ l, ∃ b, f a = .ok b) : ∃ bs, l.mapM f = .ok bs := by
  induction l with
  | nil => exact ⟨[], rfl⟩
  | cons a l ih =>
    obtain ⟨hfirst, hrest⟩ := List.forall_mem_cons.1 hf
    obtain ⟨b, hb⟩ := hfirst
    obtain ⟨bs, hbs⟩ := ih hrest
    refine ⟨b :: bs, ?_⟩
    rw [List.mapM_cons, hb, hbs]
    rfl

/-- Elements can be picked from a list if each of them can be tested. -/
theorem exists_filterM_eq_ok {ε α : Type} {f : α → Except ε Bool} {l : List α}
    (hf : ∀ a ∈ l, ∃ b, f a = .ok b) : ∃ kept, l.filterM f = .ok kept := by
  have haux : ∀ picked : List α, ∃ kept, l.filterAuxM f picked = .ok kept := by
    induction l with
    | nil => exact fun picked => ⟨picked, rfl⟩
    | cons a l ih =>
      intro picked
      obtain ⟨hfirst, hrest⟩ := List.forall_mem_cons.1 hf
      obtain ⟨b, hb⟩ := hfirst
      obtain ⟨kept, hkept⟩ := ih hrest (cond b (a :: picked) picked)
      refine ⟨kept, ?_⟩
      rw [List.filterAuxM, hb]
      exact hkept
  obtain ⟨kept, hkept⟩ := haux []
  refine ⟨kept.reverse, ?_⟩
  rw [List.filterM, hkept]
  rfl

/-- The names down to a node can be told. -/
theorem Tree.Linked.exists_path_eq_ok (h : t.Linked) (hid : id < t.size) :
    ∃ names, t.path id = .ok names := by
  refine exists_mapM_eq_ok fun i hi => ?_
  have hlt : i < t.size := by
    rcases List.mem_cons.1 (List.mem_reverse.1 hi) with rfl | hi
    · exact hid
    · exact h.lt_size_of_mem_ancestors hid hi
  obtain ⟨n, hn⟩ := t.exists_node? hlt
  exact ⟨n.name, by rw [node_eq hn]; rfl⟩

namespace Sources

/-- The elements in the declarations of a node can be told. -/
theorem rawChildren_linked (src : Sources) (h : t.Linked) (hid : id < t.size) :
    ∃ t' found, src.rawChildren t id = .ok (t', found) ∧ t.Lengthens t' := by
  obtain ⟨n, hn⟩ := t.exists_node? hid
  rw [rawChildren, Tree.node_eq hn, ok_bind]
  split
  next found _ => exact ⟨t, found, rfl, h.same⟩
  next =>
    obtain ⟨t', hadj, h'⟩ := h.adjust hid (f := fun node =>
      { node with rawChildren := some (src.elementsIn n.contributors.elements) })
      (fun _ => rfl) (fun _ => rfl)
    refine ⟨t', src.elementsIn n.contributors.elements, ?_, h'⟩
    dsimp only
    rw [hadj]
    rfl

/-- The child of a name is looked for. -/
theorem childNode_linked (hs : src.index.Sound) (h : t.Linked) (hid : id < t.size)
    (name : String) : ∃ t' result, src.childNode t id name = .ok (t', result) ∧ t.Lengthens t' := by
  obtain ⟨t', hlevel, h'⟩ := expandLevel_linked hs h hid
  exact ⟨t', t'.child? id name, by rw [childNode, hlevel]; rfl, h'⟩

/-- The children of a kind are looked for. -/
theorem childrenOfKind_linked (hs : src.index.Sound) (h : t.Linked) (hid : id < t.size)
    (kind : Kind) :
    ∃ t' found, src.childrenOfKind t id kind = .ok (t', found) ∧ t.Lengthens t' := by
  obtain ⟨t', hlevel, h'⟩ := expandLevel_linked hs h hid
  obtain ⟨n, hn⟩ := t'.exists_node? (hid.trans_le h'.size_le)
  obtain ⟨found, hfound⟩ := exists_filterM_eq_ok (l := n.children.values)
    (f := fun child => do return decide ((← t'.node child).kind = kind)) fun c hc => by
      obtain ⟨⟨name, c⟩, hmem, rfl⟩ := List.mem_map.1 hc
      obtain ⟨m, hm⟩ := t'.exists_node? (h'.linked.child hn (OrderedMap.get?_eq_some_iff.2 hmem))
      exact ⟨decide (m.kind = kind), by rw [Tree.node_eq hm]; rfl⟩
  refine ⟨t', found, ?_, h'⟩
  rw [childrenOfKind, hlevel, ok_bind, Tree.node_eq hn, ok_bind, hfound]
  rfl

/-! ## Numbers that lead nowhere -/

/-- What asks for a node first fails if the node is not there. -/
theorem lt_size_of_node_bind {α : Type} {f : Node → Except Fault α} {a : α}
    (hok : t.node id >>= f = .ok a) : id < t.size := by
  by_contra hge
  rw [Tree.node_of_size_le (Nat.not_lt.1 hge)] at hok
  cases hok

/-- Only a node can be expanded. -/
theorem lt_size_of_expand {names : Option (List String)}
    (hok : src.expand t id names = .ok t') : id < t.size := by
  match names, hok with
  | none, hok => exact lt_size_of_node_bind hok
  | some [], hok => exact lt_size_of_node_bind hok
  | some (name :: names), hok =>
    obtain ⟨t₁, hname, -⟩ := exists_of_bind_eq_ok hok
    exact lt_size_of_node_bind hname

/-! ## Whatever is done -/

/-- A relation holds between a tree and what becomes of it, whichever operation is done: it is
enough to look at those that change a tree in their own way. -/
structure Evolves (src : Sources) (R : Tree → Tree → Prop) : Prop where
  /-- The tree may stay as it is. -/
  refl : ∀ t, R t t
  /-- Operations are done one after another. -/
  trans : ∀ {t t' t''}, R t t' → R t' t'' → R t t''
  /-- A root is added. -/
  createRoot : ∀ {t t' entry id}, src.createRoot? t entry = some (t', id) → R t t'
  /-- A node is expanded. -/
  expand : ∀ {t t' id names}, src.expand t id names = .ok t' → R t t'
  /-- The elements in the declarations of a node are asked for. -/
  rawChildren : ∀ {t t' id found}, src.rawChildren t id = .ok (t', found) → R t t'

namespace Evolves

variable {R : Tree → Tree → Prop}

/-- To expand a node by one level is to expand it along no names. -/
theorem expandLevel (h : src.Evolves R) (hok : src.expandLevel t id = .ok t') : R t t' :=
  h.expand (show src.expand t id (some []) = .ok t' from hok)

/-- To build the hierarchy of an entry is to add a root and to expand it. -/
theorem buildNode (h : src.Evolves R) {entry : EntryId} {result : Option NodeId}
    (hok : src.buildNode t entry = .ok (t', result)) : R t t' := by
  unfold Sources.buildNode at hok
  split at hok
  next =>
    cases hok
    exact h.refl t
  next top path _ =>
    split at hok
    next =>
      cases hok
      exact h.refl t
    next t₁ root hroot =>
      obtain ⟨t₂, hexpand, hok⟩ := exists_of_bind_eq_ok hok
      obtain ⟨found, -, hret⟩ := exists_of_bind_eq_ok hok
      cases hret
      exact h.trans (h.createRoot hroot) (h.expand hexpand)

/-- A handle leads to the hierarchy of an entry, or nowhere. -/
theorem handleNode (h : src.Evolves R) {handle : String} {result : Option NodeId}
    (hok : src.handleNode t handle = .ok (t', result)) : R t t' := by
  unfold Sources.handleNode at hok
  split at hok
  next =>
    cases hok
    exact h.refl t
  next d _ =>
    split at hok
    next =>
      cases hok
      exact h.refl t
    next doc _ =>
      obtain ⟨found, -, hok⟩ := exists_of_bind_eq_ok hok
      cases found with
      | none =>
        cases hok
        exact h.refl t
      | some entry => exact h.buildNode hok

/-- Of all fragments only a handle changes the tree. -/
theorem followFragment (h : src.Evolves R) {fragment : Fragment} {result : Option NodeId}
    (hok : src.followFragment t id fragment = .ok (t', result)) : R t t' := by
  cases fragment with
  | custom handle => exact h.handleNode hok
  | parent =>
    obtain ⟨_, -, hret⟩ := exists_of_bind_eq_ok hok
    cases hret
    exact h.refl t
  | ancestor predicate =>
    cases predicate <;>
    · obtain ⟨_, -, hret⟩ := exists_of_bind_eq_ok hok
      cases hret
      exact h.refl t
  | _ =>
    cases hok
    exact h.refl t

/-- Fragments are followed one after another, and a node is expanded before its child is looked
for. -/
theorem chain (h : src.Evolves R) {fragments : List Fragment} {nodes : List NodeId}
    (hok : src.chain t id fragments = .ok (t', nodes)) : R t t' := by
  induction fragments generalizing t id nodes with
  | nil =>
    cases hok
    exact h.refl _
  | cons fragment fragments ih =>
    obtain ⟨t₁, hprepare, hok⟩ := exists_of_bind_eq_ok hok
    -- Only the name of a child needs the level below the node.
    have h₁ : R t t₁ := by
      cases fragment with
      | child name => exact h.expandLevel hprepare
      | _ =>
        cases hprepare
        exact h.refl t
    obtain ⟨⟨t₂, result⟩, hfollow, hok⟩ := exists_of_bind_eq_ok hok
    have h₂ : R t t₂ := h.trans h₁ (h.followFragment hfollow)
    cases result with
    | none =>
      cases hok
      exact h₂
    | some next =>
      obtain ⟨⟨t₃, rest⟩, hchain, hok⟩ := exists_of_bind_eq_ok hok
      cases hok
      exact h.trans h₂ (ih hchain)

/-- Every operation that succeeds, wherever it begins. -/
theorem apply (h : src.Evolves R) {op : Operation} (hok : op.apply src t = .ok t') : R t t' := by
  cases op with
  | createRoot entry =>
    cases hok
    cases hroot : src.createRoot? t entry with
    | none => exact h.refl t
    | some created =>
      obtain ⟨t₁, root⟩ := created
      exact h.createRoot hroot
  | buildNode entry =>
    -- What an operation answers is dropped, and what is left is the tree.
    obtain ⟨⟨t₁, result⟩, hbuild, hret⟩ := exists_of_bind_eq_ok hok
    cases hret
    exact h.buildNode hbuild
  | expand id names => exact h.expand hok
  | expandLevel id => exact h.expandLevel hok
  | rawChildren id =>
    obtain ⟨⟨t₁, found⟩, hraw, hret⟩ := exists_of_bind_eq_ok hok
    cases hret
    exact h.rawChildren hraw
  | followFragment id fragment =>
    obtain ⟨⟨t₁, result⟩, hfollow, hret⟩ := exists_of_bind_eq_ok hok
    cases hret
    exact h.followFragment hfollow
  | select id fragments =>
    obtain ⟨⟨t₁, selection⟩, hselect, hret⟩ := exists_of_bind_eq_ok hok
    obtain ⟨⟨t₂, nodes⟩, hchain, hret'⟩ := exists_of_bind_eq_ok hselect
    cases hret
    cases hret'
    exact h.chain hchain
  | childNode id name =>
    obtain ⟨⟨t₁, result⟩, hchild, hret⟩ := exists_of_bind_eq_ok hok
    obtain ⟨t₂, hlevel, hret'⟩ := exists_of_bind_eq_ok hchild
    cases hret
    cases hret'
    exact h.expandLevel hlevel
  | childrenOfKind id kind =>
    obtain ⟨⟨t₁, found⟩, hfound, hret⟩ := exists_of_bind_eq_ok hok
    obtain ⟨t₂, hlevel, hrest⟩ := exists_of_bind_eq_ok hfound
    obtain ⟨n, -, hrest⟩ := exists_of_bind_eq_ok hrest
    obtain ⟨children, -, hret'⟩ := exists_of_bind_eq_ok hrest
    cases hret
    cases hret'
    exact h.expandLevel hlevel
  | _ =>
    -- A question leaves the tree as it was.
    obtain ⟨_, -, hret⟩ := exists_of_bind_eq_ok hok
    cases hret
    exact h.refl t

/-- An operation that fails leaves the tree as it was. -/
theorem run (h : src.Evolves R) (op : Operation) (t : Tree) : R t (op.run src t) := by
  unfold Operation.run
  split
  next t' hok => exact h.apply hok
  next => exact h.refl t

end Evolves

/-- Linked trees stay linked. -/
theorem linked_evolves (hs : src.index.Sound) : src.Evolves fun t t' => t.Linked → t'.Linked where
  refl _ h := h
  trans h h' := fun hlinked => h' (h hlinked)
  createRoot hroot h := (createRoot?_linked h hroot).1.linked
  expand := by
    intro t t' id names hok h
    obtain ⟨t₁, hexpand, h₁⟩ := expand_linked hs h (lt_size_of_expand hok) names
    cases hexpand.symm.trans hok
    exact h₁.linked
  rawChildren := by
    intro t t' id found hok h
    obtain ⟨t₁, found', hraw, h₁⟩ := rawChildren_linked src h (lt_size_of_node_bind hok)
    cases hraw.symm.trans hok
    exact h₁.linked

end Sources

namespace Operation

/-- An operation that begins at a node, or at none, succeeds and leaves a linked tree. -/
theorem exists_apply_eq_ok (hs : src.index.Sound) (h : t.Linked) (op : Operation)
    (hstart : ∀ id ∈ op.start?, id < t.size) : ∃ t', op.apply src t = .ok t' ∧ t.Lengthens t' := by
  cases op with
  | createRoot entry =>
    cases hroot : src.createRoot? t entry with
    | none => exact ⟨t, by rw [apply, hroot]; rfl, h.same⟩
    | some created =>
      obtain ⟨t', root⟩ := created
      exact ⟨t', by rw [apply, hroot]; rfl, (Sources.createRoot?_linked h hroot).1⟩
  | buildNode entry =>
    obtain ⟨t', result, hbuild, h', -⟩ := Sources.buildNode_linked hs h entry
    exact ⟨t', by rw [apply, hbuild]; rfl, h'⟩
  | expand id names => exact Sources.expand_linked hs h (hstart id rfl) names
  | expandLevel id => exact Sources.expandLevel_linked hs h (hstart id rfl)
  | rawChildren id =>
    obtain ⟨t', found, hraw, h'⟩ := Sources.rawChildren_linked src h (hstart id rfl)
    exact ⟨t', by rw [apply, hraw]; rfl, h'⟩
  | effectiveType id =>
    -- A question succeeds at any node that is there.
    obtain ⟨n, hn⟩ := t.exists_node? (hstart id rfl)
    exact ⟨t, by rw [apply, Sources.effectiveType?, Tree.node_eq hn]; rfl, h.same⟩
  | frameType id =>
    obtain ⟨n, hn⟩ := t.exists_node? (hstart id rfl)
    refine ⟨t, ?_, h.same⟩
    rw [apply, Sources.frameType?, Tree.node_eq hn, ok_bind]
    split <;> rfl
  | path id =>
    obtain ⟨names, hnames⟩ := h.exists_path_eq_ok (hstart id rfl)
    exact ⟨t, by rw [apply, hnames]; rfl, h.same⟩
  | followFragment id fragment =>
    obtain ⟨t', result, hfollow, h', -⟩ :=
      Sources.followFragment_linked hs h (hstart id rfl) fragment
    exact ⟨t', by rw [apply, hfollow]; rfl, h'⟩
  | select id fragments =>
    -- A selection that leads nowhere succeeds all the same.
    obtain ⟨t', nodes, hchain, h'⟩ := Sources.chain_linked hs h (hstart id rfl) fragments
    exact ⟨t', by rw [apply, Sources.select, hchain]; rfl, h'⟩
  | childNode id name =>
    obtain ⟨t', result, hchild, h'⟩ := Sources.childNode_linked hs h (hstart id rfl) name
    exact ⟨t', by rw [apply, hchild]; rfl, h'⟩
  | childrenOfKind id kind =>
    obtain ⟨t', found, hfound, h'⟩ := Sources.childrenOfKind_linked hs h (hstart id rfl) kind
    exact ⟨t', by rw [apply, hfound]; rfl, h'⟩

end Operation

/-! ## Histories -/

/-- Operations with sound indices leave a linked tree. -/
theorem Tree.linked_after (steps : List (Sources × Operation))
    (hsound : ∀ step ∈ steps, step.1.index.Sound) : (after steps).Linked := by
  exact List.foldlRecOn steps _ linked_empty fun t h step hstep =>
    (Sources.linked_evolves (hsound step hstep)).run step.2 t h

/-- An index that commands led to is used with a tree that operations led to, whatever indices and
documents these had. No command and no question about the index meets a fault, and no operation on
the tree does that begins at a node of it. The documents that are bound are complete. -/
theorem Sources.faultless_after (limit : Nat) (commands : List Index.Command) (src : Sources)
    (hindex : src.index = Index.run limit commands) (steps : List (Sources × Operation))
    (hsteps : ∀ step ∈ steps, ∃ limit commands, step.1.index = Index.run limit commands) :
    src.index.Faultless ∧
    (∀ op : Operation, (∀ id ∈ op.start?, id < (Tree.after steps).size) →
      ∃ t', op.apply src (Tree.after steps) = .ok t') ∧
    ∀ name text schema rootType, (Document.parse name text schema rootType).Complete := by
  have hs : src.index.Sound := hindex ▸ Index.sound_run limit commands
  have hlinked : (Tree.after steps).Linked := Tree.linked_after steps fun step hstep => by
    obtain ⟨limit, commands, hrun⟩ := hsteps step hstep
    exact hrun ▸ Index.sound_run limit commands
  refine ⟨hs.faultless, fun op hstart => ?_, Document.complete_parse⟩
  obtain ⟨t', hok, -⟩ := op.exists_apply_eq_ok hs hlinked hstart
  exact ⟨t', hok⟩

/-- The first document of `extended` was taken out and another one was bound in its place, but the
documents are still those of `extended`. -/
def replaced : Sources :=
  { extended with
    index := Index.run 1
      [.bind Index.frameSchema 0 (.parse "A"
        "<Frame name=\"M\" type=\"Button\"><Frame name=\"Child\"/></Frame>"
        Index.frameSchema (some 0)),
      .unbind 0,
      .bind Index.frameSchema 0 (.parse "C" "<Frame name=\"N\"/>" Index.frameSchema (some 0))] }

/-- The frame `M` was built. Its slot is that of another frame now and the slot of its child is
free, but the selector can be followed from the child. -/
theorem Sources.faultless_after_replaced :
    1 < (Tree.after [(extended, .buildNode 2)]).size ∧
    (extended.index.entry? 2).map (·.path) = some ["A", "M"] ∧
    (replaced.index.entry? 2).map (·.path) = some ["C", "N"] ∧ replaced.index.entry? 3 = none ∧
    ∃ t', (Operation.select 1 labelledChild).apply replaced
      (Tree.after [(extended, .buildNode 2)]) = .ok t' := by
  obtain ⟨hsize, hbefore, hnow, hfree⟩ : 1 < (Tree.after [(extended, .buildNode 2)]).size ∧
      (extended.index.entry? 2).map (·.path) = some ["A", "M"] ∧
      (replaced.index.entry? 2).map (·.path) = some ["C", "N"] ∧
      replaced.index.entry? 3 = none := by
    decide +kernel
  refine ⟨hsize, hbefore, hnow, hfree, (faultless_after 1 _ replaced rfl
    [(extended, .buildNode 2)] fun step hstep => ?_).2.1 (.select 1 labelledChild) ?_⟩
  · rw [List.mem_singleton.1 hstep]
    exact ⟨1, _, rfl⟩
  · rintro _ ⟨⟩
    exact hsize

end Hierarchy

end LayoutMarkup
