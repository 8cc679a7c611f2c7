import LayoutMarkup.Proofs.Hierarchy.Repetition
import LayoutMarkup.Proofs.Index.Faultless

/-!
# Linked trees

A tree may be older than the index that it is used with. Its contributors are numbers of slots, and
these may be free by then or hold other entries, so nothing that was true of a tree and the index it
was made from need be true any more.

What is left is that the nodes of a tree point at nodes of the tree (`Tree.Linked`). Every operation
that begins at a node keeps that, whatever documents it is given, and it is all that the operation
needs of the tree, as long as the entries of the index point at entries: a free slot is passed over,
and what is found in a slot leads only to entries that are there.
-/

namespace LayoutMarkup.Hierarchy

open Selector (Fragment)

variable {src : Sources} {t t' t'' : Tree} {id : NodeId}

/-! ## Linked trees -/

namespace Tree

/-- The nodes around a node are nodes of the tree. -/
structure Linked (t : Tree) : Prop where
  /-- A node below another one is there. -/
  child : ∀ {i n name c}, t.node? i = some n → n.children.get? name = some c → c < t.size
  /-- The node that a node stands below was made before it. -/
  parent : ∀ {i n p}, t.node? i = some n → n.parent = some p → p < i

/-- A tree was made from another one, whose nodes are still there. -/
structure Lengthens (t t' : Tree) : Prop where
  /-- The nodes of the new tree are linked. -/
  linked : t'.Linked
  /-- There are not fewer of them. -/
  size_le : t.size ≤ t'.size

/-- A tree that stays as it is. -/
theorem Linked.same (h : t.Linked) : t.Lengthens t :=
  ⟨h, Nat.le_refl _⟩

/-- Trees are made from trees step by step. -/
theorem Lengthens.trans (h : t.Lengthens t') (h' : t'.Lengthens t'') : t.Lengthens t'' :=
  ⟨h'.linked, h.size_le.trans h'.size_le⟩

/-- The tree without nodes is linked. -/
theorem linked_empty : Linked {} :=
  ⟨fun hn => absurd (lt_size_of_node? hn) (Nat.not_lt_zero _),
    fun hn => absurd (lt_size_of_node? hn) (Nat.not_lt_zero _)⟩

/-- There is no node behind the last one. -/
theorem node_of_size_le (h : t.size ≤ id) : t.node id = .error (.missingNode id) := by
  unfold node node?
  rw [Array.getElem?_eq_none h]

/-- A node may change what it says about itself, apart from the nodes around it. -/
theorem Linked.adjust (h : t.Linked) (hid : id < t.size) {f : Node → Node}
    (hparent : ∀ n, (f n).parent = n.parent) (hchildren : ∀ n, (f n).children = n.children) :
    ∃ t', t.adjust id f = .ok t' ∧ t.Lengthens t' := by
  obtain ⟨n, hn⟩ := t.exists_node? hid
  obtain ⟨t', hadj, hsize, hview⟩ := adjust_spec hn f
  -- Every node has the place and the nodes below it of a node before.
  have hback : ∀ {i m}, t'.node? i = some m → ∃ m₀, t.node? i = some m₀ ∧ m.parent = m₀.parent ∧
      m.children = m₀.children := by
    intro i m hm
    obtain ⟨rfl, rfl⟩ | ⟨-, hm⟩ := node?_of_update hview hm
    · exact ⟨n, hn, hparent n, hchildren n⟩
    · exact ⟨m, hm, rfl, rfl⟩
  refine ⟨t', hadj, ⟨fun hm hc => ?_, fun hm hp => ?_⟩, hsize.ge⟩
  · obtain ⟨m₀, hm₀, -, hch⟩ := hback hm
    rw [hch] at hc
    rw [hsize]
    exact h.child hm₀ hc
  · obtain ⟨m₀, hm₀, hpar, -⟩ := hback hm
    rw [hpar] at hp
    exact h.parent hm₀ hp

/-- A node without a parent may come behind the others. -/
theorem Linked.addRoot (h : t.Linked) (entry : EntryId) (name : String) (kind : Kind) :
    t.Lengthens (t.addRoot entry name kind).1 ∧ t.size < (t.addRoot entry name kind).1.size := by
  have hview : (t.addRoot entry name kind).1.node? = Function.update t.node? t.size
      (some { name, kind, parent := none, contributors := .singleton entry }) := t.node?_push _
  have hsize : (t.addRoot entry name kind).1.size = t.size + 1 := Array.size_push ..
  have hlt : t.size < (t.addRoot entry name kind).1.size := by omega
  refine ⟨⟨⟨fun {i n x c} hn hc => ?_, fun hn hp => ?_⟩, hlt.le⟩, hlt⟩
  · obtain ⟨-, rfl⟩ | ⟨-, hn⟩ := node?_of_update hview hn
    · exact absurd hc (Option.some_ne_none c).symm
    · exact (h.child hn hc).trans hlt
  · obtain ⟨-, rfl⟩ | ⟨-, hn⟩ := node?_of_update hview hn
    · exact absurd hp (Option.some_ne_none _).symm
    · exact h.parent hn hp

/-- An entry may contribute to a node below another one. -/
theorem Linked.addChild (h : t.Linked) (hid : id < t.size) (entry : EntryId) (name : String)
    (kind : Kind) : ∃ t', t.addChild id entry name kind = .ok t' ∧ t.Lengthens t' := by
  obtain ⟨n, hn⟩ := t.exists_node? hid
  cases hc : n.children.get? name with
  | some c =>
    -- The node under the name gets one more contributor.
    obtain ⟨t', hadj, hlen⟩ := h.adjust (h.child hn hc)
      (f := fun node => { node with contributors := node.contributors.insertFirst entry })
      (fun _ => rfl) (fun _ => rfl)
    refine ⟨t', ?_, hlen⟩
    rw [Tree.addChild, node_eq hn, ok_bind, hc]
    exact hadj
  | none =>
    obtain ⟨t', hadd, hsize, hview⟩ := addChild_of_none hn hc entry kind
    -- A node is the one above, the new one, or one that was there.
    have hcases : ∀ {i m}, t'.node? i = some m →
        i = id ∧ m = { n with children := n.children.insert name t.size } ∨
        i = t.size ∧ m = { name, kind, parent := some id, contributors := .singleton entry } ∨
        t.node? i = some m := by
      intro i m hm
      rw [hview] at hm
      by_cases hi : i = id
      · subst hi
        rw [Function.update_self] at hm
        exact Or.inl ⟨rfl, (Option.some.inj hm).symm⟩
      · rw [Function.update_of_ne hi] at hm
        by_cases hi' : i = t.size
        · subst hi'
          rw [Function.update_self] at hm
          exact Or.inr (Or.inl ⟨rfl, (Option.some.inj hm).symm⟩)
        · rw [Function.update_of_ne hi'] at hm
          exact Or.inr (Or.inr hm)
    have hlt : t.size < t'.size := by omega
    refine ⟨t', hadd, ⟨fun {i m x c} hm hx => ?_, fun {i m p} hm hp => ?_⟩, hlt.le⟩
    · obtain ⟨-, rfl⟩ | ⟨-, rfl⟩ | hm := hcases hm
      · rw [OrderedMap.get?_insert] at hx
        split at hx
        next =>
          cases hx
          exact hlt
        next => exact (h.child hn hx).trans hlt
      · exact absurd hx (Option.some_ne_none c).symm
      · exact (h.child hm hx).trans hlt
    · obtain ⟨rfl, rfl⟩ | ⟨rfl, rfl⟩ | hm := hcases hm
      · exact h.parent hn hp
      · cases hp
        exact hid
      · exact h.parent hm hp

/-- Ancestors are there. -/
theorem Linked.lt_size_of_mem_ancestors (h : t.Linked) (hid : id < t.size) {p : NodeId}
    (hp : p ∈ t.ancestors id) : p < t.size := by
  induction id using Nat.strong_induction_on with
  | h id ih =>
    obtain ⟨n, hn⟩ := t.exists_node? hid
    cases hparent : n.parent with
    | none =>
      rw [ancestors_of_parent_eq_none hn hparent] at hp
      exact absurd hp List.not_mem_nil
    | some q =>
      have hlt := h.parent hn hparent
      rw [ancestors_of_parent_eq_some hn hparent hlt, List.mem_cons] at hp
      rcases hp with rfl | hp
      · exact hlt.trans hid
      · exact ih q hlt (hlt.trans hid) hp

/-- Names lead to a node that is there, and so are the nodes on the way. -/
theorem descendant_of_linked (h : t.Linked) (hid : id < t.size) (names : List String) :
    t.descendant id names = .ok (t.descendant? id names) ∧
      ∀ c ∈ t.descendant? id names, c < t.size := by
  refine descendant_spec (P := (· < t.size)) (fun hi => ?_) hid names
  obtain ⟨n, hn⟩ := t.exists_node? hi
  exact ⟨n, hn, h.child hn⟩

end Tree

namespace Sources

/-! ## Expansion -/

/-- A node is given all the contributors that come with those it has. -/
theorem closeContributors_linked (src : Sources) (h : t.Linked) (hid : id < t.size) :
    ∃ t', src.closeContributors t id = .ok t' ∧ t.Lengthens t' :=
  h.adjust hid (fun _ => rfl) (fun _ => rfl)

/-- Nodes are made for what the contributors of a node offer. A contributor that is not there any
more offers nothing, and what another one offers is there. -/
theorem materialize_linked (hs : src.index.Sound) (h : t.Linked) (hid : id < t.size)
    (only : Option String) : ∃ t', src.materialize only t id = .ok t' ∧ t.Lengthens t' := by
  obtain ⟨n, hn⟩ := t.exists_node? hid
  rw [materialize, Tree.node_eq hn, ok_bind]
  refine Index.exists_foldlM_eq_ok (P := fun _ t' => t.Lengthens t')
    (fun {_ t₁ a} _ h₁ => ?_) [] h.same
  rw [addChildren_eq]
  refine Index.exists_foldlM_eq_ok (P := fun _ t' => t.Lengthens t')
    (fun {_ t₂ offer} hoffer h₂ => ?_) [] h₁
  obtain ⟨name, b⟩ := offer
  obtain ⟨e, he⟩ := Option.ne_none_iff_exists'.1
    (Index.entry?_of_child? hs.ordered.rooted (mem_offers.1 hoffer).2)
  obtain ⟨t₃, hadd, h₃⟩ :=
    h₂.linked.addChild (hid.trans_le h₂.size_le) b name (.ofEntryKind e.kind)
  refine ⟨t₃, ?_, h₂.trans h₃⟩
  show (src.index.entry b >>= fun e => t₂.addChild id b name (.ofEntryKind e.kind)) = _
  rw [Index.entry_eq he]
  exact hadd

/-- All nodes directly below a node are made. -/
theorem buildLevel_linked (hs : src.index.Sound) (h : t.Linked) (hid : id < t.size) :
    ∃ t', src.buildLevel t id = .ok t' ∧ t.Lengthens t' := by
  obtain ⟨t₁, hmat, h₁⟩ := materialize_linked hs h hid none
  obtain ⟨t₂, hadj, h₂⟩ := h₁.linked.adjust (hid.trans_le h₁.size_le)
    (f := fun node => { node with built := true }) (fun _ => rfl) (fun _ => rfl)
  exact ⟨t₂, by rw [buildLevel, hmat, ok_bind, hadj], h₁.trans h₂⟩

/-- A node is expanded by one level. -/
theorem expandLevel_linked (hs : src.index.Sound) (h : t.Linked) (hid : id < t.size) :
    ∃ t', src.expandLevel t id = .ok t' ∧ t.Lengthens t' := by
  obtain ⟨n, hn⟩ := t.exists_node? hid
  rw [expandLevel, Tree.node_eq hn, ok_bind]
  split
  next => exact ⟨t, rfl, h.same⟩
  next =>
    obtain ⟨t₁, hclose, h₁⟩ := closeContributors_linked src h hid
    obtain ⟨t₂, hbuild, h₂⟩ := buildLevel_linked hs h₁.linked (hid.trans_le h₁.size_le)
    exact ⟨t₂, by rw [hclose, ok_bind, hbuild], h₁.trans h₂⟩

/-- A node is expanded by one name. -/
theorem expandName_linked (hs : src.index.Sound) (h : t.Linked) (hid : id < t.size)
    (name : String) : ∃ t', src.expandName t id name = .ok t' ∧ t.Lengthens t' := by
  obtain ⟨n, hn⟩ := t.exists_node? hid
  rw [expandName, Tree.node_eq hn, ok_bind]
  split
  next => exact ⟨t, rfl, h.same⟩
  next =>
    obtain ⟨t₁, hclose, h₁⟩ := closeContributors_linked src h hid
    obtain ⟨t₂, hmat, h₂⟩ :=
      materialize_linked hs h₁.linked (hid.trans_le h₁.size_le) (some name)
    exact ⟨t₂, by rw [hclose, ok_bind, hmat], h₁.trans h₂⟩

/-- A node is expanded along a path. -/
theorem expandPath_linked (hs : src.index.Sound) (h : t.Linked) (hid : id < t.size) (depth : Nat)
    (path : List String) : ∃ t', src.expandPath depth t id path = .ok t' ∧ t.Lengthens t' := by
  induction depth generalizing t id path with
  | zero => exact ⟨t, rfl, h.same⟩
  | succ depth ih =>
    cases path with
    | nil => exact expandLevel_linked hs h hid
    | cons name path =>
      obtain ⟨t₁, hname, h₁⟩ := expandName_linked hs h hid name
      obtain ⟨n₁, hn₁⟩ := t₁.exists_node? (hid.trans_le h₁.size_le)
      simp only [expandPath, hname, ok_bind, Tree.node_eq hn₁]
      cases hc : n₁.children.get? name with
      | none => exact ⟨t₁, rfl, h₁⟩
      | some c =>
        obtain ⟨t₂, hpath, h₂⟩ := ih h₁.linked (h₁.linked.child hn₁ hc) path
        exact ⟨t₂, hpath, h₁.trans h₂⟩

/-- A node is expanded as a whole. -/
theorem expandAll_linked (hs : src.index.Sound) (h : t.Linked) (hid : id < t.size) (depth : Nat)
    (lineage : List EntryId) :
    ∃ t', src.expandAll depth lineage t id = .ok t' ∧ t.Lengthens t' := by
  induction depth generalizing t id lineage with
  | zero => exact ⟨t, rfl, h.same⟩
  | succ depth ih =>
    -- The nodes below are expanded one by one, in trees that have only grown.
    have hbelow : ∀ {t : Tree} {n : Node}, t.Linked → t.node? id = some n →
        ∃ t', n.children.values.foldlM
          (src.expandAll depth (lineage ++ n.contributors.elements)) t = .ok t' ∧
          t.Lengthens t' := by
      intro t n h hn
      refine Index.exists_foldlM_eq_ok (P := fun _ t' => t.Lengthens t')
        (fun {_ t₁ c} hc h₁ => ?_) [] h.same
      obtain ⟨⟨name, c⟩, hmem, rfl⟩ := List.mem_map.1 hc
      have hlt := h.child hn (OrderedMap.get?_eq_some_iff.2 hmem)
      obtain ⟨t₂, hall, h₂⟩ := ih h₁.linked (hlt.trans_le h₁.size_le) _
      exact ⟨t₂, hall, h₁.trans h₂⟩
    obtain ⟨n, hn⟩ := t.exists_node? hid
    simp only [expandAll, Tree.node_eq hn, ok_bind]
    split
    next => exact hbelow h hn
    next =>
      -- A node that is not built is closed first. Then it stays a bud or gets its children.
      obtain ⟨t₁, hclose, h₁⟩ := closeContributors_linked src h hid
      obtain ⟨n₁, hn₁⟩ := t₁.exists_node? (hid.trans_le h₁.size_le)
      simp only [hclose, ok_bind, Tree.node_eq hn₁]
      split
      next => exact ⟨t₁, rfl, h₁⟩
      next =>
        obtain ⟨t₂, hbuild, h₂⟩ := buildLevel_linked hs h₁.linked (hid.trans_le h₁.size_le)
        have h₁₂ := h₁.trans h₂
        obtain ⟨n₂, hn₂⟩ := t₂.exists_node? (hid.trans_le h₁₂.size_le)
        obtain ⟨t₃, hfold, h₃⟩ := hbelow h₁₂.linked hn₂
        refine ⟨t₃, ?_, h₁₂.trans h₃⟩
        rw [hbuild, ok_bind, Tree.node_eq hn₂]
        exact hfold

/-- A node is expanded. -/
theorem expand_linked (hs : src.index.Sound) (h : t.Linked) (hid : id < t.size)
    (path : Option (List String)) : ∃ t', src.expand t id path = .ok t' ∧ t.Lengthens t' := by
  cases path with
  | none => exact expandAll_linked hs h hid _ _
  | some path => exact expandPath_linked hs h hid _ path

/-! ## Building -/

/-- A root is added for an entry, if there is one in the slot. -/
theorem createRoot?_linked (h : t.Linked) {entry : EntryId} {root : NodeId}
    (hroot : src.createRoot? t entry = some (t', root)) : t.Lengthens t' ∧ root < t'.size := by
  obtain ⟨e, -, hadd⟩ := Option.map_eq_some_iff.1 hroot
  cases hadd
  exact h.addRoot entry e.name (.ofEntryKind e.kind)

/-- The hierarchy of an entry is built, whatever is in the slot. -/
theorem buildNode_linked (hs : src.index.Sound) (h : t.Linked) (entry : EntryId) :
    ∃ t' result, src.buildNode t entry = .ok (t', result) ∧ t.Lengthens t' ∧
      ∀ c ∈ result, c < t'.size := by
  have hnone : ∀ c ∈ (none : Option NodeId), c < t.size := fun c hc => absurd hc (by simp)
  unfold buildNode
  cases src.context? entry with
  | none => exact ⟨t, none, rfl, h.same, hnone⟩
  | some context =>
    obtain ⟨top, path⟩ := context
    dsimp only
    cases hroot : src.createRoot? t top with
    | none => exact ⟨t, none, rfl, h.same, hnone⟩
    | some created =>
      obtain ⟨t₁, root⟩ := created
      -- The root is a node of the tree that has it, the expansion keeps it, and from there on all
      -- ids are in the tree.
      obtain ⟨h₁, hlt⟩ := createRoot?_linked h hroot
      obtain ⟨t₂, hexpand, h₂⟩ := expand_linked hs h₁.linked hlt (some path)
      obtain ⟨hdown, hbounds⟩ :=
        Tree.descendant_of_linked h₂.linked (hlt.trans_le h₂.size_le) path
      refine ⟨t₂, t₂.descendant? root path, ?_, h₁.trans h₂, hbounds⟩
      dsimp only
      rw [hexpand, ok_bind, hdown]
      rfl

/-! ## Selection -/

/-- The node of a handle is built, also when the documents are not those that were bound. -/
theorem handleNode_linked (hs : src.index.Sound) (h : t.Linked) (handle : String) :
    ∃ t' result, src.handleNode t handle = .ok (t', result) ∧ t.Lengthens t' ∧
      ∀ c ∈ result, c < t'.size := by
  have hnone : ∃ t' result, (.ok (t, none) : Except Fault (Tree × Option NodeId)) =
      .ok (t', result) ∧ t.Lengthens t' ∧ ∀ c ∈ result, c < t'.size :=
    ⟨t, none, rfl, h.same, fun c hc => absurd hc (by simp)⟩
  unfold handleNode
  split
  next => exact hnone
  next d _ =>
    split
    next => exact hnone
    next doc _ =>
      obtain ⟨found, hfound⟩ := hs.faultless.entryOfElement? d.document doc d.element none
      rw [hfound, ok_bind]
      cases found with
      | none => exact hnone
      | some entry => exact buildNode_linked hs h entry

/-- The nearest ancestor of a node that fulfils a predicate is looked for. -/
theorem ancestor?_linked (src : Sources) (h : t.Linked) (hid : id < t.size)
    (predicate : Selector.Predicate) :
    ∃ result, src.ancestor? t id predicate = .ok result ∧ ∀ c ∈ result, c < t.size := by
  obtain ⟨n, hn⟩ := t.exists_node? hid
  obtain ⟨result, hfind, hmem, -⟩ := exists_findM?_eq_ok (f := src.fulfils t predicate)
    (l := t.ancestors id) fun p hp => by
      obtain ⟨m, hm⟩ := t.exists_node? (h.lt_size_of_mem_ancestors hid hp)
      exact exists_fulfils_eq_ok hm predicate
  refine ⟨result, by rw [ancestor?, Tree.node_eq hn]; exact hfind, fun c hc => ?_⟩
  exact h.lt_size_of_mem_ancestors hid (hmem c hc)

/-- A fragment is followed from a node that is there. -/
theorem followFragment_linked (hs : src.index.Sound) (h : t.Linked) (hid : id < t.size)
    (fragment : Fragment) : ∃ t' result, src.followFragment t id fragment = .ok (t', result) ∧
      t.Lengthens t' ∧ ∀ c ∈ result, c < t'.size := by
  obtain ⟨n, hn⟩ := t.exists_node? hid
  have hparent : ∀ c ∈ n.parent, c < t.size := fun c hc => (h.parent hn hc).trans hid
  have hself : ∀ c ∈ some id, c < t.size := by
    rintro c ⟨⟩
    exact hid
  have hnone : ∀ c ∈ (none : Option NodeId), c < t.size := fun c hc => absurd hc (by simp)
  -- Fragments that lead up, or to the node itself, leave the tree as it is.
  have hup : (do return (t, (← t.node id).parent) : Except Fault (Tree × Option NodeId)) =
      .ok (t, n.parent) := by
    rw [Tree.node_eq hn]
    rfl
  cases fragment with
  | ancestor predicate =>
    cases predicate with
    | none => exact ⟨t, n.parent, hup, h.same, hparent⟩
    | some predicate =>
      obtain ⟨result, hfound, hlt⟩ := ancestor?_linked src h hid predicate
      exact ⟨t, result, by rw [followFragment, hfound]; rfl, h.same, hlt⟩
  | parent => exact ⟨t, n.parent, hup, h.same, hparent⟩
  | this => exact ⟨t, some id, rfl, h.same, hself⟩
  | sibling offset => exact ⟨t, some id, rfl, h.same, hself⟩
  | child name =>
    refine ⟨t, t.child? id name, rfl, h.same, fun c hc => ?_⟩
    obtain ⟨m, hm, hget⟩ := Option.bind_eq_some_iff.1 hc
    exact h.child hm hget
  -- A handle is the only fragment that builds something.
  | custom handle => exact handleNode_linked hs h handle
  | layer => exact ⟨t, none, rfl, h.same, hnone⟩
  | root => exact ⟨t, none, rfl, h.same, hnone⟩

/-- A node is expanded before a fragment is followed. -/
theorem prepare_linked (hs : src.index.Sound) (h : t.Linked) (hid : id < t.size)
    (fragment : Fragment) : ∃ t', src.prepare t id fragment = .ok t' ∧ t.Lengthens t' := by
  cases fragment with
  | child name => exact expandLevel_linked hs h hid
  | _ => exact ⟨t, rfl, h.same⟩

/-- Fragments are followed from a node that is there. -/
theorem chain_linked (hs : src.index.Sound) (h : t.Linked) (hid : id < t.size)
    (fragments : List Fragment) :
    ∃ t' nodes, src.chain t id fragments = .ok (t', nodes) ∧ t.Lengthens t' := by
  induction fragments generalizing t id with
  | nil => exact ⟨t, [], rfl, h.same⟩
  | cons f fragments ih =>
    obtain ⟨t₁, hprepare, h₁⟩ := prepare_linked hs h hid f
    obtain ⟨t₂, result, hfollow, h₂, hlt⟩ :=
      followFragment_linked hs h₁.linked (hid.trans_le h₁.size_le) f
    rw [chain, hprepare, ok_bind, hfollow, ok_bind]
    cases result with
    | none => exact ⟨t₂, [], rfl, h₁.trans h₂⟩
    | some next =>
      obtain ⟨t₃, nodes, hchain, h₃⟩ := ih h₂.linked (hlt next rfl)
      refine ⟨t₃, next :: nodes, ?_, (h₁.trans h₂).trans h₃⟩
      dsimp only
      rw [hchain]
      rfl

end Sources

end LayoutMarkup.Hierarchy
