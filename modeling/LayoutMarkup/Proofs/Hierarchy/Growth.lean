import LayoutMarkup.Proofs.Hierarchy.Contributors
import LayoutMarkup.Proofs.Index.Accounting

/-!
# How trees grow

A tree is seen through `node?`, and each operation on nodes has one statement about that view. A
tree that was made from an index is coherent (`Coherent`): nodes and the nodes below them point at
each other, a node below another has what the contributors of the other one have under its name, and
the contributors of a node with nodes below it are all that come with them. Expansion keeps a tree
coherent, and it never fails (`expandLevel_spec`, `expandName_spec`, `expandPath_spec`,
`expandAll_spec`). What it does to the nodes that were there is `Node.Grows`: they keep their names,
kinds and places, and a node whose nodes below are all there does not change any more.

All this is said of the nodes from a number `base` on. The nodes before it may be anything, for they
are not touched.
-/

namespace LayoutMarkup.Hierarchy

/-! ## The view of a tree -/

namespace Tree

/-- Trees with the same nodes are the same. -/
theorem ext_node? {t t' : Tree} (h : t'.node? = t.node?) : t' = t := by
  obtain ⟨nodes⟩ := t
  obtain ⟨nodes'⟩ := t'
  exact congrArg Tree.mk (Array.ext_getElem? fun i => congrFun h i)

/-- Behind the nodes there is none. -/
theorem lt_size_of_node? {t : Tree} {id : NodeId} {n : Node} (h : t.node? id = some n) :
    id < t.size :=
  (Array.getElem?_eq_some_iff.1 h).1

/-- Every number below the size has a node. -/
theorem exists_node? {t : Tree} {id : NodeId} (h : id < t.size) : ∃ n, t.node? id = some n :=
  ⟨t.nodes[id], Array.getElem?_eq_getElem h⟩

/-- The node with a number that is there. -/
theorem node_eq {t : Tree} {id : NodeId} {n : Node} (h : t.node? id = some n) :
    t.node id = .ok n := by
  unfold node
  rw [h]

/-- Changing a node that is there succeeds and is seen in its place only. -/
theorem adjust_spec {t : Tree} {id : NodeId} {n : Node} (h : t.node? id = some n)
    (f : Node → Node) : ∃ t', t.adjust id f = .ok t' ∧ t'.size = t.size ∧
      t'.node? = Function.update t.node? id (some (f n)) := by
  refine ⟨⟨t.nodes.setIfInBounds id (f n)⟩, by rw [adjust, node_eq h]; rfl,
    Array.size_setIfInBounds .., ?_⟩
  funext j
  unfold node?
  rw [Array.getElem?_setIfInBounds]
  by_cases hj : id = j
  · subst hj
    rw [if_pos rfl, if_pos (show id < t.nodes.size from lt_size_of_node? h), Function.update_self]
  · rw [if_neg hj, Function.update_of_ne (fun hji => hj hji.symm)]

/-- After one number was given a node, a node is that one or was there before. -/
theorem node?_of_update {t t' : Tree} {id i : NodeId} {n m : Node}
    (hview : t'.node? = Function.update t.node? id (some n)) (hm : t'.node? i = some m) :
    i = id ∧ m = n ∨ i ≠ id ∧ t.node? i = some m := by
  rw [hview] at hm
  by_cases hi : i = id
  · rw [hi, Function.update_self] at hm
    exact Or.inl ⟨hi, (Option.some.inj hm).symm⟩
  · rw [Function.update_of_ne hi] at hm
    exact Or.inr ⟨hi, hm⟩

/-- A new node comes behind the others. -/
theorem node?_push (t : Tree) (n : Node) :
    node? ⟨t.nodes.push n⟩ = Function.update t.node? t.size (some n) := by
  funext j
  unfold node?
  rw [Array.getElem?_push]
  by_cases hj : j = t.size
  · rw [hj, Function.update_self, if_pos (show t.size = t.nodes.size from rfl)]
  · rw [Function.update_of_ne hj, if_neg (show j ≠ t.nodes.size from hj)]

/-- An entry comes in front of the contributors of the node of its name. -/
theorem addChild_of_some {t : Tree} {id c : NodeId} {n m : Node} {name : String}
    (hn : t.node? id = some n) (hc : n.children.get? name = some c) (hm : t.node? c = some m)
    (entry : EntryId) (kind : Kind) :
    ∃ t', t.addChild id entry name kind = .ok t' ∧ t'.size = t.size ∧ t'.node? =
      Function.update t.node? c
        (some { m with contributors := m.contributors.insertFirst entry }) := by
  obtain ⟨t', hadj, hsize, hview⟩ := adjust_spec hm fun m =>
    { m with contributors := m.contributors.insertFirst entry }
  refine ⟨t', ?_, hsize, hview⟩
  rw [addChild, node_eq hn, ok_bind, hc]
  exact hadj

/-- A node is made for a name that has none. -/
theorem addChild_of_none {t : Tree} {id : NodeId} {n : Node} {name : String}
    (hn : t.node? id = some n) (hc : n.children.get? name = none) (entry : EntryId) (kind : Kind) :
    ∃ t', t.addChild id entry name kind = .ok t' ∧ t'.size = t.size + 1 ∧ t'.node? =
      Function.update (Function.update t.node? t.size
        (some { name, kind, parent := some id, contributors := .singleton entry })) id
        (some { n with children := n.children.insert name t.size }) := by
  have hpush := t.node?_push { name, kind, parent := some id, contributors := .singleton entry }
  have hn' : node? ⟨t.nodes.push
      { name, kind, parent := some id, contributors := .singleton entry }⟩ id = some n := by
    rw [hpush, Function.update_of_ne (Nat.ne_of_lt (lt_size_of_node? hn)), hn]
  obtain ⟨t', hadj, hsize, hview⟩ := adjust_spec hn' fun node =>
    { node with children := node.children.insert name t.size }
  refine ⟨t', ?_, ?_, ?_⟩
  · rw [addChild, node_eq hn, ok_bind, hc]
    exact hadj
  · rw [hsize]
    exact Array.size_push ..
  · rw [hview, hpush]

/-- A node without a parent has no ancestors. -/
theorem ancestors_of_parent_eq_none {t : Tree} {id : NodeId} {n : Node} (hn : t.node? id = some n)
    (hp : n.parent = none) : t.ancestors id = [] := by
  rw [ancestors, hn, Option.bind_some, hp]

/-- The parent of a node comes before its own ancestors. -/
theorem ancestors_of_parent_eq_some {t : Tree} {id p : NodeId} {n : Node} (hn : t.node? id = some n)
    (hp : n.parent = some p) (hlt : p < id) : t.ancestors id = p :: t.ancestors p := by
  rw [ancestors, hn, Option.bind_some, hp]
  exact if_pos hlt

/-- If nodes with a property are there and the nodes below them have it too, names lead from one of
them to one of them, or nowhere, and all nodes on the way are there. -/
theorem descendant_spec {t : Tree} {P : NodeId → Prop} (hP : ∀ {i}, P i → ∃ n, t.node? i = some n ∧
      ∀ {name c}, n.children.get? name = some c → P c)
    {id : NodeId} (hid : P id) (names : List String) :
    t.descendant id names = .ok (t.descendant? id names) ∧
      ∀ c ∈ t.descendant? id names, P c := by
  induction names generalizing id with
  | nil =>
    refine ⟨rfl, ?_⟩
    rintro c ⟨⟩
    exact hid
  | cons name names ih =>
    obtain ⟨n, hn, hbelow⟩ := hP hid
    have hstep : t.descendant? id (name :: names) =
        (n.children.get? name).bind (t.descendant? · names) := by
      rw [descendant?, List.foldlM_cons, child?, hn]
      rfl
    rw [descendant, node_eq hn, ok_bind, hstep]
    cases hc : n.children.get? name with
    | none => exact ⟨rfl, fun c hc => absurd hc (Option.not_mem_none c)⟩
    | some c => exact ih (hbelow hc)

end Tree

/-! ## Entries -/

end LayoutMarkup.Hierarchy

namespace LayoutMarkup.Index

/-- Names lead from an entry to an entry whose path they continue. -/
theorem exists_entry_of_lookupNames {ix : Index} (h : Entries.Rooted ix.entry?)
    {names : List String} {scope id : EntryId} {s : Entry} (hs : ix.entry? scope = some s)
    (hid : ix.lookupNames? scope names = some id) :
    ∃ e, ix.entry? id = some e ∧ e.path = s.path ++ names := by
  induction names generalizing scope s with
  | nil =>
    cases hid
    exact ⟨s, hs, (List.append_nil _).symm⟩
  | cons name names ih =>
    obtain ⟨c, hc, hrest⟩ := Option.bind_eq_some_iff.1 hid
    rw [child?, hs, Option.bind_some] at hc
    obtain ⟨e, he, -, hpath⟩ := h.child hs hc
    obtain ⟨f, hf, hpath'⟩ := ih he hrest
    exact ⟨f, hf, by rw [hpath', hpath, List.append_assoc, List.singleton_append]⟩

/-- The entry of a name in an entry is there. -/
theorem entry?_of_child? {ix : Index} (h : Entries.Rooted ix.entry?) {scope id : EntryId}
    {name : String} (hid : ix.child? scope name = some id) : ix.entry? id ≠ none := by
  obtain ⟨s, hs, hget⟩ := Option.bind_eq_some_iff.1 hid
  obtain ⟨e, he, -⟩ := h.child hs hget
  rw [he]
  exact Option.some_ne_none e

end LayoutMarkup.Index

namespace LayoutMarkup.Hierarchy

namespace Sources

variable {src : Sources}

/-- What an entry leads to is there. -/
theorem entry?_of_leads (h : src.index.Sound) {a b : EntryId} (hlead : src.Leads a b) :
    src.index.entry? b ≠ none := by
  rcases hlead with hext | htemplate
  · exact h.entry?_of_mem_extensionsOf hext
  · unfold template? at htemplate
    obtain ⟨e, -, htemplate⟩ := Option.bind_eq_some_iff.1 htemplate
    obtain ⟨path, -, htemplate⟩ := Option.bind_eq_some_iff.1 htemplate
    obtain ⟨-, -, hlookup⟩ := Option.bind_eq_some_iff.1 htemplate
    obtain ⟨root, hroot, -⟩ := h.ordered.rooted.root
    obtain ⟨e, he, -⟩ := Index.exists_entry_of_lookupNames h.ordered.rooted hroot hlookup
    rw [he]
    exact Option.some_ne_none e

/-- The contributors that come with entries are what these reach. -/
theorem mem_contributors (h : src.index.Sound) {ids : List EntryId} {a : EntryId} :
    a ∈ src.contributors ids ↔ ∃ id ∈ ids, src.index.entry? id ≠ none ∧ src.Reaches id a :=
  mem_contributors_iff fun _ _ => entry?_of_leads h

/-- Entries that are there contribute to what comes with them. -/
theorem mem_contributors_of_mem (h : src.index.Sound) {ids : List EntryId} {a : EntryId}
    (ha : a ∈ ids) (hlive : src.index.entry? a ≠ none) : a ∈ src.contributors ids :=
  (mem_contributors h).2 ⟨a, ha, hlive, Relation.ReflTransGen.refl⟩

/-- The same entries come with contributors as with what these came with. -/
theorem mem_contributors_contributors (h : src.index.Sound) {ids : List EntryId} {a : EntryId} :
    a ∈ src.contributors (src.contributors ids).elements ↔ a ∈ src.contributors ids := by
  refine ⟨fun ha => ?_, fun ha => mem_contributors_of_mem h ha (entry?_of_mem_contributors ha)⟩
  obtain ⟨b, hb, -, hreach⟩ := (mem_contributors h).1 ha
  obtain ⟨id, hid, hlive, hreach'⟩ := (mem_contributors h).1 hb
  exact (mem_contributors h).2 ⟨id, hid, hlive, hreach'.trans hreach⟩

/-- An entry that is not there leads nowhere. -/
theorem not_leads_of_eq_none {a b : EntryId} (h : src.index.entry? a = none) :
    ¬ src.Leads a b := by
  rintro (hext | htemplate)
  · rw [Index.extensionsOf, Index.pathOf, h] at hext
    exact absurd hext List.not_mem_nil
  · rw [template?, firstElement?, h] at htemplate
    exact absurd htemplate (Option.some_ne_none b).symm

/-- No entry is reached from one of its own extensions. -/
def Untangled (src : Sources) : Prop :=
  ∀ a, ∀ b ∈ src.index.extensionsOf a, ¬ src.Reaches b a

/-- No entry of a set is reached from one of its own extensions. -/
def Calm (src : Sources) (s : OrderedSet EntryId) : Prop :=
  ∀ a ∈ s, ∀ b ∈ src.index.extensionsOf a, ¬ src.Reaches b a

/-- A set of entries is all that comes with some entries. -/
def Closed (src : Sources) (s : OrderedSet EntryId) : Prop :=
  ∃ ids, s = src.contributors ids

/-- Where all is untangled, every set is calm. -/
theorem Untangled.calm (h : src.Untangled) (s : OrderedSet EntryId) : src.Calm s :=
  fun a _ => h a

/-- What a closed set leads to belongs to it. -/
theorem Closed.mem_of_leads (hs : src.index.Sound) {s : OrderedSet EntryId} (h : src.Closed s)
    {a b : EntryId} (ha : a ∈ s) (hlead : src.Leads a b) : b ∈ s := by
  obtain ⟨ids, rfl⟩ := h
  obtain ⟨id, hid, hlive, hreach⟩ := (mem_contributors hs).1 ha
  exact (mem_contributors hs).2 ⟨id, hid, hlive, hreach.tail hlead⟩

/-- A calm set that is closed is found again in the same order when it is closed again. -/
theorem Closed.contributors_eq (hs : src.index.Sound) {s : OrderedSet EntryId} (h : src.Closed s)
    (hcalm : src.Calm s) : src.contributors s.elements = s := by
  obtain ⟨ids, rfl⟩ := h
  refine contributors_contributors fun id hid a hreach b hb => ?_
  by_cases hlive : src.index.entry? id = none
  · -- An entry that is not there is no contributor, but it has no extensions either.
    rcases hreach.cases_head with rfl | ⟨c, hlead, -⟩
    · exact absurd (Or.inl hb) (not_leads_of_eq_none hlive)
    · exact absurd hlead (not_leads_of_eq_none hlive)
  · exact hcalm a ((mem_contributors hs).2 ⟨id, hid, hlive, hreach⟩) b hb

end Sources

/-! ## Coherent trees -/

/-- A node has others below it. -/
def Node.IsParent (n : Node) : Prop :=
  ∃ name c, n.children.get? name = some c

/-- The nodes of a tree from `base` on fit together and fit the index. -/
structure Tree.Coherent (src : Sources) (base : NodeId) (t : Tree) : Prop where
  /-- A node below another one comes after it, knows it and its own name, and has every entry that a
  contributor of the other node has under that name. -/
  child : ∀ {i n name c}, base ≤ i → t.node? i = some n → n.children.get? name = some c →
    i < c ∧ ∃ m, t.node? c = some m ∧ m.parent = some i ∧ m.name = name ∧
      ∀ a ∈ n.contributors, ∀ b, src.index.child? a name = some b → b ∈ m.contributors
  /-- A node that stands below another one is found there under its name. -/
  parent : ∀ {c m p}, base ≤ c → t.node? c = some m → m.parent = some p →
    base ≤ p ∧ p < c ∧ ∃ n, t.node? p = some n ∧ n.children.get? m.name = some c
  /-- Only entries that are there contribute. -/
  live : ∀ {i n}, base ≤ i → t.node? i = some n → ∀ a ∈ n.contributors,
    src.index.entry? a ≠ none
  /-- A node that others stand below, or none will, has all contributors that come with some
  entries. -/
  closed : ∀ {i n}, base ≤ i → t.node? i = some n → n.built = true ∨ n.IsParent →
    src.Closed n.contributors
  /-- When a node says that all nodes below it are there, there is one for every name in a
  contributor. -/
  full : ∀ {i n}, base ≤ i → t.node? i = some n → n.built = true → ∀ a ∈ n.contributors,
    ∀ {name b}, src.index.child? a name = some b → ∃ c, n.children.get? name = some c

/-- What becomes of the contributors of a node that has all that come with some entries. -/
structure Node.Settles (src : Sources) (n n' : Node) : Prop where
  /-- It has all that come with some entries afterwards. -/
  closed : src.Closed n.contributors → src.Closed n'.contributors
  /-- They do not change, if none of them is reached from one of its extensions. -/
  settled : src.Closed n.contributors → src.Calm n.contributors → n'.contributors = n.contributors

/-- What becomes of a node when a tree grows. -/
structure Node.Grows (src : Sources) (n n' : Node) : Prop extends n.Settles src n' where
  /-- It keeps its name. -/
  name : n'.name = n.name
  /-- It keeps its kind. -/
  kind : n'.kind = n.kind
  /-- It keeps its place. -/
  parent : n'.parent = n.parent
  /-- It keeps what was found in its declarations. -/
  rawChildren : n'.rawChildren = n.rawChildren
  /-- It keeps the nodes below it. -/
  children : ∀ {name c}, n.children.get? name = some c → n'.children.get? name = some c
  /-- It keeps its contributors. -/
  contributors : ∀ a ∈ n.contributors, src.index.entry? a ≠ none → a ∈ n'.contributors
  /-- When all nodes below it are there, nothing about it changes any more. -/
  built : n.built = true →
    n'.built = true ∧ n'.contributors = n.contributors ∧ n'.children = n.children

/-- A tree grows into another: its nodes stay, and others may come behind them. -/
def Tree.Grows (src : Sources) (t t' : Tree) : Prop :=
  ∀ ⦃i n⦄, t.node? i = some n → ∃ n', t'.node? i = some n' ∧ n.Grows src n'

/-- A node has all contributors that come with some entries. -/
def Tree.ClosedAt (src : Sources) (t : Tree) (id : NodeId) : Prop :=
  ∃ n, t.node? id = some n ∧ src.Closed n.contributors

variable {src : Sources} {base : NodeId} {t t' t'' : Tree}

/-- Contributors that do not change have settled. -/
theorem Node.Settles.of_eq {n n' : Node} (h : n'.contributors = n.contributors) :
    n.Settles src n' where
  closed hclosed := by rwa [h]
  settled _ _ := h

/-- Contributors may settle step by step. -/
theorem Node.Settles.trans {n n' n'' : Node} (h : n.Settles src n') (h' : n'.Settles src n'') :
    n.Settles src n'' where
  closed hclosed := h'.closed (h.closed hclosed)
  settled hclosed hcalm := by
    have hsame := h.settled hclosed hcalm
    exact (h'.settled (h.closed hclosed) (by rwa [hsame])).trans hsame

/-- A node that does not change has grown. -/
theorem Node.Grows.refl (n : Node) : n.Grows src n where
  toSettles := .of_eq rfl
  name := rfl
  kind := rfl
  parent := rfl
  rawChildren := rfl
  children hc := hc
  contributors _ ha _ := ha
  built h := ⟨h, rfl, rfl⟩

/-- A node may grow on and on. -/
theorem Node.Grows.trans {n n' n'' : Node} (h : n.Grows src n') (h' : n'.Grows src n'') :
    n.Grows src n'' where
  toSettles := h.toSettles.trans h'.toSettles
  name := h'.name.trans h.name
  kind := h'.kind.trans h.kind
  parent := h'.parent.trans h.parent
  rawChildren := h'.rawChildren.trans h.rawChildren
  children hc := h'.children (h.children hc)
  contributors a ha hlive := h'.contributors a (h.contributors a ha hlive) hlive
  built hb := by
    obtain ⟨hb', hcon, hch⟩ := h.built hb
    obtain ⟨hb'', hcon', hch'⟩ := h'.built hb'
    exact ⟨hb'', hcon'.trans hcon, hch'.trans hch⟩

/-- A tree that does not change has grown. -/
theorem Tree.Grows.refl (t : Tree) : t.Grows src t :=
  fun _ n hn => ⟨n, hn, .refl n⟩

/-- A tree may grow on and on. -/
theorem Tree.Grows.trans (h : t.Grows src t') (h' : t'.Grows src t'') : t.Grows src t'' := by
  intro i n hn
  obtain ⟨n', hn', hgrows⟩ := h hn
  obtain ⟨n'', hn'', hgrows'⟩ := h' hn'
  exact ⟨n'', hn'', hgrows.trans hgrows'⟩

/-- A closed node stays closed when the tree grows. -/
theorem Tree.ClosedAt.grows {id : NodeId} (h : t.ClosedAt src id) (hgrows : t.Grows src t') :
    t'.ClosedAt src id := by
  obtain ⟨n, hn, hclosed⟩ := h
  obtain ⟨n', hn', hgrown⟩ := hgrows hn
  exact ⟨n', hn', hgrown.closed hclosed⟩

/-- What holds between a node and itself, and between one node and what it becomes, holds between
all nodes and what they become. -/
theorem Tree.forall_of_update {R : Node → Node → Prop} (hrefl : ∀ m, R m m) {id : NodeId}
    {n n' : Node} (hn : t.node? id = some n) (hrel : R n n')
    (hview : t'.node? = Function.update t.node? id (some n')) {i : NodeId} {m : Node}
    (hm : t.node? i = some m) : ∃ m', t'.node? i = some m' ∧ R m m' := by
  rw [hview]
  by_cases hi : i = id
  · subst hi
    rw [hn] at hm
    cases hm
    exact ⟨n', Function.update_self .., hrel⟩
  · exact ⟨m, by rw [Function.update_of_ne hi, hm], hrefl m⟩

/-- A tree in which one node grows has grown. -/
theorem Tree.Grows.of_update {id : NodeId} {n n' : Node} (hn : t.node? id = some n)
    (hgrows : n.Grows src n') (hview : t'.node? = Function.update t.node? id (some n')) :
    t.Grows src t' :=
  fun _ _ hm => forall_of_update Node.Grows.refl hn hgrows hview hm

namespace Tree.Coherent

/-- Nothing is said of a tree without nodes from `base` on. -/
theorem of_size_le (h : t.size ≤ base) : t.Coherent src base := by
  have hno : ∀ {i n}, base ≤ i → t.node? i ≠ some n := fun hi hn =>
    absurd (lt_size_of_node? hn) (Nat.not_lt.2 (h.trans hi))
  exact ⟨fun hi hn => absurd hn (hno hi), fun hi hn => absurd hn (hno hi),
    fun hi hn => absurd hn (hno hi), fun hi hn => absurd hn (hno hi),
    fun hi hn => absurd hn (hno hi)⟩

/-- A node may change what it says about itself, if it keeps its name and place and the nodes below
it, and if these still have what they should have. -/
theorem revise (h : t.Coherent src base) {id : NodeId} {n n' : Node} (hid : base ≤ id)
    (hn : t.node? id = some n) (hview : t'.node? = Function.update t.node? id (some n'))
    (hname : n'.name = n.name) (hparent : n'.parent = n.parent)
    (hchildren : n'.children = n.children)
    (hmore : ∀ a ∈ n.contributors, a ∈ n'.contributors)
    (hless : n.IsParent → ∀ a ∈ n'.contributors, a ∈ n.contributors)
    (hlive : ∀ a ∈ n'.contributors, src.index.entry? a ≠ none)
    (hclosed : n'.built = true ∨ n'.IsParent → src.Closed n'.contributors)
    (hfull : n'.built = true → ∀ a ∈ n'.contributors, ∀ {name b},
      src.index.child? a name = some b → ∃ c, n'.children.get? name = some c) :
    t'.Coherent src base := by
  -- Every node has the name, the place and the nodes below it of the one before, and its
  -- contributors as far as they matter.
  have hkeep : ∀ {i m}, t.node? i = some m → ∃ m', t'.node? i = some m' ∧ m'.parent = m.parent ∧
      m'.name = m.name ∧ m'.children = m.children ∧ ∀ a ∈ m.contributors, a ∈ m'.contributors := by
    intro i m hm
    rw [hview]
    by_cases hi : i = id
    · subst hi
      rw [hn] at hm
      cases hm
      exact ⟨n', Function.update_self .., hparent, hname, hchildren, hmore⟩
    · exact ⟨m, by rw [Function.update_of_ne hi, hm], rfl, rfl, rfl, fun a ha => ha⟩
  have hback : ∀ {i m'}, t'.node? i = some m' → ∃ m, t.node? i = some m ∧ m'.parent = m.parent ∧
      m'.name = m.name ∧ m'.children = m.children ∧
      (m.IsParent → ∀ a ∈ m'.contributors, a ∈ m.contributors) := by
    intro i m' hm'
    obtain ⟨rfl, rfl⟩ | ⟨-, hm⟩ := node?_of_update hview hm'
    · exact ⟨n, hn, hparent, hname, hchildren, hless⟩
    · exact ⟨m', hm, rfl, rfl, rfl, fun _ a ha => ha⟩
  refine ⟨fun {i n₁ name c} hi hn₁ hc => ?_, fun {c m p} hc hm hp => ?_, fun {i m} hi hm => ?_,
    fun {i m} hi hm => ?_, fun {i m} hi hm => ?_⟩
  · obtain ⟨n₀, hn₀, -, -, hch, hsub⟩ := hback hn₁
    rw [hch] at hc
    obtain ⟨hlt, m, hm, hmp, hmn, hhas⟩ := h.child hi hn₀ hc
    obtain ⟨m', hm', hp', hname', -, hmore'⟩ := hkeep hm
    exact ⟨hlt, m', hm', hp'.trans hmp, hname'.trans hmn,
      fun a ha b hb => hmore' b (hhas a (hsub ⟨name, c, hc⟩ a ha) b hb)⟩
  · obtain ⟨m₀, hm₀, hp₀, hname₀, -⟩ := hback hm
    rw [hp₀] at hp
    obtain ⟨hbase, hlt, q, hq, hget⟩ := h.parent hc hm₀ hp
    obtain ⟨q', hq', -, -, hch, -⟩ := hkeep hq
    exact ⟨hbase, hlt, q', hq', by rw [hch, hname₀, hget]⟩
  · obtain ⟨-, rfl⟩ | ⟨-, hm⟩ := node?_of_update hview hm
    · exact hlive
    · exact h.live hi hm
  · obtain ⟨-, rfl⟩ | ⟨-, hm⟩ := node?_of_update hview hm
    · exact hclosed
    · exact h.closed hi hm
  · obtain ⟨-, rfl⟩ | ⟨-, hm⟩ := node?_of_update hview hm
    · exact hfull
    · exact h.full hi hm

/-- A node without a parent may come behind the others. -/
theorem addRoot (h : t.Coherent src base) {id : EntryId} (hlive : src.index.entry? id ≠ none)
    (name : String) (kind : Kind) : (t.addRoot id name kind).1.Coherent src base := by
  have hview : (t.addRoot id name kind).1.node? = Function.update t.node? t.size
      (some { name, kind, parent := none, contributors := .singleton id }) := t.node?_push _
  have hold : ∀ {i m}, t.node? i = some m → (t.addRoot id name kind).1.node? i = some m :=
    fun hm => by rw [hview, Function.update_of_ne (Nat.ne_of_lt (lt_size_of_node? hm)), hm]
  refine ⟨fun {i n x c} hi hn hc => ?_, fun {c m p} hc hm hp => ?_, fun {i m} hi hm a ha => ?_,
    fun {i m} hi hm hor => ?_, fun {i m} hi hm hb => ?_⟩
  · -- The new node has no children, and the others are as they were.
    obtain ⟨-, rfl⟩ | ⟨-, hn⟩ := node?_of_update hview hn
    · exact absurd hc (Option.some_ne_none c).symm
    · obtain ⟨hlt, m, hm, hrest⟩ := h.child hi hn hc
      exact ⟨hlt, m, hold hm, hrest⟩
  · obtain ⟨-, rfl⟩ | ⟨-, hm⟩ := node?_of_update hview hm
    · exact absurd hp (Option.some_ne_none p).symm
    · obtain ⟨hbase, hlt, n, hn, hget⟩ := h.parent hc hm hp
      exact ⟨hbase, hlt, n, hold hn, hget⟩
  · obtain ⟨-, rfl⟩ | ⟨-, hm⟩ := node?_of_update hview hm
    · rw [List.mem_singleton.1 ha]
      exact hlive
    · exact h.live hi hm a ha
  · obtain ⟨-, rfl⟩ | ⟨-, hm⟩ := node?_of_update hview hm
    · rcases hor with hb | ⟨x, c, hc⟩
      · exact absurd hb Bool.false_ne_true
      · exact absurd hc (Option.some_ne_none c).symm
    · exact h.closed hi hm hor
  · obtain ⟨-, rfl⟩ | ⟨-, hm⟩ := node?_of_update hview hm
    · exact absurd hb Bool.false_ne_true
    · exact h.full hi hm hb

end Tree.Coherent

end LayoutMarkup.Hierarchy
