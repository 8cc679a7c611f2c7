import LayoutMarkup.Proofs.Hierarchy.Growth

/-!
# Expansion

Every way of expanding a node of a coherent tree succeeds, leaves a coherent tree, and lets the tree
grow (`Tree.Expands`). The one step that makes nodes is `materialize`: it goes through what the
contributors of a node offer below it, and `Tree.Sprouts` says how far it has come. The names that
have a node already have every entry that is offered under them, so only new nodes change on the
way.
-/

namespace LayoutMarkup.Hierarchy

variable {src : Sources} {base : NodeId} {t t' t'' : Tree}

/-- A tree was expanded into another one. -/
structure Tree.Expands (src : Sources) (base : NodeId) (t t' : Tree) : Prop where
  /-- The new tree is coherent. -/
  coherent : t'.Coherent src base
  /-- The old tree grew into it. -/
  grows : t.Grows src t'

/-- Trees are expanded step by step. -/
theorem Tree.Expands.trans (h : t.Expands src base t') (h' : t'.Expands src base t'') :
    t.Expands src base t'' :=
  ⟨h'.coherent, h.grows.trans h'.grows⟩

/-- A tree that grows keeps its nodes. -/
theorem Tree.Grows.lt_size (h : t.Grows src t') {id : NodeId} (hid : id < t.size) :
    id < t'.size := by
  obtain ⟨n, hn⟩ := t.exists_node? hid
  obtain ⟨n', hn', -⟩ := h hn
  exact Tree.lt_size_of_node? hn'

/-! ## All contributors -/

/-- A node that is not built is given all contributors that come with those it has. -/
theorem Sources.closeContributors_spec (hs : src.index.Sound) (h : t.Coherent src base)
    {id : NodeId} {n : Node} (hid : base ≤ id) (hn : t.node? id = some n) (hb : n.built = false) :
    ∃ t', src.closeContributors t id = .ok t' ∧ t.Expands src base t' ∧
      t'.node? id = some { n with contributors := src.contributors n.contributors.elements } := by
  obtain ⟨t', hadj, -, hview⟩ := Tree.adjust_spec hn fun node =>
    { node with contributors := src.contributors node.contributors.elements }
  have hmore : ∀ a ∈ n.contributors, a ∈ src.contributors n.contributors.elements :=
    fun a ha => Sources.mem_contributors_of_mem hs ha (h.live hid hn a ha)
  have hunbuilt : n.built ≠ true := by
    rw [hb]
    exact Bool.false_ne_true
  have hgrows : n.Grows src
      { n with contributors := src.contributors n.contributors.elements } := by
    exact ⟨⟨fun _ => ⟨_, rfl⟩, fun hclosed hcalm => hclosed.contributors_eq hs hcalm⟩, rfl, rfl,
      rfl, rfl, fun hc => hc, fun a ha _ => hmore a ha, fun hb' => absurd hb' hunbuilt⟩
  refine ⟨t', hadj,
    ⟨h.revise hid hn hview rfl rfl rfl hmore ?_ ?_ ?_ ?_, .of_update hn hgrows hview⟩,
    by rw [hview, Function.update_self]⟩
  · -- A node with children had all its contributors, and closing them again finds the same ones.
    intro hparent a ha
    obtain ⟨ids, hids⟩ := h.closed hid hn (Or.inr hparent)
    rw [hids] at ha ⊢
    exact (Sources.mem_contributors_contributors hs).1 ha
  · exact fun a ha => Sources.entry?_of_mem_contributors ha
  · exact fun _ => ⟨_, rfl⟩
  · exact fun hb' => absurd hb' hunbuilt

/-! ## New nodes -/

/-- The entries below an entry with their names, or only that of a given name. -/
def Sources.offers (src : Sources) (only : Option String) (id : EntryId) :
    List (String × EntryId) :=
  match src.index.entry? id with
  | none => []
  | some entry => entry.children.entries.filter fun (name, _) => only.all (· == name)

/-- An entry offers what stands below it under a name that is asked for. -/
theorem Sources.mem_offers {only : Option String} {id b : EntryId} {name : String} :
    (name, b) ∈ src.offers only id ↔
      only.all (· == name) = true ∧ src.index.child? id name = some b := by
  unfold offers Index.child?
  cases src.index.entry? id with
  | none => simp
  | some entry =>
    rw [Option.bind_some, OrderedMap.get?_eq_some_iff]
    exact List.mem_filter.trans and_comm

/-- The nodes below a node come after it, and have every entry that a contributor of it has under
their name. -/
def Tree.Served (src : Sources) (t : Tree) (id : NodeId) (n : Node) : Prop :=
  ∀ ⦃name c⦄, n.children.get? name = some c → id < c ∧ ∃ m, t.node? c = some m ∧
    ∀ a ∈ n.contributors, ∀ b, src.index.child? a name = some b → b ∈ m.contributors

/-- In a coherent tree that is so of every node. -/
theorem Tree.Coherent.served (h : t.Coherent src base) {id : NodeId} {n : Node} (hid : base ≤ id)
    (hn : t.node? id = some n) : t.Served src id n := by
  intro name c hc
  obtain ⟨hlt, m, hm, -, -, hhas⟩ := h.child hid hn hc
  exact ⟨hlt, m, hm, hhas⟩

/-- And it is so of a node that nothing stands below, in any tree. -/
theorem Tree.served_of_leaf {id : NodeId} {n : Node} (hleaf : n.children = ∅) :
    t.Served src id n := by
  intro name c hc
  rw [hleaf] at hc
  exact absurd hc (Option.some_ne_none c).symm

/-- How a tree comes along while what is offered below the node `id`, which was `n`, is put into it:
`done` was, and now the nodes `children` stand below it. -/
structure Tree.Sprouts (src : Sources) (only : Option String) (id : NodeId) (n : Node) (t : Tree)
    (done : List (String × EntryId)) (t' : Tree) (children : OrderedMap String NodeId) : Prop where
  /-- Nodes come behind the others. -/
  size_le : t.size ≤ t'.size
  /-- The other nodes that were there are as they were. -/
  kept : ∀ {i}, i < t.size → i ≠ id → t'.node? i = t.node? i
  /-- The node itself differs in the nodes below it. -/
  self : t'.node? id = some { n with children }
  /-- What stood below it still does. -/
  old : ∀ {name c}, n.children.get? name = some c → children.get? name = some c
  /-- Other nodes below it are new and have a name that was asked for. -/
  young : ∀ {name c}, children.get? name = some c → n.children.get? name = some c ∨
    t.size ≤ c ∧ only.all (· == name) = true ∧ ∃ m, t'.node? c = some m ∧ m.name = name
  /-- The new nodes stand below it, and nothing stands below them yet. -/
  new : ∀ {i m}, t.size ≤ i → t'.node? i = some m → children.get? m.name = some i ∧
    m.parent = some id ∧ m.children = ∅ ∧ m.built = false ∧
      ∀ a ∈ m.contributors, src.index.entry? a ≠ none
  /-- What was offered contributes to the node of its name. -/
  offered : ∀ {name b}, (name, b) ∈ done →
    ∃ c m, children.get? name = some c ∧ t'.node? c = some m ∧ b ∈ m.contributors

namespace Tree.Sprouts

variable {only : Option String} {id : NodeId} {n : Node} {t₁ : Tree}
  {done : List (String × EntryId)} {children : OrderedMap String NodeId} {name : String}
  {b : EntryId}

/-- In the beginning nothing was offered. -/
theorem start (hn : t.node? id = some n) :
    t.Sprouts src only id n [] t n.children where
  size_le := Nat.le_refl _
  kept _ _ := rfl
  self := hn
  old hc := hc
  young hc := Or.inl hc
  new hi hm := absurd (lt_size_of_node? hm) (Nat.not_lt.2 hi)
  offered hmem := absurd hmem List.not_mem_nil

/-- A node below another one is not that one. -/
theorem ne_self (hsp : t.Sprouts src only id n done t₁ children) (h : t.Served src id n)
    (hn : t.node? id = some n) {c : NodeId} (hc : children.get? name = some c) : c ≠ id := by
  rcases hsp.young hc with hold | ⟨hle, -⟩
  · exact Nat.ne_of_gt (h hold).1
  · exact Nat.ne_of_gt (lt_of_lt_of_le (lt_size_of_node? hn) hle)

/-- An entry that the node of its name has already changes nothing. -/
theorem addChild_old (hsp : t.Sprouts src only id n done t₁ children) (h : t.Served src id n)
    (hn : t.node? id = some n) {c : NodeId} (hc : n.children.get? name = some c) {a : EntryId}
    (ha : a ∈ n.contributors) (hb : src.index.child? a name = some b) (kind : Kind) :
    t₁.addChild id b name kind = .ok t₁ ∧
      t.Sprouts src only id n (done ++ [(name, b)]) t₁ children := by
  obtain ⟨-, m, hm, hhas⟩ := h hc
  have hmem := hhas a ha b hb
  have hm₁ : t₁.node? c = some m := by
    rw [hsp.kept (lt_size_of_node? hm) (hsp.ne_self h hn (hsp.old hc)), hm]
  obtain ⟨t₂, hadd, -, hview⟩ := addChild_of_some hsp.self (hsp.old hc) hm₁ b kind
  have hsame : m.contributors.insertFirst b = m.contributors := dif_pos hmem
  rw [hsame, ← hm₁, Function.update_eq_self] at hview
  rw [hadd, ext_node? hview]
  refine ⟨rfl, { hsp with offered := fun hx => ?_ }⟩
  rcases List.mem_append.1 hx with hx | hx
  · exact hsp.offered hx
  · cases List.mem_singleton.1 hx
    exact ⟨c, m, hsp.old hc, hm₁, hmem⟩

/-- An entry comes to a new node. -/
theorem addChild_young (hsp : t.Sprouts src only id n done t₁ children)
    (hn : t.node? id = some n) {c : NodeId} (hc : children.get? name = some c) (hle : t.size ≤ c)
    {m : Node} (hm : t₁.node? c = some m) (hb : src.index.entry? b ≠ none) (kind : Kind) :
    ∃ t₂, t₁.addChild id b name kind = .ok t₂ ∧
      t.Sprouts src only id n (done ++ [(name, b)]) t₂ children := by
  obtain ⟨t₂, hadd, hsize, hview⟩ := addChild_of_some hsp.self hc hm b kind
  have hself : t₂.node? c = some { m with contributors := m.contributors.insertFirst b } := by
    rw [hview, Function.update_self]
  have hother : ∀ {i}, i ≠ c → t₂.node? i = t₁.node? i := fun hi => by
    rw [hview, Function.update_of_ne hi]
  -- Whatever a node was before, it is still, with some more contributors.
  have hstill : ∀ {i k}, t₁.node? i = some k → ∃ k', t₂.node? i = some k' ∧ k'.name = k.name ∧
      ∀ a ∈ k.contributors, a ∈ k'.contributors := by
    intro i k hk
    by_cases hi : i = c
    · subst hi
      rw [hm] at hk
      cases hk
      exact ⟨_, hself, rfl, fun a ha => OrderedSet.mem_insertFirst.2 (Or.inl ha)⟩
    · exact ⟨k, by rw [hother hi, hk], rfl, fun a ha => ha⟩
  refine ⟨t₂, hadd, ⟨by rw [hsize]; exact hsp.size_le, fun hi hne => ?_, ?_, hsp.old,
    fun hx => ?_, fun {i k} hi hk => ?_, fun hx => ?_⟩⟩
  · rw [hother (Nat.ne_of_lt (lt_of_lt_of_le hi hle)), hsp.kept hi hne]
  · rw [hother (Nat.ne_of_lt (lt_of_lt_of_le (lt_size_of_node? hn) hle)), hsp.self]
  · refine (hsp.young hx).imp_right fun ⟨hxle, hxonly, k, hk, hkname⟩ => ?_
    obtain ⟨k', hk', hname', -⟩ := hstill hk
    exact ⟨hxle, hxonly, k', hk', hname'.trans hkname⟩
  · -- The new node has the entry first, and other new nodes are as they were.
    obtain ⟨rfl, rfl⟩ | ⟨-, hk⟩ := node?_of_update hview hk
    · obtain ⟨hget, hparent, hchildren, hbuilt, hlive⟩ := hsp.new hi hm
      refine ⟨hget, hparent, hchildren, hbuilt, fun a ha => ?_⟩
      rcases OrderedSet.mem_insertFirst.1 ha with ha | rfl
      · exact hlive a ha
      · exact hb
    · exact hsp.new hi hk
  · rcases List.mem_append.1 hx with hx | hx
    · obtain ⟨d, k, hget, hk, hmem⟩ := hsp.offered hx
      obtain ⟨k', hk', -, hmore⟩ := hstill hk
      exact ⟨d, k', hget, hk', hmore _ hmem⟩
    · -- What was offered just now went to the node.
      cases List.mem_singleton.1 hx
      exact ⟨c, _, hc, hself, OrderedSet.mem_insertFirst.2 (Or.inr rfl)⟩

/-- A name without a node gets one. -/
theorem addChild_new (hsp : t.Sprouts src only id n done t₁ children) (h : t.Served src id n)
    (hn : t.node? id = some n) (hc : children.get? name = none)
    (hname : only.all (· == name) = true) (hb : src.index.entry? b ≠ none) (kind : Kind) :
    ∃ t₂, t₁.addChild id b name kind = .ok t₂ ∧
      t.Sprouts src only id n (done ++ [(name, b)]) t₂ (children.insert name t₁.size) := by
  obtain ⟨t₂, hadd, hsize, hview⟩ := addChild_of_none hsp.self hc b kind
  have hlt := lt_size_of_node? hn
  have hself : t₂.node? id = some { n with children := children.insert name t₁.size } := by
    rw [hview, Function.update_self]
  have hnew : t₂.node? t₁.size =
      some { name, kind, parent := some id, contributors := .singleton b } := by
    rw [hview, Function.update_of_ne (Nat.ne_of_gt (lt_of_lt_of_le hlt hsp.size_le)),
      Function.update_self]
  have hother : ∀ {i}, i ≠ id → i ≠ t₁.size → t₂.node? i = t₁.node? i := fun hi hi' => by
    rw [hview, Function.update_of_ne hi, Function.update_of_ne hi']
  have hstill : ∀ {i k}, i ≠ id → t₁.node? i = some k → t₂.node? i = some k := fun hi hk => by
    rw [hother hi (Nat.ne_of_lt (lt_size_of_node? hk)), hk]
  -- The other names keep their nodes.
  have hget : ∀ {x c}, children.get? x = some c →
      (children.insert name t₁.size).get? x = some c := by
    intro x c hx
    have hne : x ≠ name := by
      rintro rfl
      rw [hc] at hx
      cases hx
    rw [OrderedMap.get?_insert, if_neg hne, hx]
  refine ⟨t₂, hadd, ⟨by rw [hsize]; exact Nat.le_succ_of_le hsp.size_le, fun hi hne => ?_, hself,
    fun hx => hget (hsp.old hx), fun {x c} hx => ?_, fun {i k} hi hk => ?_, fun {x a} hx => ?_⟩⟩
  · rw [hother hne (Nat.ne_of_lt (lt_of_lt_of_le hi hsp.size_le)), hsp.kept hi hne]
  · -- The name has the new node, and every other name has the node it had.
    rw [OrderedMap.get?_insert] at hx
    by_cases hxn : x = name
    · subst hxn
      rw [if_pos rfl] at hx
      cases hx
      exact Or.inr ⟨hsp.size_le, hname, _, hnew, rfl⟩
    · rw [if_neg hxn] at hx
      refine (hsp.young hx).imp_right fun ⟨hle, honly, k, hk, hkname⟩ => ?_
      exact ⟨hle, honly, k, hstill (hsp.ne_self h hn hx) hk, hkname⟩
  · -- A node from behind the old ones is the one made now, or was made before.
    have hne : i ≠ id := Nat.ne_of_gt (lt_of_lt_of_le hlt hi)
    by_cases hi' : i = t₁.size
    · subst hi'
      rw [hnew] at hk
      cases hk
      refine ⟨by rw [OrderedMap.get?_insert, if_pos rfl], rfl, rfl, rfl, fun a ha => ?_⟩
      rw [List.mem_singleton.1 ha]
      exact hb
    · rw [hother hne hi'] at hk
      obtain ⟨hx, hrest⟩ := hsp.new hi hk
      exact ⟨hget hx, hrest⟩
  · rcases List.mem_append.1 hx with hx | hx
    · obtain ⟨c, k, hxc, hk, hmem⟩ := hsp.offered hx
      exact ⟨c, k, hget hxc, hstill (hsp.ne_self h hn hxc) hk, hmem⟩
    · cases List.mem_singleton.1 hx
      exact ⟨t₁.size, _, by rw [OrderedMap.get?_insert, if_pos rfl], hnew, List.mem_singleton.2 rfl⟩

/-- What is offered next is put below the node. -/
theorem addChild (hsp : t.Sprouts src only id n done t₁ children) (hs : src.index.Sound)
    (h : t.Served src id n) (hn : t.node? id = some n) {a : EntryId} (ha : a ∈ n.contributors)
    (hoffer : (name, b) ∈ src.offers only a) (kind : Kind) :
    ∃ t₂ children', t₁.addChild id b name kind = .ok t₂ ∧
      t.Sprouts src only id n (done ++ [(name, b)]) t₂ children' := by
  obtain ⟨hname, hb⟩ := Sources.mem_offers.1 hoffer
  have hlive := Index.entry?_of_child? hs.ordered.rooted hb
  cases hc : children.get? name with
  | none =>
    obtain ⟨t₂, hadd, hsp'⟩ := hsp.addChild_new h hn hc hname hlive kind
    exact ⟨t₂, _, hadd, hsp'⟩
  | some c =>
    rcases hsp.young hc with hold | ⟨hle, -, m, hm, -⟩
    · obtain ⟨hadd, hsp'⟩ := hsp.addChild_old h hn hold ha hb kind
      exact ⟨t₁, children, hadd, hsp'⟩
    · obtain ⟨t₂, hadd, hsp'⟩ := hsp.addChild_young hn hc hle hm hlive kind
      exact ⟨t₂, children, hadd, hsp'⟩

/-- A node that was there keeps its name, place and contributors, and what stands below it. -/
theorem exists_kept (hsp : t.Sprouts src only id n done t₁ children) (hn : t.node? id = some n)
    {i : NodeId} {m : Node} (hm : t.node? i = some m) :
    ∃ m', t₁.node? i = some m' ∧ m'.parent = m.parent ∧ m'.name = m.name ∧
      m'.contributors = m.contributors ∧
      ∀ {x c}, m.children.get? x = some c → m'.children.get? x = some c := by
  by_cases hi : i = id
  · obtain rfl := hi
    obtain rfl := Option.some_inj.1 (hn.symm.trans hm)
    exact ⟨_, hsp.self, rfl, rfl, rfl, hsp.old⟩
  · exact ⟨m, by rw [hsp.kept (lt_size_of_node? hm) hi, hm], rfl, rfl, rfl, fun hc => hc⟩

/-- A node is the given one, another one that was there, or a new one. -/
theorem node?_cases (hsp : t.Sprouts src only id n done t₁ children) {i : NodeId} {m : Node}
    (hm : t₁.node? i = some m) :
    i = id ∧ m = { n with children } ∨ i ≠ id ∧ t.node? i = some m ∨ t.size ≤ i := by
  by_cases hi : i = id
  · rw [hi, hsp.self] at hm
    exact Or.inl ⟨hi, (Option.some.inj hm).symm⟩
  · rcases Nat.lt_or_ge i t.size with hil | hil
    · rw [hsp.kept hil hi] at hm
      exact Or.inr (Or.inl ⟨hi, hm⟩)
    · exact Or.inr (Or.inr hil)

/-- When all that the contributors offer was put below the node, every node has what the
contributors of its parent have under its name. -/
theorem serves (hsp : t.Sprouts src only id n (n.contributors.elements.reverse.flatMap
      (src.offers only)) t₁ children) (h : t.Coherent src base) (hn : t.node? id = some n)
    {i c : NodeId} {k : Node} (hi : base ≤ i) (hk : t₁.node? i = some k)
    (hc : k.children.get? name = some c) :
    i < c ∧ ∃ m, t₁.node? c = some m ∧ m.parent = some i ∧ m.name = name ∧
      ∀ a ∈ k.contributors, ∀ b, src.index.child? a name = some b → b ∈ m.contributors := by
  -- It was so of the nodes that stood below another one before.
  have hbefore : ∀ {k₀ : Node}, t.node? i = some k₀ → k₀.children.get? name = some c →
      i < c ∧ ∃ m, t₁.node? c = some m ∧ m.parent = some i ∧ m.name = name ∧
        ∀ a ∈ k₀.contributors, ∀ b, src.index.child? a name = some b → b ∈ m.contributors := by
    intro k₀ hk₀ hc₀
    obtain ⟨hlt, m, hm, hparent, hname, hhas⟩ := h.child hi hk₀ hc₀
    obtain ⟨m', hm', hp', hn', hcontributors, -⟩ := hsp.exists_kept hn hm
    exact ⟨hlt, m', hm', hp'.trans hparent, hn'.trans hname, hcontributors ▸ hhas⟩
  obtain ⟨rfl, rfl⟩ | ⟨-, hk⟩ | hle := hsp.node?_cases hk
  · rcases hsp.young hc with hold | ⟨hle, hasked, m, hm, hname⟩
    · have hstill := hbefore hn hold
      exact hstill
    · -- All that is offered under a name goes to the node of that name.
      refine ⟨Nat.lt_of_lt_of_le (lt_size_of_node? hn) hle, m, hm, (hsp.new hle hm).2.1, hname,
        fun a ha b hb => ?_⟩
      obtain ⟨c', m', hc', hm', hmem⟩ := hsp.offered
        (List.mem_flatMap.2 ⟨a, List.mem_reverse.2 ha, Sources.mem_offers.2 ⟨hasked, hb⟩⟩)
      obtain rfl := Option.some_inj.1 (hc.symm.trans hc')
      obtain rfl := Option.some_inj.1 (hm.symm.trans hm')
      exact hmem
  · exact hbefore hk hc
  · rw [(hsp.new hle hk).2.2.1] at hc
    exact absurd hc (Option.some_ne_none c).symm

/-- Every node is found below its parent, when new ones were put below a node. -/
theorem stands (hsp : t.Sprouts src only id n done t₁ children) (h : t.Coherent src base)
    (hid : base ≤ id) (hn : t.node? id = some n) {c p : NodeId} {m : Node} (hc : base ≤ c)
    (hm : t₁.node? c = some m) (hp : m.parent = some p) :
    base ≤ p ∧ p < c ∧ ∃ q, t₁.node? p = some q ∧ q.children.get? m.name = some c := by
  have hbefore : ∀ {m₀ : Node}, t.node? c = some m₀ → m₀.parent = some p →
      base ≤ p ∧ p < c ∧ ∃ q, t₁.node? p = some q ∧ q.children.get? m₀.name = some c := by
    intro m₀ hm₀ hp₀
    obtain ⟨hbase, hlt, q, hq, hget⟩ := h.parent hc hm₀ hp₀
    obtain ⟨q', hq', -, -, -, hchildren⟩ := hsp.exists_kept hn hq
    exact ⟨hbase, hlt, q', hq', hchildren hget⟩
  obtain ⟨rfl, rfl⟩ | ⟨-, hm⟩ | hle := hsp.node?_cases hm
  · have hstill := hbefore hn hp
    exact hstill
  · exact hbefore hm hp
  · obtain ⟨hget, hparent, -⟩ := hsp.new hle hm
    obtain rfl := Option.some_inj.1 (hparent.symm.trans hp)
    exact ⟨hid, Nat.lt_of_lt_of_le (lt_size_of_node? hn) hle, _, hsp.self, hget⟩

/-- When all that the contributors offer was put below the node, the tree is coherent again. -/
theorem coherent (hsp : t.Sprouts src only id n (n.contributors.elements.reverse.flatMap
      (src.offers only)) t₁ children) (h : t.Coherent src base) (hid : base ≤ id)
    (hn : t.node? id = some n) (hb : n.built = false)
    (hclosed : src.Closed n.contributors) : t₁.Coherent src base := by
  -- The other conditions are about one node, which is the given one, an old one or a new one.
  refine ⟨hsp.serves h hn, hsp.stands h hid hn, fun {i m} hi hm => ?_,
    fun {i m} hi hm hor => ?_, fun {i m} hi hm hbuilt => ?_⟩
  · obtain ⟨rfl, rfl⟩ | ⟨-, hm⟩ | hle := hsp.node?_cases hm
    · exact fun a ha => h.live hi hn a ha
    · exact h.live hi hm
    · exact (hsp.new hle hm).2.2.2.2
  · obtain ⟨-, rfl⟩ | ⟨-, hm⟩ | hle := hsp.node?_cases hm
    · exact hclosed
    · exact h.closed hi hm hor
    · obtain ⟨-, -, hchildren, hbuilt, -⟩ := hsp.new hle hm
      rcases hor with hbt | ⟨x, c, hc⟩
      · exact absurd hbt (by rw [hbuilt]; exact Bool.false_ne_true)
      · rw [hchildren] at hc
        exact absurd hc (Option.some_ne_none c).symm
  · obtain ⟨-, rfl⟩ | ⟨-, hm⟩ | hle := hsp.node?_cases hm
    · exact absurd hbuilt (by rw [hb]; exact Bool.false_ne_true)
    · exact h.full hi hm hbuilt
    · exact absurd hbuilt (by rw [(hsp.new hle hm).2.2.2.1]; exact Bool.false_ne_true)

/-- Putting nodes below a node that is not built lets the tree grow. -/
theorem grows (hsp : t.Sprouts src only id n done t₁ children) (hn : t.node? id = some n)
    (hb : n.built = false) : t.Grows src t₁ := by
  intro i m hm
  by_cases hi : i = id
  · subst hi
    rw [hn] at hm
    cases hm
    exact ⟨_, hsp.self, .of_eq rfl, rfl, rfl, rfl, rfl, hsp.old, fun a ha _ => ha,
      fun hb' => absurd hb' (by rw [hb]; exact Bool.false_ne_true)⟩
  · exact ⟨m, by rw [hsp.kept (lt_size_of_node? hm) hi, hm], .refl m⟩

end Tree.Sprouts

namespace Sources

/-- The nodes for one contributor are made one after another. -/
theorem addChildren_eq (src : Sources) (only : Option String) (id : NodeId) (t : Tree)
    (a : EntryId) : src.addChildren only id t a = (src.offers only a).foldlM
      (fun tree (name, child) => do
        tree.addChild id child name (.ofEntryKind (← src.index.entry child).kind)) t := by
  unfold addChildren offers
  cases src.index.entry? a <;> rfl

/-- Making the nodes below a node goes through all that its contributors offer, and what each offer
keeps, holds in the end; it may speak about what was offered. -/
theorem materialize_sprouts (hs : src.index.Sound) {id : NodeId} {n : Node}
    (h : t.Served src id n) (hn : t.node? id = some n) (only : Option String)
    {Q : List (String × EntryId) → Tree → Prop} (start : Q [] t)
    (step : ∀ {done t₁ children name b e t₂}, t.Sprouts src only id n done t₁ children →
      Q done t₁ → src.index.entry? b = some e →
      t₁.addChild id b name (.ofEntryKind e.kind) = .ok t₂ → Q (done ++ [(name, b)]) t₂) :
    ∃ t' children, src.materialize only t id = .ok t' ∧
      t.Sprouts src only id n (n.contributors.elements.reverse.flatMap (src.offers only)) t'
        children ∧
      Q (n.contributors.elements.reverse.flatMap (src.offers only)) t' := by
  -- The outer loop goes over the contributors, the inner one over what one of them offers.
  have hfold := Index.exists_foldlM_eq_ok (f := src.addChildren only id)
    (P := fun done t' => (∃ children,
      t.Sprouts src only id n (done.flatMap (src.offers only)) t' children) ∧
      Q (done.flatMap (src.offers only)) t')
    (l := n.contributors.elements.reverse) (fun {done t₁ a} ha hdone => ?_) []
    ⟨⟨n.children, .start hn⟩, start⟩
  · obtain ⟨t', hfold, ⟨children, hsp⟩, hQ⟩ := hfold
    rw [List.nil_append] at hsp hQ
    exact ⟨t', children, by rw [materialize, Tree.node_eq hn]; exact hfold, hsp, hQ⟩
  · rw [addChildren_eq, List.flatMap_append, List.flatMap_singleton]
    refine Index.exists_foldlM_eq_ok (P := fun done t' => (∃ children,
      t.Sprouts src only id n done t' children) ∧ Q done t')
      (fun {done t₂ offer} hoffer ⟨⟨children₂, hsp₂⟩, hQ₂⟩ => ?_) _ hdone
    obtain ⟨name, b⟩ := offer
    -- A name of a contributor stands for an entry, whose kind the node gets.
    obtain ⟨e, he⟩ := Option.ne_none_iff_exists'.1
      (Index.entry?_of_child? hs.ordered.rooted (mem_offers.1 hoffer).2)
    obtain ⟨t₃, children₃, hadd, hsp₃⟩ := hsp₂.addChild hs h hn (List.mem_reverse.1 ha) hoffer
      (.ofEntryKind e.kind)
    refine ⟨t₃, ?_, ⟨children₃, hsp₃⟩, step hsp₂ hQ₂ he hadd⟩
    show (src.index.entry b >>= fun e => t₂.addChild id b name (.ofEntryKind e.kind)) = _
    rw [Index.entry_eq he]
    exact hadd

/-- Making the nodes below a node that is not built and has all its contributors succeeds: every
name in a contributor that is asked for has a node then, and nothing stands below the new nodes. -/
theorem materialize_spec (hs : src.index.Sound) (h : t.Coherent src base) {id : NodeId} {n : Node}
    (hid : base ≤ id) (hn : t.node? id = some n) (hb : n.built = false)
    (hclosed : src.Closed n.contributors) (only : Option String) :
    ∃ t' children, src.materialize only t id = .ok t' ∧ t.Expands src base t' ∧
      t'.node? id = some { n with children } ∧
      (∀ a ∈ n.contributors, ∀ {name b}, only.all (· == name) = true →
        src.index.child? a name = some b → ∃ c, children.get? name = some c) ∧
      ∀ {name c}, children.get? name = some c → n.children.get? name = some c ∨
        ∃ m, t'.node? c = some m ∧ m.children = ∅ := by
  obtain ⟨t', children, hmat, hsp, -⟩ := materialize_sprouts hs (h.served hid hn) hn only
    (Q := fun _ _ => True) trivial (fun _ _ _ _ => trivial)
  refine ⟨t', children, hmat, ⟨hsp.coherent h hid hn hb hclosed, hsp.grows hn hb⟩, hsp.self,
    fun a ha {name b} hname hb => ?_,
    fun hc => (hsp.young hc).imp_right fun ⟨hle, _, m, hm, _⟩ => ⟨m, hm, (hsp.new hle hm).2.2.1⟩⟩
  obtain ⟨c, -, hc, -⟩ := hsp.offered (List.mem_flatMap.2
    ⟨a, List.mem_reverse.2 ha, mem_offers.2 ⟨hname, hb⟩⟩)
  exact ⟨c, hc⟩

/-! ## Levels, names, paths and whole hierarchies -/

/-- A node that has all its contributors is built in one step. -/
theorem buildLevel_spec (hs : src.index.Sound) (h : t.Coherent src base) {id : NodeId} {n : Node}
    (hid : base ≤ id) (hn : t.node? id = some n) (hb : n.built = false)
    (hclosed : src.Closed n.contributors) :
    ∃ t' n', src.buildLevel t id = .ok t' ∧ t.Expands src base t' ∧ t'.node? id = some n' ∧
      n'.built = true := by
  obtain ⟨t₁, children, hmat, hexp, hn₁, hall, -⟩ := materialize_spec hs h hid hn hb hclosed none
  obtain ⟨t', hadj, -, hview⟩ := Tree.adjust_spec hn₁ fun node => { node with built := true }
  have hgrows : ({ n with children } : Node).Grows src { n with children, built := true } :=
    ⟨.of_eq rfl, rfl, rfl, rfl, rfl, fun hc => hc, fun a ha _ => ha, fun _ => ⟨rfl, rfl, rfl⟩⟩
  have hcoherent : t'.Coherent src base := hexp.coherent.revise hid hn₁ hview rfl rfl rfl
    (fun a ha => ha) (fun _ a ha => ha) (fun a ha => hexp.coherent.live hid hn₁ a ha)
    (fun _ => hclosed) fun _ a ha {name b} hb => hall a ha rfl hb
  refine ⟨t', { n with children, built := true }, ?_,
    hexp.trans ⟨hcoherent, .of_update hn₁ hgrows hview⟩, by rw [hview, Function.update_self], rfl⟩
  rw [buildLevel, hmat]
  exact hadj

/-- A node is expanded by one level, and is built then. -/
theorem expandLevel_spec (hs : src.index.Sound) (h : t.Coherent src base) {id : NodeId}
    (hid : base ≤ id) (hlt : id < t.size) :
    ∃ t' n', src.expandLevel t id = .ok t' ∧ t.Expands src base t' ∧ t'.node? id = some n' ∧
      n'.built = true := by
  obtain ⟨n, hn⟩ := t.exists_node? hlt
  cases hb : n.built with
  | true =>
    refine ⟨t, n, ?_, ⟨h, .refl t⟩, hn, hb⟩
    rw [expandLevel, Tree.node_eq hn, ok_bind, if_pos hb]
    rfl
  | false =>
    obtain ⟨t₁, hclose, hexp, hn₁⟩ := closeContributors_spec hs h hid hn hb
    obtain ⟨t', n', hbuild, hexp', hn', hb'⟩ :=
      buildLevel_spec hs hexp.coherent hid hn₁ hb ⟨_, rfl⟩
    refine ⟨t', n', ?_, hexp.trans hexp', hn', hb'⟩
    rw [expandLevel, Tree.node_eq hn, ok_bind, if_neg (by rw [hb]; exact Bool.false_ne_true),
      hclose]
    exact hbuild

/-- A node is expanded by one name: it has all its contributors then, and a node below it if one of
them has the name. Nothing stands below that node if it is new. -/
theorem expandName_spec (hs : src.index.Sound) (h : t.Coherent src base) {id : NodeId} {n : Node}
    (hid : base ≤ id) (hn : t.node? id = some n) (name : String) :
    ∃ t' n', src.expandName t id name = .ok t' ∧ t.Expands src base t' ∧ t'.node? id = some n' ∧
      src.Closed n'.contributors ∧
      (∀ a ∈ src.contributors n.contributors.elements, a ∈ n'.contributors) ∧
      (∀ a ∈ n'.contributors, ∀ {b}, src.index.child? a name = some b →
        ∃ c, n'.children.get? name = some c) ∧
      ∀ {c}, n'.children.get? name = some c → n.children.get? name = some c ∨
        ∃ m, t'.node? c = some m ∧ m.children = ∅ := by
  cases hb : n.built with
  | true =>
    -- A built node has the node of every name.
    obtain ⟨ids, hids⟩ := h.closed hid hn (Or.inl hb)
    refine ⟨t, n, ?_, ⟨h, .refl t⟩, hn, ⟨ids, hids⟩, fun a ha => ?_,
      fun a ha {b} hc => h.full hid hn hb a ha hc, fun hc => Or.inl hc⟩
    · rw [expandName, Tree.node_eq hn, ok_bind, if_pos hb]
      rfl
    · rw [hids] at ha ⊢
      exact (mem_contributors_contributors hs).1 ha
  | false =>
    obtain ⟨t₁, hclose, hexp, hn₁⟩ := closeContributors_spec hs h hid hn hb
    obtain ⟨t', children, hmat, hexp', hn', hall, hnew⟩ :=
      materialize_spec hs hexp.coherent hid hn₁ hb ⟨_, rfl⟩ (some name)
    refine ⟨t', _, ?_, hexp.trans hexp', hn', ⟨_, rfl⟩, fun a ha => ha,
      fun a ha {b} hc => hall a ha (beq_self_eq_true name) hc, fun hc => hnew hc⟩
    rw [expandName, Tree.node_eq hn, ok_bind, if_neg (by rw [hb]; exact Bool.false_ne_true), hclose]
    exact hmat

/-- A node is expanded along a path. It has all its contributors then. -/
theorem expandPath_spec (hs : src.index.Sound) (h : t.Coherent src base) {id : NodeId}
    (hid : base ≤ id) (hlt : id < t.size) (depth : Nat) (path : List String) :
    ∃ t', src.expandPath depth t id path = .ok t' ∧ t.Expands src base t' ∧
      (0 < depth → t'.ClosedAt src id) := by
  induction depth generalizing t id path with
  | zero => exact ⟨t, rfl, ⟨h, .refl t⟩, fun hpos => absurd hpos (Nat.lt_irrefl 0)⟩
  | succ depth ih =>
    cases path with
    | nil =>
      -- The last node gets its whole level, the others only the name that comes next.
      obtain ⟨t', n', hlevel, hexp, hn', hb'⟩ := expandLevel_spec hs h hid hlt
      exact ⟨t', hlevel, hexp, fun _ => ⟨n', hn', hexp.coherent.closed hid hn' (Or.inl hb')⟩⟩
    | cons name path =>
      obtain ⟨n, hn⟩ := t.exists_node? hlt
      obtain ⟨t₁, n₁, hname, hexp, hn₁, hclosed, -⟩ := expandName_spec hs h hid hn name
      have hat : t₁.ClosedAt src id := ⟨n₁, hn₁, hclosed⟩
      simp only [expandPath, hname, ok_bind, Tree.node_eq hn₁]
      cases hc : n₁.children.get? name with
      | none => exact ⟨t₁, rfl, hexp, fun _ => hat⟩
      | some c =>
        obtain ⟨hic, m, hm, -⟩ := hexp.coherent.child hid hn₁ hc
        obtain ⟨t', hpath, hexp', -⟩ := ih hexp.coherent (Nat.le_of_lt (lt_of_le_of_lt hid hic))
          (Tree.lt_size_of_node? hm) path
        exact ⟨t', hpath, hexp.trans hexp', fun _ => hat.grows hexp'.grows⟩

/-- The nodes below a node are expanded one after another. -/
theorem foldlM_children_spec {f : Tree → NodeId → Except Fault Tree} (h : t.Coherent src base)
    {id : NodeId} {n : Node} (hid : base ≤ id) (hn : t.node? id = some n)
    (hf : ∀ {t c}, t.Coherent src base → base ≤ c → c < t.size →
      ∃ t', f t c = .ok t' ∧ t.Expands src base t') :
    ∃ t', n.children.values.foldlM f t = .ok t' ∧ t.Expands src base t' := by
  refine Index.exists_foldlM_eq_ok (P := fun _ t' => t.Expands src base t')
    (fun {_ t₁ c} hc hexp => ?_) [] ⟨h, .refl t⟩
  obtain ⟨⟨name, c⟩, hmem, rfl⟩ := List.mem_map.1 hc
  obtain ⟨hic, m, hm, -⟩ := h.child hid hn (OrderedMap.get?_eq_some_iff.2 hmem)
  obtain ⟨t', hstep, hexp'⟩ := hf hexp.coherent (Nat.le_of_lt (lt_of_le_of_lt hid hic))
    (hexp.grows.lt_size (Tree.lt_size_of_node? hm))
  exact ⟨t', hstep, hexp.trans hexp'⟩

/-- A node is expanded as a whole. It has all its contributors then. -/
theorem expandAll_spec (hs : src.index.Sound) (h : t.Coherent src base) {id : NodeId}
    (hid : base ≤ id) (hlt : id < t.size) (depth : Nat) (lineage : List EntryId) :
    ∃ t', src.expandAll depth lineage t id = .ok t' ∧ t.Expands src base t' ∧
      (0 < depth → t'.ClosedAt src id) := by
  induction depth generalizing t id lineage with
  | zero => exact ⟨t, rfl, ⟨h, .refl t⟩, fun hpos => absurd hpos (Nat.lt_irrefl 0)⟩
  | succ depth ih =>
    -- The nodes below are expanded one by one, with a longer lineage.
    have hbelow : ∀ {t : Tree} {n}, t.Coherent src base → t.node? id = some n →
        ∃ t', n.children.values.foldlM
          (src.expandAll depth (lineage ++ n.contributors.elements)) t = .ok t' ∧
          t.Expands src base t' :=
      fun h hn => foldlM_children_spec h hid hn fun h hc hlt => by
        obtain ⟨t', hall, hexp, -⟩ := ih h hc hlt _
        exact ⟨t', hall, hexp⟩
    obtain ⟨n, hn⟩ := t.exists_node? hlt
    simp only [expandAll, Tree.node_eq hn, ok_bind]
    cases hb : n.built with
    | true =>
      rw [if_pos rfl]
      obtain ⟨t', hfold, hexp⟩ := hbelow h hn
      have hat : t.ClosedAt src id := ⟨n, hn, h.closed hid hn (Or.inl hb)⟩
      exact ⟨t', hfold, hexp, fun _ => hat.grows hexp.grows⟩
    | false =>
      rw [if_neg Bool.false_ne_true]
      -- The search for contributors comes first, as it decides whether the node is cut off.
      obtain ⟨t₁, hclose, hexp, hn₁⟩ := closeContributors_spec hs h hid hn hb
      have hat : t₁.ClosedAt src id := ⟨_, hn₁, _, rfl⟩
      simp only [hclose, ok_bind, Tree.node_eq hn₁]
      split
      next => exact ⟨t₁, rfl, hexp, fun _ => hat⟩
      next =>
        obtain ⟨t₂, n₂, hbuild, hexp', hn₂, -⟩ :=
          buildLevel_spec hs hexp.coherent hid hn₁ hb ⟨_, rfl⟩
        obtain ⟨t', hfold, hexp''⟩ := hbelow hexp'.coherent hn₂
        have hgrows := (hexp'.trans hexp'').grows
        refine ⟨t', ?_, (hexp.trans hexp').trans hexp'', fun _ => hat.grows hgrows⟩
        rw [hbuild, ok_bind, Tree.node_eq hn₂]
        exact hfold

/-- A node is expanded, and has all its contributors then. -/
theorem expand_spec (hs : src.index.Sound) (h : t.Coherent src base) {id : NodeId} (hid : base ≤ id)
    (hlt : id < t.size) (path : Option (List String)) :
    ∃ t', src.expand t id path = .ok t' ∧ t.Expands src base t' ∧ t'.ClosedAt src id := by
  cases path with
  | none =>
    obtain ⟨t', hall, hexp, hat⟩ := expandAll_spec hs h hid hlt (src.maxDepth + 1) []
    exact ⟨t', hall, hexp, hat (Nat.succ_pos _)⟩
  | some path =>
    obtain ⟨t', hpath, hexp, hat⟩ := expandPath_spec hs h hid hlt (src.maxDepth + 1) path
    exact ⟨t', hpath, hexp, hat (Nat.succ_pos _)⟩

/-! ## Building -/

/-- A node for an entry that is there comes behind the others. -/
theorem createRoot?_spec (h : t.Coherent src base) {entry : EntryId} {id : NodeId}
    (hroot : src.createRoot? t entry = some (t', id)) :
    t.Expands src base t' ∧ id = t.size ∧ ∃ e, src.index.entry? entry = some e ∧ t'.node? id = some
      { name := e.name, kind := .ofEntryKind e.kind, parent := none,
        contributors := .singleton entry } := by
  obtain ⟨e, he, hadd⟩ := Option.map_eq_some_iff.1 hroot
  cases hadd
  have hview := t.node?_push
    { name := e.name, kind := .ofEntryKind e.kind, parent := none
      contributors := .singleton entry }
  refine ⟨⟨h.addRoot (by rw [he]; exact Option.some_ne_none e) _ _, fun i n hn => ⟨n, ?_, .refl n⟩⟩,
    rfl, e, he, by rw [hview, Function.update_self]⟩
  rw [hview, Function.update_of_ne (Nat.ne_of_lt (Tree.lt_size_of_node? hn)), hn]

/-- Names lead to a node that is there, and so are the nodes on the way. -/
theorem descendant_of_coherent (h : t.Coherent src base) {id : NodeId} (hid : base ≤ id)
    (hlt : id < t.size) (names : List String) :
    t.descendant id names = .ok (t.descendant? id names) ∧
      ∀ c ∈ t.descendant? id names, base ≤ c ∧ c < t.size := by
  refine Tree.descendant_spec (P := fun i => base ≤ i ∧ i < t.size) (fun {i} hi => ?_) ⟨hid, hlt⟩
    names
  obtain ⟨n, hn⟩ := Tree.exists_node? hi.2
  refine ⟨n, hn, fun {name c} hc => ?_⟩
  obtain ⟨hbelow, m, hm, -⟩ := h.child hi.1 hn hc
  exact ⟨Nat.le_of_lt (lt_of_le_of_lt hi.1 hbelow), Tree.lt_size_of_node? hm⟩

/-- The hierarchy of an entry is built behind the other nodes. -/
theorem buildNode_spec (hs : src.index.Sound) (h : t.Coherent src base) (hbase : base ≤ t.size)
    (entry : EntryId) : ∃ t' result, src.buildNode t entry = .ok (t', result) ∧
      t.Expands src base t' ∧ ∀ c, result = some c → base ≤ c ∧ c < t'.size := by
  have hnone : t.Expands src base t ∧ ∀ c, none = some c → base ≤ c ∧ c < t.size :=
    ⟨⟨h, .refl t⟩, fun c hc => absurd hc (Option.some_ne_none c).symm⟩
  unfold buildNode
  cases src.context? entry with
  | none => exact ⟨t, none, rfl, hnone⟩
  | some context =>
    obtain ⟨top, path⟩ := context
    dsimp only
    cases hroot : src.createRoot? t top with
    | none => exact ⟨t, none, rfl, hnone⟩
    | some created =>
      obtain ⟨t₁, root⟩ := created
      obtain ⟨hexp, rfl, e, -, hn⟩ := createRoot?_spec h hroot
      obtain ⟨t', hexpand, hexp', -⟩ :=
        expand_spec hs hexp.coherent hbase (Tree.lt_size_of_node? hn) (some path)
      -- Every node on the way down is there, so the walk does not fault.
      obtain ⟨hdown, hbounds⟩ := descendant_of_coherent hexp'.coherent hbase
        (hexp'.grows.lt_size (Tree.lt_size_of_node? hn)) path
      dsimp only
      refine ⟨t', t'.descendant? t.size path, ?_, hexp.trans hexp', hbounds⟩
      rw [hexpand, ok_bind, hdown]
      rfl

end Sources

end LayoutMarkup.Hierarchy
