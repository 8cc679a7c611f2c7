import LayoutMarkup.Proofs.Hierarchy.Expansion

/-!
# Buds

The face of a node (`Node.face`) is what it is by itself: its name, its kind and its contributors.
What the face of the node at a path should be is said without a tree (`Sources.view?`): a node is
closed under what contributes to it, and then each name in a contributor makes a new face below it.

One step of expansion is done to a node that was not expanded yet (`Tree.Bud`). It touches only that
node and makes new ones (`Tree.Unfolds`), and these are buds again, with the faces that the
contributors make (`Tree.Opened`). That holds whether all nodes below are made (`expandLevel_bud`)
or only that of a name (`expandName_bud`).
-/

namespace LayoutMarkup.Hierarchy

/-! ## Faces -/

/-- What a node is by itself, apart from the nodes around it. -/
structure Face where
  /-- Its name. -/
  name : String
  /-- What it stands for. -/
  kind : Kind
  /-- The entries that contribute to it, the highest precedence first. -/
  contributors : OrderedSet EntryId

/-- The face of a node. -/
def Node.face (n : Node) : Face :=
  ⟨n.name, n.kind, n.contributors⟩

namespace Sources

/-- A face with all the contributors that come with those it has. -/
def close (src : Sources) (f : Face) : Face :=
  { f with contributors := src.contributors f.contributors.elements }

/-- One more entry under a name: the first one makes the face, and every further one takes
precedence. -/
def join (src : Sources) (name : String) (f : Option Face) (id : EntryId) : Option Face :=
  match f with
  | some f => some { f with contributors := f.contributors.insertFirst id }
  | none => (src.index.entry? id).map fun e => ⟨name, .ofEntryKind e.kind, .singleton id⟩

/-- The face that some contributors make under a name, the lowest precedence first. -/
def sprout? (src : Sources) (above : OrderedSet EntryId) (name : String) : Option Face :=
  (above.elements.reverse.filterMap (src.index.child? · name)).foldl (src.join name) none

/-- The face that names lead to from a face, every face on the way having all its contributors. -/
def view? (src : Sources) : List String → Face → Option Face
  | [], f => some (src.close f)
  | name :: names, f => (src.sprout? (src.close f).contributors name).bind (src.view? names)

end Sources

namespace Tree

/-- The face of the node that names lead to from another. -/
def face? (t : Tree) (id : NodeId) (names : List String) : Option Face :=
  ((t.descendant? id names).bind t.node?).map Node.face

/-- Without names it is the face of the node itself. -/
theorem face?_nil (t : Tree) (id : NodeId) : t.face? id [] = (t.node? id).map Node.face := rfl

/-- The first name leads to a node below, and the others go on from there. -/
theorem face?_cons (t : Tree) (id : NodeId) (name : String) (names : List String) :
    t.face? id (name :: names) = (t.child? id name).bind (t.face? · names) := by
  unfold face? descendant?
  rw [List.foldlM_cons]
  cases h : t.child? id name with
  | none => rfl
  | some c => rfl

/-- The node below a node that is there. -/
theorem child?_eq {t : Tree} {id : NodeId} {n : Node} (hn : t.node? id = some n) (name : String) :
    t.child? id name = n.children.get? name := by
  unfold child?
  rw [hn, Option.bind_some]

/-- A node that was not expanded yet. -/
def Bud (t : Tree) (id : NodeId) (f : Face) : Prop :=
  ∃ n, t.node? id = some n ∧ n.face = f ∧ n.children = ∅ ∧ n.built = false

/-- Nothing stands below a bud. -/
theorem Bud.child?_eq_none {t : Tree} {id : NodeId} {f : Face} (h : t.Bud id f) (name : String) :
    t.child? id name = none := by
  obtain ⟨n, hn, -, hchildren, -⟩ := h
  rw [child?_eq hn, hchildren]
  rfl

/-- A bud is one of the nodes. -/
theorem Bud.lt_size {t : Tree} {id : NodeId} {f : Face} (h : t.Bud id f) : id < t.size := by
  obtain ⟨n, hn, -⟩ := h
  exact lt_size_of_node? hn

/-- A node that stays as it is stays a bud. -/
theorem Bud.congr {t t' : Tree} {id : NodeId} {f : Face} (h : t.Bud id f)
    (hsame : t'.node? id = t.node? id) : t'.Bud id f := by
  obtain ⟨n, hn, hrest⟩ := h
  exact ⟨n, hsame.trans hn, hrest⟩

/-- A bud has one face. -/
theorem Bud.unique {t : Tree} {id : NodeId} {f g : Face} (hf : t.Bud id f) (hg : t.Bud id g) :
    f = g := by
  obtain ⟨n, hn, rfl, -⟩ := hf
  obtain ⟨m, hm, rfl, -⟩ := hg
  rw [hn] at hm
  cases hm
  rfl

/-! ## What expansion touches -/

/-- A tree was expanded below some nodes: the others stay as they are, and what stands below these
and below the new nodes is new. -/
structure Unfolds (ids : List NodeId) (t t' : Tree) : Prop where
  /-- Nodes come behind the others. -/
  size_le : t.size ≤ t'.size
  /-- The other nodes are as they were. -/
  kept : ∀ {i}, i < t.size → i ∉ ids → t'.node? i = t.node? i
  /-- What stands below the expanded and the new nodes is new. -/
  inside : ∀ {i name c}, i ∈ ids ∨ t.size ≤ i → t'.child? i name = some c →
    t.size ≤ c ∧ c < t'.size

section Unfolds

variable {t t₁ t₂ : Tree} {ids ids₁ ids₂ : List NodeId} {id c : NodeId} {f : Face}

/-- Nothing stands below a bud before it is expanded. -/
theorem Bud.unfolds (h : t.Bud id f) : Unfolds [id] t t := by
  refine ⟨Nat.le_refl _, fun _ _ => rfl, fun {i name c} hi hc => ?_⟩
  rcases hi with hi | hi
  · rw [List.mem_singleton.1 hi, h.child?_eq_none] at hc
    exact absurd hc (Option.some_ne_none c).symm
  · obtain ⟨n, hn, -⟩ := Option.bind_eq_some_iff.1 hc
    exact absurd (lt_size_of_node? hn) (Nat.not_lt.2 hi)

/-- Expanding below some nodes and then below others is expanding below all those that were there
in the beginning. -/
theorem Unfolds.trans (h₁ : Unfolds ids₁ t t₁) (h₂ : Unfolds ids₂ t₁ t₂)
    (hids : ∀ i < t.size, i ∈ ids ↔ i ∈ ids₁ ∨ i ∈ ids₂) : Unfolds ids t t₂ := by
  refine ⟨h₁.size_le.trans h₂.size_le, fun {i} hlt hi => ?_, fun {i name c} hi hc => ?_⟩
  · rw [hids i hlt, not_or] at hi
    rw [h₂.kept (lt_of_lt_of_le hlt h₁.size_le) hi.2, h₁.kept hlt hi.1]
  · by_cases hsecond : i ∈ ids₂ ∨ t₁.size ≤ i
    · obtain ⟨hle, hlt⟩ := h₂.inside hsecond hc
      exact ⟨h₁.size_le.trans hle, hlt⟩
    · -- The second expansion leaves the node alone, so it was expanded or made by the first one.
      obtain ⟨hnot, hlt⟩ := not_or.1 hsecond
      have hchild : t₂.child? i name = t₁.child? i name := by
        unfold child?
        rw [h₂.kept (Nat.not_le.1 hlt) hnot]
      have hfirst : i ∈ ids₁ ∨ t.size ≤ i := by
        rcases Nat.lt_or_ge i t.size with hold | hnew
        · exact Or.inl (((hids i hold).1 (hi.resolve_right (Nat.not_le.2 hold))).resolve_right hnot)
        · exact Or.inr hnew
      obtain ⟨hle, hlt'⟩ := h₁.inside hfirst (hchild ▸ hc)
      exact ⟨hle, lt_of_lt_of_le hlt' h₂.size_le⟩

/-- Expanding a node and then new ones is expanding the node. -/
theorem Unfolds.trans_new (h₁ : Unfolds [id] t t₁) (h₂ : Unfolds ids t₁ t₂)
    (hids : ∀ i ∈ ids, i = id ∨ t.size ≤ i) : Unfolds [id] t t₂ := by
  refine h₁.trans h₂ fun i hlt => ⟨Or.inl, ?_⟩
  rintro (hi | hi)
  · exact hi
  · rcases hids i hi with rfl | hle
    · exact List.mem_singleton.2 rfl
    · exact absurd hlt (Nat.not_lt.2 hle)

/-- A node that is expanded may change, if it keeps the nodes below it. -/
theorem Unfolds.adjust (h : Unfolds [id] t t₁) {n n' : Node} (hn : t₁.node? id = some n)
    (hsize : t₂.size = t₁.size) (hview : t₂.node? = Function.update t₁.node? id (some n'))
    (hchildren : n'.children = n.children) :
    Unfolds [id] t t₂ ∧ t₂.child? = t₁.child? := by
  have hchild : t₂.child? = t₁.child? := by
    funext i name
    unfold child?
    by_cases hi : i = id
    · rw [hi, hview, Function.update_self, hn, Option.bind_some, Option.bind_some, hchildren]
    · rw [hview, Function.update_of_ne hi]
  refine ⟨⟨by rw [hsize]; exact h.size_le, fun {i} hlt hi => ?_, fun hi hc => ?_⟩, hchild⟩
  · have hne : i ≠ id := fun heq => hi (List.mem_singleton.2 heq)
    rw [hview, Function.update_of_ne hne, h.kept hlt hi]
  · rw [hsize]
    exact h.inside hi (hchild ▸ hc)

/-- What stands below a node that was expanded stays when other nodes are expanded that were there
before. -/
theorem Unfolds.exists_kept (h₁ : Unfolds [c] t t₁) (h₂ : Unfolds ids t₁ t₂) (hc : c < t.size)
    (hapart : c ∉ ids) (hold : ∀ i ∈ ids, i < t.size) :
    ∃ S : NodeId → Prop, S c ∧ (∀ i, S i → t₂.node? i = t₁.node? i) ∧
      ∀ i name d, S i → t₁.child? i name = some d → S d := by
  refine ⟨fun i => (i = c ∨ t.size ≤ i) ∧ i < t₁.size,
    ⟨Or.inl rfl, lt_of_lt_of_le hc h₁.size_le⟩, fun i hi => ?_, fun i name d hi hd => ?_⟩
  · refine h₂.kept hi.2 fun hmem => ?_
    rcases hi.1 with rfl | hle
    · exact hapart hmem
    · exact absurd (hold i hmem) (Nat.not_lt.2 hle)
  · have hfirst : i ∈ [c] ∨ t.size ≤ i := hi.1.imp_left List.mem_singleton.2
    obtain ⟨hle, hlt⟩ := h₁.inside hfirst hd
    exact ⟨Or.inr hle, hlt⟩

end Unfolds

/-! ## Opening a bud -/

/-- A node was expanded: it has a face, and under every name that was asked for stands the bud that
its contributors make, if they make one. -/
structure Opened (src : Sources) (only : Option String) (id : NodeId) (f : Face) (t : Tree) :
    Prop where
  /-- The face of the node. -/
  self : t.face? id [] = some f
  /-- Where the contributors have no entry there is no node. -/
  absent : ∀ {x}, only.all (· == x) = true → src.sprout? f.contributors x = none →
    t.child? id x = none
  /-- The face that the contributors make is that of a bud. -/
  bud : ∀ {x g}, only.all (· == x) = true → src.sprout? f.contributors x = some g →
    ∃ c, t.child? id x = some c ∧ t.Bud c g

/-- A node that was expanded is there. -/
theorem Opened.exists_node {src : Sources} {only : Option String} {id : NodeId} {f : Face}
    {t : Tree} (h : t.Opened src only id f) : ∃ n, t.node? id = some n ∧ n.face = f :=
  Option.map_eq_some_iff.1 h.self

/-- Every node below a node that was expanded on the whole level is a bud that its contributors
make. -/
theorem Opened.exists_sprout {src : Sources} {id c : NodeId} {f : Face} {t : Tree}
    (h : t.Opened src none id f) {x : String} (hc : t.child? id x = some c) :
    ∃ g, src.sprout? f.contributors x = some g ∧ t.Bud c g := by
  cases hx : src.sprout? f.contributors x with
  | none =>
    rw [h.absent rfl hx] at hc
    exact absurd hc (Option.some_ne_none c).symm
  | some g =>
    obtain ⟨c', hc', hbud⟩ := h.bud rfl hx
    rw [hc] at hc'
    cases hc'
    exact ⟨g, rfl, hbud⟩

end Tree

variable {src : Sources} {base : NodeId} {t t' : Tree} {id : NodeId} {f : Face}

namespace Sources

/-- The entries that were offered under a name, in their order. -/
def offeredAs (name : String) (offers : List (String × EntryId)) : List EntryId :=
  offers.filterMap fun o => if o.1 = name then some o.2 else none

/-- An entry offers at most one entry under a name. -/
theorem offeredAs_offers {only : Option String} {name : String}
    (hname : only.all (· == name) = true) (a : EntryId) :
    offeredAs name (src.offers only a) = (src.index.child? a name).toList := by
  unfold offeredAs offers Index.child?
  cases src.index.entry? a with
  | none => rfl
  | some e =>
    rw [Option.bind_some, ← OrderedMap.filterMap_key]
    show (e.children.entries.filter _).filterMap _ = _
    rw [List.filterMap_filter]
    refine List.filterMap_congr fun ⟨x, b⟩ _ => ?_
    by_cases hx : x = name
    · subst hx
      exact if_pos hname
    · simp only [if_neg hx, ite_self]

/-- All that contributors offer under a name. -/
theorem offeredAs_flatMap {only : Option String} {name : String}
    (hname : only.all (· == name) = true) (above : List EntryId) :
    offeredAs name (above.flatMap (src.offers only)) =
      above.filterMap (src.index.child? · name) := by
  unfold offeredAs
  rw [List.filterMap_flatMap, List.filterMap_eq_flatMap_toList]
  exact List.flatMap_congr fun a _ => offeredAs_offers hname a

/-- One more entry that is offered is seen under its name only. -/
theorem offeredAs_concat (x name : String) (b : EntryId) (done : List (String × EntryId)) :
    offeredAs x (done ++ [(name, b)]) =
      if name = x then offeredAs x done ++ [b] else offeredAs x done := by
  unfold offeredAs
  rw [List.filterMap_append]
  by_cases h : name = x
  · simp [h]
  · simp [h]

end Sources

/-- The new nodes have the faces that what was offered under their names makes, one entry after
another. -/
def Tree.Fledged (src : Sources) (t : Tree) (done : List (String × EntryId)) (t' : Tree) : Prop :=
  ∀ ⦃i m⦄, t.size ≤ i → t'.node? i = some m →
    (Sources.offeredAs m.name done).foldl (src.join m.name) none = some m.face

namespace Tree.Sprouts

variable {only : Option String} {n : Node} {t₁ t₂ : Tree} {done : List (String × EntryId)}
  {children : OrderedMap String NodeId} {name x : String} {b : EntryId} {e : Entry}

/-- Nothing was offered under a name that has no node. -/
theorem offeredAs_eq_nil (hsp : t.Sprouts src only id n done t₁ children)
    (hc : children.get? x = none) : Sources.offeredAs x done = [] := by
  refine List.filterMap_eq_nil_iff.2 fun ⟨y, b⟩ hmem => if_neg ?_
  rintro rfl
  obtain ⟨c, -, hget, -⟩ := hsp.offered hmem
  rw [hc] at hget
  exact absurd hget (Option.some_ne_none c).symm

/-- A node that has a name below the node is there. -/
theorem exists_below (hsp : t.Sprouts src only id n done t₁ children) (h : t.Served src id n)
    {c : NodeId} (hc : children.get? x = some c) :
    ∃ m, t₁.node? c = some m ∧ (t.size ≤ c → m.name = x) := by
  rcases hsp.young hc with hold | ⟨-, -, m, hm, hname⟩
  · obtain ⟨hlt, m, hm, -⟩ := h hold
    refine ⟨m, ?_, fun hle => absurd (lt_size_of_node? hm) (Nat.not_lt.2 hle)⟩
    rw [hsp.kept (lt_size_of_node? hm) (Nat.ne_of_gt hlt), hm]
  · exact ⟨m, hm, fun _ => hname⟩

/-- What is offered next makes a new face, or it joins the face of its name. -/
theorem fledged_addChild (hsp : t.Sprouts src only id n done t₁ children)
    (h : t.Served src id n) (hn : t.node? id = some n) (hfaces : t.Fledged src done t₁)
    (he : src.index.entry? b = some e)
    (hadd : t₁.addChild id b name (.ofEntryKind e.kind) = .ok t₂) :
    t.Fledged src (done ++ [(name, b)]) t₂ := by
  have hlt := lt_size_of_node? hn
  -- The faces of the other names stay.
  have hother : ∀ {i m}, t.size ≤ i → t₁.node? i = some m → m.name ≠ name →
      (Sources.offeredAs m.name (done ++ [(name, b)])).foldl (src.join m.name) none =
        some m.face := by
    intro i m hi hm hne
    rw [Sources.offeredAs_concat, if_neg (Ne.symm hne)]
    exact hfaces hi hm
  intro i m hi hm
  have hne : i ≠ id := Nat.ne_of_gt (hlt.trans_le hi)
  cases hc : children.get? name with
  | none =>
    obtain ⟨t₃, hadd', -, hview⟩ := addChild_of_none hsp.self hc b (.ofEntryKind e.kind)
    rw [hadd] at hadd'
    cases hadd'
    rw [hview, Function.update_of_ne hne] at hm
    by_cases hnew : i = t₁.size
    · -- The first entry under a name makes its node.
      rw [hnew, Function.update_self] at hm
      cases hm
      dsimp only
      rw [Sources.offeredAs_concat, if_pos rfl, hsp.offeredAs_eq_nil hc]
      show src.join name none b = _
      rw [Sources.join, he]
      rfl
    · rw [Function.update_of_ne hnew] at hm
      refine hother hi hm fun hname => ?_
      have hget := (hsp.new hi hm).1
      rw [hname, hc] at hget
      exact absurd hget (Option.some_ne_none i).symm
  | some c =>
    obtain ⟨k, hk, hkname⟩ := hsp.exists_below h hc
    obtain ⟨t₃, hadd', -, hview⟩ := addChild_of_some hsp.self hc hk b (.ofEntryKind e.kind)
    rw [hadd] at hadd'
    cases hadd'
    obtain ⟨rfl, rfl⟩ | ⟨hic, hm⟩ := node?_of_update hview hm
    · -- A further entry comes in front of the contributors.
      obtain rfl : k.name = name := hkname hi
      dsimp only
      rw [Sources.offeredAs_concat, if_pos rfl, List.foldl_append, hfaces hi hk]
      rfl
    · refine hother hi hm fun hname => hic ?_
      have hget := (hsp.new hi hm).1
      rw [hname, hc] at hget
      exact (Option.some.inj hget).symm

/-- What was offered under a name below a bud makes the face there. -/
theorem face?_eq (hsp : t.Sprouts src only id n done t₁ children) (hleaf : n.children = ∅)
    (hfaces : t.Fledged src done t₁) (x : String) :
    t₁.face? id [x] = (Sources.offeredAs x done).foldl (src.join x) none := by
  rw [face?_cons, child?_eq hsp.self]
  show (children.get? x).bind _ = _
  cases hc : children.get? x with
  | none =>
    rw [hsp.offeredAs_eq_nil hc]
    rfl
  | some c =>
    rcases hsp.young hc with hold | ⟨hle, -, m, hm, rfl⟩
    · rw [hleaf] at hold
      exact absurd hold (Option.some_ne_none c).symm
    · rw [hfaces hle hm, Option.bind_some, face?_nil, hm, Option.map_some]

end Tree.Sprouts

namespace Sources

/-- A bud is given all its contributors and stays a bud. -/
theorem closeContributors_bud (hs : src.index.Sound) (h : t.Coherent src base) (hid : base ≤ id)
    (hbud : t.Bud id f) : ∃ t', src.closeContributors t id = .ok t' ∧ t'.Coherent src base ∧
      Tree.Unfolds [id] t t' ∧ t'.Bud id (src.close f) := by
  obtain ⟨n, hn, rfl, hchildren, hbuilt⟩ := hbud
  obtain ⟨t', hclose, hexp, hn'⟩ := closeContributors_spec hs h hid hn hbuilt
  obtain ⟨t₁, hadj, hsize, hview⟩ := Tree.adjust_spec hn fun node =>
    { node with contributors := src.contributors node.contributors.elements }
  have heq : t₁ = t' := Except.ok.inj (hadj.symm.trans hclose)
  subst heq
  have hstart : Tree.Unfolds [id] t t := Tree.Bud.unfolds ⟨n, hn, rfl, hchildren, hbuilt⟩
  exact ⟨t₁, hclose, hexp.coherent, (hstart.adjust hn hsize hview rfl).1, _, hn', rfl, hchildren,
    hbuilt⟩

/-- The nodes below a bud that has all its contributors are made, and they are buds. -/
theorem materialize_bud (hs : src.index.Sound) (h : t.Coherent src base) (hid : base ≤ id)
    (hbud : t.Bud id f) (hclosed : src.Closed f.contributors)
    (only : Option String) :
    ∃ t', src.materialize only t id = .ok t' ∧ t'.Coherent src base ∧ Tree.Unfolds [id] t t' ∧
      t'.Opened src only id f := by
  obtain ⟨n, hn, rfl, hchildren, hbuilt⟩ := hbud
  have hserved : t.Served src id n := Tree.served_of_leaf hchildren
  obtain ⟨t', children, hmat, hsp, hfaces⟩ := materialize_sprouts hs hserved hn only
    (Q := fun done t' => t.Fledged src done t')
    (fun i m hi hm => absurd (Tree.lt_size_of_node? hm) (Nat.not_lt.2 hi))
    (fun hsp hfaces he hadd => hsp.fledged_addChild hserved hn hfaces he hadd)
  -- What stands below the node is new.
  have hyoung : ∀ {x c}, children.get? x = some c →
      t.size ≤ c ∧ ∃ m, t'.node? c = some m ∧ m.children = ∅ ∧ m.built = false := by
    intro x c hc
    rcases hsp.young hc with hold | ⟨hle, -, m, hm, -⟩
    · rw [hchildren] at hold
      exact absurd hold (Option.some_ne_none c).symm
    · obtain ⟨-, -, hleaf, hunbuilt, -⟩ := hsp.new hle hm
      exact ⟨hle, m, hm, hleaf, hunbuilt⟩
  -- The face of a new node is the one that the offers under its name make.
  have hsprout : ∀ {x}, only.all (· == x) = true →
      t'.face? id [x] = src.sprout? n.contributors x := fun {x} hx => by
    rw [hsp.face?_eq hchildren hfaces x, offeredAs_flatMap hx]
    rfl
  refine ⟨t', hmat, hsp.coherent h hid hn hbuilt hclosed, ⟨hsp.size_le, fun hlt hi => ?_,
    fun {i x c} hi hc => ?_⟩, ?_, fun {x} hx hnone => ?_, fun {x g} hx hsome => ?_⟩
  · exact hsp.kept hlt fun heq => hi (List.mem_singleton.2 heq)
  · -- Names are new to the bud, and nothing stands below what was made just now.
    rcases hi with hi | hle
    · rw [List.mem_singleton.1 hi, Tree.child?_eq hsp.self] at hc
      obtain ⟨hle, m, hm, -⟩ := hyoung hc
      exact ⟨hle, Tree.lt_size_of_node? hm⟩
    · obtain ⟨m, hm, hget⟩ := Option.bind_eq_some_iff.1 hc
      rw [(hsp.new hle hm).2.2.1] at hget
      exact absurd hget (Option.some_ne_none c).symm
  · rw [Tree.face?_nil, hsp.self]
    rfl
  · rw [Tree.child?_eq hsp.self]
    -- A node under a name without a sprout would have a face.
    cases hc : children.get? x with
    | none => rfl
    | some c =>
      obtain ⟨-, m, hm, -⟩ := hyoung hc
      have hface : t'.face? id [x] = some m.face := by
        rw [Tree.face?_cons, Tree.child?_eq hsp.self]
        show (children.get? x).bind _ = _
        rw [hc, Option.bind_some, Tree.face?_nil, hm, Option.map_some]
      have hboth := (hsprout hx).symm.trans hface
      rw [show src.sprout? n.contributors x = none from hnone] at hboth
      exact absurd hboth (Option.some_ne_none _).symm
  · have hface := (hsprout hx).trans hsome
    rw [Tree.face?_cons] at hface
    obtain ⟨c, hc, hcf⟩ := Option.bind_eq_some_iff.1 hface
    refine ⟨c, hc, ?_⟩
    rw [Tree.child?_eq hsp.self] at hc
    obtain ⟨-, m, hm, hleaf, hunbuilt⟩ := hyoung hc
    rw [Tree.face?_nil, hm, Option.map_some] at hcf
    exact ⟨m, hm, Option.some.inj hcf, hleaf, hunbuilt⟩

/-- All nodes below a bud that has all its contributors are made, and they are buds. -/
theorem buildLevel_bud (hs : src.index.Sound) (h : t.Coherent src base) (hid : base ≤ id)
    (hbud : t.Bud id f) (hclosed : src.Closed f.contributors) :
    ∃ t' n, src.buildLevel t id = .ok t' ∧ t'.Coherent src base ∧ Tree.Unfolds [id] t t' ∧
      t'.Opened src none id f ∧ t'.node? id = some n ∧ n.built = true := by
  obtain ⟨t₁, hmat, -, hun, hopen⟩ := materialize_bud hs h hid hbud hclosed none
  obtain ⟨n, hn, hface⟩ := hopen.exists_node
  obtain ⟨t', hadj, hsize, hview⟩ := Tree.adjust_spec hn fun node => { node with built := true }
  obtain ⟨hun', hchild⟩ := hun.adjust hn hsize hview rfl
  have hbuild : src.buildLevel t id = .ok t' := by
    rw [buildLevel, hmat]
    exact hadj
  -- Marking the node as built keeps the tree coherent, since its level is made.
  have hcoherent : t'.Coherent src base := by
    obtain ⟨m, hm, rfl, -, hmbuilt⟩ := hbud
    obtain ⟨t₂, -, hbuild', hexp, -⟩ := buildLevel_spec hs h hid hm hmbuilt hclosed
    rw [hbuild] at hbuild'
    cases hbuild'
    exact hexp.coherent
  have hself : t'.node? id = some { n with built := true } := by
    rw [hview, Function.update_self]
  refine ⟨t', _, hbuild, hcoherent, hun', ⟨?_, fun hx hnone => ?_, fun {x g} hx hsome => ?_⟩,
    hself, rfl⟩
  · rw [Tree.face?_nil, hself, Option.map_some, ← hface]
    rfl
  · rw [hchild]
    exact hopen.absent hx hnone
  · obtain ⟨c, hc, hcbud⟩ := hopen.bud hx hsome
    refine ⟨c, by rw [hchild]; exact hc, hcbud.congr ?_⟩
    -- What stands below the node is another node, which was not marked.
    have hne : c ≠ id := by
      obtain ⟨hle, -⟩ := hun.inside (Or.inl (List.mem_singleton.2 rfl)) hc
      exact Nat.ne_of_gt (lt_of_lt_of_le hbud.lt_size hle)
    rw [hview, Function.update_of_ne hne]

/-- Every bud can be expanded by one level. -/
theorem expandLevel_bud (hs : src.index.Sound) (h : t.Coherent src base) (hid : base ≤ id)
    (hbud : t.Bud id f) :
    ∃ t', src.expandLevel t id = .ok t' ∧ t'.Coherent src base ∧ Tree.Unfolds [id] t t' ∧
      t'.Opened src none id (src.close f) := by
  obtain ⟨t₁, hclose, h₁, hun, hbud₁⟩ := closeContributors_bud hs h hid hbud
  obtain ⟨t', -, hbuild, h', hun', hopen, -⟩ := buildLevel_bud hs h₁ hid hbud₁ ⟨_, rfl⟩
  refine ⟨t', ?_, h', hun.trans_new hun' fun i hi => Or.inl (List.mem_singleton.1 hi), hopen⟩
  obtain ⟨n, hn, -, -, hbuilt⟩ := hbud
  rw [expandLevel, Tree.node_eq hn, ok_bind, hbuilt, if_neg Bool.false_ne_true, hclose]
  exact hbuild

/-- Every bud can be expanded by one name. -/
theorem expandName_bud (hs : src.index.Sound) (h : t.Coherent src base) (hid : base ≤ id)
    (hbud : t.Bud id f) (name : String) :
    ∃ t', src.expandName t id name = .ok t' ∧ t'.Coherent src base ∧ Tree.Unfolds [id] t t' ∧
      t'.Opened src (some name) id (src.close f) := by
  obtain ⟨t₁, hclose, h₁, hun, hbud₁⟩ := closeContributors_bud hs h hid hbud
  obtain ⟨t', hmat, h', hun', hopen⟩ := materialize_bud hs h₁ hid hbud₁ ⟨_, rfl⟩ (some name)
  refine ⟨t', ?_, h', hun.trans_new hun' fun i hi => Or.inl (List.mem_singleton.1 hi), hopen⟩
  obtain ⟨n, hn, -, -, hbuilt⟩ := hbud
  rw [expandName, Tree.node_eq hn, ok_bind, hbuilt, if_neg Bool.false_ne_true, hclose]
  exact hmat

end Sources

end LayoutMarkup.Hierarchy
