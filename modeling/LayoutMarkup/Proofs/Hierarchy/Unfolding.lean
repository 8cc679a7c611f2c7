import LayoutMarkup.Proofs.Hierarchy.Buds
import LayoutMarkup.Proofs.Hierarchy.Repetition

/-!
# Ways of expanding

A hierarchy is expanded along a path, by following names from node to node, or as a whole. The three
ways make different trees, but where they make the same node it has the same face. Each way is
compared with `Sources.view?`, which says what the face at a path should be, by an induction of its
own: along the names (`expandPath_view`, `chain_view`), or down the levels, where a node is still a
bud when its turn comes (`foldlM_buds`, `expandAll_view`). So the three agree with each other
(`expansions_agree`).

What a node looks like after it was expanded as a whole is said once (`Tree.Expanded`), with the
levels that were left and the contributors of the nodes above it, and both what the faces are and
where the expansion stops can be read off from it.
-/

namespace LayoutMarkup.Hierarchy

variable {src : Sources} {base : NodeId} {t : Tree} {id : NodeId} {f : Face}

namespace Sources

/-! ## Along a path -/

/-- Expanding a bud along a path makes the nodes that the names lead to. -/
theorem expandPath_view (hs : src.index.Sound) {depth : Nat} {names : List String}
    (h : t.Coherent src base) (hid : base ≤ id) (hbud : t.Bud id f)
    (hdepth : names.length ≤ depth) :
    ∃ t', src.expandPath (depth + 1) t id names = .ok t' ∧ t'.Coherent src base ∧
      Tree.Unfolds [id] t t' ∧ ∀ k, t'.face? id (names.take k) = src.view? (names.take k) f := by
  induction names generalizing t id f depth with
  | nil =>
    obtain ⟨t', hlevel, h', hun, hopen⟩ := expandLevel_bud hs h hid hbud
    refine ⟨t', hlevel, h', hun, fun k => ?_⟩
    rw [List.take_nil]
    exact hopen.self
  | cons name names ih =>
    obtain ⟨d, rfl⟩ := Nat.exists_eq_add_of_le' (Nat.lt_of_lt_of_le (Nat.succ_pos _) hdepth)
    obtain ⟨t₁, hname, h₁, hun, hopen⟩ := expandName_bud hs h hid hbud name
    obtain ⟨n, hn, -⟩ := hopen.exists_node
    have hasked : (some name).all (· == name) = true := beq_self_eq_true name
    simp only [expandPath, hname, ok_bind, Tree.node_eq hn, ← Tree.child?_eq hn]
    cases hsprout : src.sprout? (src.close f).contributors name with
    | none =>
      -- No contributor has the name: the path ends here.
      have hnone := hopen.absent hasked hsprout
      rw [hnone]
      refine ⟨t₁, rfl, h₁, hun, fun k => ?_⟩
      cases k with
      | zero => exact hopen.self
      | succ k =>
        rw [List.take_succ_cons, Tree.face?_cons, hnone, Option.bind_none, view?, hsprout,
          Option.bind_none]
    | some g =>
      obtain ⟨c, hc, hcbud⟩ := hopen.bud hasked hsprout
      obtain ⟨hle, -⟩ := hun.inside (Or.inl (List.mem_singleton.2 rfl)) hc
      have hidc : id < c := lt_of_lt_of_le hbud.lt_size hle
      have hrest : names.length ≤ d := Nat.le_of_succ_le_succ hdepth
      obtain ⟨t', hpath, h', hun', hview⟩ :=
        ih h₁ (hid.trans (Nat.le_of_lt hidc)) hcbud hrest
      rw [hc]
      refine ⟨t', hpath, h', hun.trans_new hun' fun i hi =>
        Or.inr (by rw [List.mem_singleton.1 hi]; exact hle), fun k => ?_⟩
      -- The node itself is not touched any more.
      have hkept : t'.node? id = t₁.node? id :=
        hun'.kept (Tree.lt_size_of_node? hn) fun hi =>
          Nat.ne_of_lt hidc (List.mem_singleton.1 hi)
      cases k with
      | zero =>
        have hself := hopen.self
        rw [Tree.face?_nil] at hself
        rw [List.take_zero, Tree.face?_nil, hkept, hself]
        rfl
      | succ k =>
        have hchild : t'.child? id name = some c := by
          rw [Tree.child?, hkept, ← Tree.child?, hc]
        rw [List.take_succ_cons, Tree.face?_cons, hchild, Option.bind_some, hview, view?, hsprout,
          Option.bind_some]

/-! ## From node to node -/

/-- Following names from a bud leads to the nodes of their faces, as far as there are any. When the
last one is expanded, all on the way have all their contributors. -/
theorem chain_view (hs : src.index.Sound) (h : t.Coherent src base) (hid : base ≤ id)
    (hbud : t.Bud id f) (names : List String) :
    ∃ t₁ ids, src.chain t id (names.map .child) = .ok (t₁, ids) ∧
      (ids.length = names.length ↔ (src.view? names f).isSome = true) ∧
      (ids.length = names.length → ∃ t', src.expandLevel t₁ (ids.getLastD id) = .ok t' ∧
        Tree.Unfolds [id] t t' ∧ ∀ k ≤ names.length, ∃ j n, (id :: ids)[k]? = some j ∧
          t'.node? j = some n ∧ src.view? (names.take k) f = some n.face) := by
  induction names generalizing t id f with
  | nil =>
    obtain ⟨t', hlevel, -, hun, hopen⟩ := expandLevel_bud hs h hid hbud
    obtain ⟨n, hn, hface⟩ := hopen.exists_node
    refine ⟨t, [], rfl, ⟨fun _ => rfl, fun _ => rfl⟩, fun _ => ⟨t', hlevel, hun, fun k hk => ?_⟩⟩
    rw [Nat.le_zero.1 hk]
    exact ⟨id, n, rfl, hn, by rw [hface]; rfl⟩
  | cons name names ih =>
    obtain ⟨t₁, hlevel, h₁, hun, hopen⟩ := expandLevel_bud hs h hid hbud
    obtain ⟨n, hn, hface⟩ := hopen.exists_node
    simp only [List.map_cons, chain, prepare, hlevel, ok_bind, followFragment]
    cases hsprout : src.sprout? (src.close f).contributors name with
    | none =>
      -- Nothing is offered under the name, so the selection ends here.
      have hnone := hopen.absent rfl hsprout
      have hview : src.view? (name :: names) f = none := by
        rw [view?, hsprout, Option.bind_none]
      have hshort : ([] : List NodeId).length ≠ (name :: names).length := Nat.zero_ne_add_one _
      rw [hnone, hview]
      exact ⟨t₁, [], rfl, ⟨fun hlen => absurd hlen hshort, fun hsome => Bool.noConfusion hsome⟩,
        fun hlen => absurd hlen hshort⟩
    | some g =>
      -- The node of the name is a bud, from which the others are followed.
      obtain ⟨c, hc, hcbud⟩ := hopen.bud rfl hsprout
      obtain ⟨hle, -⟩ := hun.inside (Or.inl (List.mem_singleton.2 rfl)) hc
      have hidc : id < c := lt_of_lt_of_le hbud.lt_size hle
      have hview : ∀ xs, src.view? (name :: xs) f = src.view? xs g := fun xs => by
        rw [view?, hsprout, Option.bind_some]
      obtain ⟨t₂, ids, hchain, hvalid, htarget⟩ := ih h₁ (hid.trans (Nat.le_of_lt hidc)) hcbud
      rw [hc]
      refine ⟨t₂, c :: ids, ?_, ?_, fun hlen => ?_⟩
      · show (src.chain t₁ c (names.map .child) >>= _) = _
        rw [hchain]
        rfl
      · rw [List.length_cons, List.length_cons, Nat.succ_inj, hvalid, hview]
      · obtain ⟨t', hlast, hun', hnodes⟩ := htarget (Nat.succ.inj hlen)
        refine ⟨t', ?_, hun.trans_new hun' fun i hi =>
          Or.inr (by rw [List.mem_singleton.1 hi]; exact hle), fun k hk => ?_⟩
        · rw [List.getLastD_cons]
          exact hlast
        · cases k with
          | zero =>
            -- The first node was expanded before, and the nodes below it came later.
            have hkept : t'.node? id = t₁.node? id :=
              hun'.kept (Tree.lt_size_of_node? hn) fun hi =>
                Nat.ne_of_lt hidc (List.mem_singleton.1 hi)
            exact ⟨id, n, rfl, hkept.trans hn, by rw [hface]; rfl⟩
          | succ k =>
            obtain ⟨j, m, hj, hm, hmface⟩ := hnodes k (Nat.le_of_succ_le_succ hk)
            refine ⟨j, m, ?_, hm, ?_⟩
            · rw [List.getElem?_cons_succ, hj]
            · rw [List.take_succ_cons, hview, hmface]

/-! ## As a whole -/

/-- The nodes below a node are told apart by their names. -/
theorem nodup_values (h : t.Coherent src base) (hid : base ≤ id) {n : Node}
    (hn : t.node? id = some n) : n.children.values.Nodup := by
  have hkeys : n.children.entries.Nodup := List.Nodup.of_map Prod.fst n.children.nodup
  refine List.Nodup.map_on (fun x hx y hy hxy => ?_) hkeys
  obtain ⟨-, m, hm, -, hname, -⟩ := h.child hid hn (OrderedMap.get?_eq_some_iff.2 hx)
  obtain ⟨-, m', hm', -, hname', -⟩ := h.child hid hn (OrderedMap.get?_eq_some_iff.2 hy)
  rw [hxy, hm'] at hm
  cases hm
  exact Prod.ext (hname.symm.trans hname') hxy

/-- A face has a contributor that is there. -/
def IsLive (src : Sources) (f : Face) : Prop :=
  ∃ a ∈ f.contributors, src.index.entry? a ≠ none

/-- One more entry keeps a face live. -/
theorem isLive_join {name : String} {a : EntryId} {o : Option Face} (ho : ∀ g ∈ o, src.IsLive g)
    {g : Face} (hg : src.join name o a = some g) : src.IsLive g := by
  cases o with
  | some g' =>
    cases hg
    obtain ⟨b, hb, hlive⟩ := ho g' rfl
    exact ⟨b, OrderedSet.mem_insertFirst.2 (Or.inl hb), hlive⟩
  | none =>
    obtain ⟨e, he, rfl⟩ := Option.map_eq_some_iff.1 hg
    refine ⟨a, List.mem_singleton.2 rfl, ?_⟩
    rw [he]
    exact Option.some_ne_none e

/-- The faces that contributors make are live. -/
theorem isLive_sprout? {above : OrderedSet EntryId} {name : String} {g : Face}
    (hg : src.sprout? above name = some g) : src.IsLive g :=
  List.foldlRecOn (motive := fun o => ∀ g ∈ o, src.IsLive g) _ (src.join name)
    (fun _ hnone => absurd hnone (Option.not_mem_none _))
    (fun _ ho _ _ _ hjoin => isLive_join ho hjoin) g hg

/-- The number of entries that are not listed. -/
noncomputable def left (src : Sources) (lineage : List EntryId) : Nat :=
  {a | src.index.entry? a ≠ none ∧ a ∉ lineage}.ncard

/-- Listing a new entry leaves less. -/
theorem left_append_lt {lineage new : List EntryId} {a : EntryId} (ha : a ∈ new)
    (hlive : src.index.entry? a ≠ none) (hnew : a ∉ lineage) :
    src.left (lineage ++ new) < src.left lineage := by
  have hfinite : {b | src.index.entry? b ≠ none ∧ b ∉ lineage}.Finite := by
    refine (Set.finite_lt_nat src.index.slots.size).subset fun b hb => ?_
    obtain ⟨e, he⟩ := Option.ne_none_iff_exists'.1 hb.1
    exact Index.lt_size_of_entry? he
  refine Set.ncard_lt_ncard ((Set.ssubset_iff_of_subset fun b hb => ?_).2 ⟨a, ⟨hlive, hnew⟩, ?_⟩)
    hfinite
  · exact ⟨hb.1, fun hmem => hb.2 (List.mem_append_left new hmem)⟩
  · exact fun hleft => hleft.2 (List.mem_append_right lineage ha)

/-- Listing the contributors of a live face leaves less, if none of them was listed. -/
theorem left_close_lt (hs : src.index.Sound) {f : Face} (hlive : src.IsLive f)
    {lineage : List EntryId} (hnew : ∀ a ∈ (src.close f).contributors, a ∉ lineage) :
    src.left (lineage ++ (src.close f).contributors.elements) < src.left lineage := by
  obtain ⟨a, ha, halive⟩ := hlive
  have hmem : a ∈ (src.close f).contributors := mem_contributors_of_mem hs ha halive
  exact left_append_lt hmem halive (hnew a hmem)

end Sources

/-- A node was expanded as a whole on at most `depth` levels, where `f` was its face before, and
`lineage` are the contributors of the nodes above it. -/
inductive Tree.Expanded (src : Sources) (t : Tree) :
    (depth : Nat) → (lineage : List EntryId) → NodeId → Face → Prop where
  /-- No level is left, and the node is still a bud. -/
  | beyond {lineage : List EntryId} {id : NodeId} {f : Face} (hbud : t.Bud id f) :
      Expanded src t 0 lineage id f
  /-- The node has all its contributors, and one of them contributes to a node above. -/
  | cut {depth : Nat} {lineage : List EntryId} {id : NodeId} {f : Face}
      (hbud : t.Bud id (src.close f)) (hback : ∃ a ∈ (src.close f).contributors, a ∈ lineage) :
      Expanded src t (depth + 1) lineage id f
  /-- No contributor of the node contributes to a node above, and the nodes below it were expanded
  in their turn. -/
  | built {depth : Nat} {lineage : List EntryId} {id : NodeId} {f : Face} {n : Node}
      (hn : t.node? id = some n) (hface : n.face = src.close f) (hbuilt : n.built = true)
      (hnew : ∀ a ∈ (src.close f).contributors, a ∉ lineage)
      (hsprout : ∀ x c, n.children.get? x = some c →
        ∃ g, src.sprout? (src.close f).contributors x = some g)
      (hbelow : ∀ x c g, n.children.get? x = some c →
        src.sprout? (src.close f).contributors x = some g →
        Expanded src t depth (lineage ++ (src.close f).contributors.elements) c g) :
      Expanded src t (depth + 1) lineage id f

/-- What stands below a node depends only on the nodes there. -/
theorem Tree.Expanded.congr {t t' : Tree} {depth : Nat} {lineage : List EntryId}
    (h : t.Expanded src depth lineage id f) {S : NodeId → Prop}
    (hsame : ∀ i, S i → t'.node? i = t.node? i)
    (hbelow : ∀ i name c, S i → t.child? i name = some c → S c) (hid : S id) :
    t'.Expanded src depth lineage id f := by
  induction h with
  | beyond hbud => exact .beyond (hbud.congr (hsame _ hid))
  | cut hbud hback => exact .cut (hbud.congr (hsame _ hid)) hback
  | @built depth lineage id f n hn hface hbuilt hnew hsprout _ ih =>
    refine .built ((hsame _ hid).trans hn) hface hbuilt hnew hsprout fun x c g hc hg => ?_
    have hchild : t.child? id x = some c := by rw [Tree.child?_eq hn, hc]
    exact ih x c g hc hg (hbelow id x c hid hchild)

namespace Sources

/-- Buds are expanded one after another; each one is still a bud when its turn comes. Several ways
of expanding a bud that lead to the same tree do so for all of them. -/
theorem foldlM_buds {ι : Type} (step : ι → Tree → NodeId → Except Fault Tree) {depth : Nat}
    {lineage : List EntryId}
    (hstep : ∀ {t id f}, t.Coherent src base → base ≤ id → t.Bud id f → src.IsLive f →
      ∃ t', (∀ i, step i t id = .ok t') ∧ t'.Coherent src base ∧ Tree.Unfolds [id] t t' ∧
        t'.Expanded src depth lineage id f)
    {ids : List NodeId} (hnd : ids.Nodup) (h : t.Coherent src base)
    (hbuds : ∀ c ∈ ids, base ≤ c ∧ ∃ g, t.Bud c g ∧ src.IsLive g) :
    ∃ t', (∀ i, ids.foldlM (step i) t = .ok t') ∧ t'.Coherent src base ∧ Tree.Unfolds ids t t' ∧
      ∀ c ∈ ids, ∀ g, t.Bud c g → t'.Expanded src depth lineage c g := by
  induction ids generalizing t with
  | nil =>
    refine ⟨t, fun _ => rfl, h, ⟨Nat.le_refl _, fun _ _ => rfl, fun {i name c} hi hc => ?_⟩,
      fun c hc => absurd hc List.not_mem_nil⟩
    have hle := hi.resolve_left List.not_mem_nil
    obtain ⟨n, hn, -⟩ := Option.bind_eq_some_iff.1 hc
    exact absurd (Tree.lt_size_of_node? hn) (Nat.not_lt.2 hle)
  | cons c ids ih =>
    obtain ⟨hnotmem, hnd'⟩ := List.nodup_cons.1 hnd
    obtain ⟨hc, g, hcbud, hlive⟩ := hbuds c List.mem_cons_self
    obtain ⟨t₁, hfirst, h₁, hun, hexpanded⟩ := hstep h hc hcbud hlive
    -- The other buds are not touched by the first one.
    have hkeep : ∀ {d g}, d ∈ ids → t.Bud d g → t₁.Bud d g := fun hd hdbud =>
      hdbud.congr (hun.kept hdbud.lt_size fun hdc => hnotmem (List.mem_singleton.1 hdc ▸ hd))
    have hbuds₁ : ∀ d ∈ ids, base ≤ d ∧ ∃ g, t₁.Bud d g ∧ src.IsLive g := by
      intro d hd
      obtain ⟨hle, g', hdbud, hdlive⟩ := hbuds d (List.mem_cons_of_mem c hd)
      exact ⟨hle, g', hkeep hd hdbud, hdlive⟩
    obtain ⟨t', hrest, h', hun', hall⟩ := ih hnd' h₁ hbuds₁
    have hunall : Tree.Unfolds (c :: ids) t t' := hun.trans hun' fun i _ => by
      rw [List.mem_cons, List.mem_singleton]
    refine ⟨t', fun i => ?_, h', hunall, fun d hd g' hdbud => ?_⟩
    · rw [List.foldlM_cons, hfirst, ok_bind]
      exact hrest i
    · rcases List.mem_cons.1 hd with rfl | hd
      · -- What was made below the first bud is not touched by the others.
        have hold : ∀ i ∈ ids, i < t.size := fun i hi => by
          obtain ⟨-, g'', hibud, -⟩ := hbuds i (List.mem_cons_of_mem d hi)
          exact hibud.lt_size
        obtain ⟨S, hd, hsame, hbelow⟩ := hun.exists_kept hun' hcbud.lt_size hnotmem hold
        rw [hdbud.unique hcbud]
        exact hexpanded.congr hsame hbelow hd
      · exact hall d hd g' (hkeep hd hdbud)

/-- A node that was not expanded yet is given all its contributors, and if none of them is in the
lineage, the nodes below it are made and expanded. -/
theorem expandAll_succ {t₁ : Tree} {n n₁ : Node} (hn : t.node? id = some n) (hb : n.built = false)
    (hclose : src.closeContributors t id = .ok t₁) (hn₁ : t₁.node? id = some n₁)
    (lineage : List EntryId) (depth : Nat) :
    src.expandAll (depth + 1) lineage t id =
      if n₁.contributors.elements.any (· ∈ lineage) then .ok t₁
      else src.buildLevel t₁ id >>= fun t₂ => t₂.node id >>= fun n₂ => n₂.children.values.foldlM
        (src.expandAll depth (lineage ++ n₂.contributors.elements)) t₂ := by
  simp only [expandAll, Tree.node_eq hn, ok_bind, hb, if_neg Bool.false_ne_true, hclose,
    Tree.node_eq hn₁]
  rfl

/-- A bud that has all its contributors gets the nodes that these offer; all of them are new. -/
theorem buildLevel_closed (hs : src.index.Sound) {t₁ : Tree} (h₁ : t₁.Coherent src base)
    (hid : base ≤ id) (hun : Tree.Unfolds [id] t t₁) (hbud₁ : t₁.Bud id (src.close f)) :
    ∃ t₂ n, src.buildLevel t₁ id = .ok t₂ ∧ t₂.Coherent src base ∧ Tree.Unfolds [id] t t₂ ∧
      t₂.node? id = some n ∧ n.face = src.close f ∧ n.built = true ∧
      ∀ x c, n.children.get? x = some c →
        t.size ≤ c ∧ ∃ g, src.sprout? (src.close f).contributors x = some g ∧ t₂.Bud c g := by
  obtain ⟨t₂, n, hbuild, h₂, hun₂, hopen, hn, hbuilt⟩ := buildLevel_bud hs h₁ hid hbud₁ ⟨_, rfl⟩
  have hface : n.face = src.close f := by
    have hself := hopen.self
    rw [Tree.face?_nil, hn, Option.map_some] at hself
    exact Option.some.inj hself
  have hun' : Tree.Unfolds [id] t t₂ :=
    hun.trans_new hun₂ fun i hi => Or.inl (List.mem_singleton.1 hi)
  refine ⟨t₂, n, hbuild, h₂, hun', hn, hface, hbuilt, fun x c hc => ?_⟩
  have hchild : t₂.child? id x = some c := by rw [Tree.child?_eq hn, hc]
  obtain ⟨hle, -⟩ := hun'.inside (Or.inl (List.mem_singleton.2 rfl)) hchild
  exact ⟨hle, hopen.exists_sprout hchild⟩

/-- A bud can be expanded as a whole. More levels make no difference when there are more than
entries that are not in the lineage. -/
theorem expandAll_bud (hs : src.index.Sound) (h : t.Coherent src base) (hid : base ≤ id)
    (hbud : t.Bud id f) (depth : Nat) (lineage : List EntryId) :
    ∃ t', (∀ depth', depth' = depth ∨ src.IsLive f ∧ src.left lineage < depth ∧ depth ≤ depth' →
        src.expandAll depth' lineage t id = .ok t') ∧ t'.Coherent src base ∧
      Tree.Unfolds [id] t t' ∧ t'.Expanded src depth lineage id f := by
  induction depth generalizing t id f lineage with
  | zero =>
    refine ⟨t, fun depth' hdepth => ?_, h, hbud.unfolds, .beyond hbud⟩
    rcases hdepth with rfl | ⟨-, hlt, -⟩
    · rfl
    · exact absurd hlt (Nat.not_lt_zero _)
  | succ depth ih =>
    obtain ⟨t₁, hclose, h₁, hun, hbud₁⟩ := closeContributors_bud hs h hid hbud
    have ⟨n, hn, _, _, hb⟩ := hbud
    have ⟨n₁, hn₁, hface₁, _⟩ := hbud₁
    have hcontributors₁ : n₁.contributors = (src.close f).contributors :=
      congrArg Face.contributors hface₁
    have hexpand := expandAll_succ hn hb hclose hn₁ lineage
    rw [hcontributors₁] at hexpand
    by_cases hback : (src.close f).contributors.elements.any (· ∈ lineage) = true
    · -- A template leads back: the node stays without nodes below it.
      obtain ⟨a, ha, hmem⟩ := List.any_eq_true.1 hback
      refine ⟨t₁, fun depth' hdepth => ?_, h₁, hun, .cut hbud₁ ⟨a, ha, of_decide_eq_true hmem⟩⟩
      obtain ⟨d, rfl⟩ : ∃ d, depth' = d + 1 := Nat.exists_eq_add_of_le' (by omega)
      rw [hexpand d, if_pos hback]
    · have hnew : ∀ a ∈ (src.close f).contributors, a ∉ lineage := fun a ha hmem =>
        hback (List.any_eq_true.2 ⟨a, ha, decide_eq_true hmem⟩)
      obtain ⟨t₂, n₂, hbuild, h₂, hun₂, hn₂, hface₂, hbuilt, hchildren⟩ :=
        buildLevel_closed hs h₁ hid hun hbud₁
      have hcontributors₂ : n₂.contributors = (src.close f).contributors :=
        congrArg Face.contributors hface₂
      have hyoung : ∀ c ∈ n₂.children.values,
          t.size ≤ c ∧ base ≤ c ∧ ∃ g, t₂.Bud c g ∧ src.IsLive g := by
        intro c hmem
        obtain ⟨⟨x, c⟩, hx, rfl⟩ := List.mem_map.1 hmem
        obtain ⟨hle, g, hg, hcbud⟩ := hchildren x c (OrderedMap.get?_eq_some_iff.2 hx)
        exact ⟨hle, hid.trans ((Nat.le_of_lt hbud.lt_size).trans hle), g, hcbud, isLive_sprout? hg⟩
      -- All numbers of levels that are enough for the nodes below lead to the same tree.
      obtain ⟨t', hfold, h', hunall, hall⟩ := foldlM_buds
        (ι := { d // d = depth ∨
          src.left (lineage ++ (src.close f).contributors.elements) < depth ∧ depth ≤ d })
        (fun d => src.expandAll d.1 (lineage ++ (src.close f).contributors.elements))
        (fun h hid hbud hlive => by
          obtain ⟨t', hrun, hrest⟩ := ih h hid hbud (lineage ++ (src.close f).contributors.elements)
          exact ⟨t', fun d => hrun d.1 (d.2.imp_right fun hd => ⟨hlive, hd⟩), hrest⟩)
        (nodup_values h₂ hid hn₂) h₂ fun c hc => (hyoung c hc).2
      have hfresh : ∀ c ∈ n₂.children.values, c = id ∨ t.size ≤ c :=
        fun c hc => Or.inr (hyoung c hc).1
      have hkept : t'.node? id = t₂.node? id := hunall.kept (Tree.lt_size_of_node? hn₂)
        fun hmem => absurd hbud.lt_size (Nat.not_lt.2 (hyoung id hmem).1)
      refine ⟨t', fun depth' hdepth => ?_, h', hun₂.trans_new hunall hfresh,
        .built (hkept.trans hn₂) hface₂ hbuilt hnew (fun x c hc => ?_) fun x c g hc hg => ?_⟩
      · obtain ⟨d, rfl⟩ : ∃ d, depth' = d + 1 := Nat.exists_eq_add_of_le' (by omega)
        have hlevels : d = depth ∨
            src.left (lineage ++ (src.close f).contributors.elements) < depth ∧ depth ≤ d := by
          rcases hdepth with heq | ⟨hlive, hlt, hle⟩
          · exact Or.inl (Nat.succ.inj heq)
          · have hless := left_close_lt hs hlive hnew
            exact Or.inr ⟨by omega, by omega⟩
        rw [hexpand d, if_neg hback, hbuild, ok_bind, Tree.node_eq hn₂, ok_bind, hcontributors₂]
        exact hfold ⟨d, hlevels⟩
      · obtain ⟨-, g, hg, -⟩ := hchildren x c hc
        exact ⟨g, hg⟩
      · obtain ⟨-, g', hg', hcbud⟩ := hchildren x c hc
        rw [hg] at hg'
        cases hg'
        exact hall c (List.mem_map_of_mem (OrderedMap.get?_eq_some_iff.1 hc)) g hcbud

/-- Every face that is found below a node by fewer than `depth` names is the one that the names lead
to. -/
def Agrees (src : Sources) (depth : Nat) (t : Tree) (id : NodeId) (f : Face) : Prop :=
  ∀ names : List String, names.length < depth → ∀ g, t.face? id names = some g →
    src.view? names f = some g

/-- When a node was expanded as a whole, the nodes below it have the faces that their paths lead
to. -/
theorem agrees_of_expanded {depth : Nat} {lineage : List EntryId}
    (h : t.Expanded src depth lineage id f) : src.Agrees depth t id f := by
  intro names hlen g hg
  -- On the expansion: nothing is below a bud, and a built node leads on to the face of its child.
  induction h generalizing names with
  | beyond => exact absurd hlen (Nat.not_lt_zero _)
  | cut hbud =>
    cases names with
    | nil =>
      obtain ⟨n, hn, hface, -⟩ := hbud
      rw [Tree.face?_nil, hn, Option.map_some, hface] at hg
      exact hg
    | cons name names =>
      rw [Tree.face?_cons, hbud.child?_eq_none, Option.bind_none] at hg
      exact absurd hg (Option.some_ne_none g).symm
  | built hn hface _ _ hsprout _ ih =>
    cases names with
    | nil =>
      rw [Tree.face?_nil, hn, Option.map_some, hface] at hg
      exact hg
    | cons name names =>
      rw [Tree.face?_cons, Tree.child?_eq hn] at hg
      obtain ⟨c, hc, hrest⟩ := Option.bind_eq_some_iff.1 hg
      obtain ⟨g', hg'⟩ := hsprout name c hc
      rw [view?, hg', Option.bind_some]
      exact ih name c g' hc hg' names (Nat.lt_of_succ_lt_succ hlen) hrest

/-- When a bud is expanded as a whole, every node that is made has the face that its path leads
to. -/
theorem expandAll_view (hs : src.index.Sound) (h : t.Coherent src base) (hid : base ≤ id)
    (hbud : t.Bud id f) (depth : Nat) (lineage : List EntryId) :
    ∃ t', src.expandAll depth lineage t id = .ok t' ∧ t'.Coherent src base ∧
      Tree.Unfolds [id] t t' ∧ src.Agrees depth t' id f := by
  obtain ⟨t', hrun, h', hun, hexpanded⟩ := expandAll_bud hs h hid hbud depth lineage
  exact ⟨t', hrun depth (Or.inl rfl), h', hun, agrees_of_expanded hexpanded⟩

/-! ## The ways compared -/

/-- The face of a node that is found is that of the node. -/
theorem face?_eq_some_iff {names : List String} {g : Face} :
    t.face? id names = some g ↔
      ∃ i n, t.descendant? id names = some i ∧ t.node? i = some n ∧ n.face = g := by
  unfold Tree.face?
  rw [Option.map_eq_some_iff]
  constructor
  · rintro ⟨n, hn, hface⟩
    obtain ⟨i, hi, hin⟩ := Option.bind_eq_some_iff.1 hn
    exact ⟨i, n, hi, hin, hface⟩
  · rintro ⟨i, n, hi, hin, hface⟩
    exact ⟨n, Option.bind_eq_some_iff.2 ⟨i, hi, hin⟩, hface⟩

/-- A new node for an entry that is there is a bud behind all other nodes. -/
theorem createRoot?_bud {entry : EntryId} {e : Entry} (he : src.index.entry? entry = some e)
    (t : Tree) : ∃ t' root, src.createRoot? t entry = some (t', root) ∧
      t'.Coherent src t.size ∧ t.size ≤ root ∧
      t'.Bud root ⟨e.name, .ofEntryKind e.kind, .singleton entry⟩ := by
  have hroot : src.createRoot? t entry = some (t.addRoot entry e.name (.ofEntryKind e.kind)) := by
    rw [createRoot?, he, Option.map_some]
  have hnothing : t.Coherent src t.size := .of_size_le (Nat.le_refl _)
  obtain ⟨hexp, hsize, e', he', hn⟩ := createRoot?_spec hnothing hroot
  rw [he] at he'
  cases he'
  exact ⟨_, _, hroot, hexp.coherent, Nat.le_of_eq hsize.symm, _, hn, rfl, rfl, rfl⟩

/-- Where three ways of expanding a node for the same entry agree: in the tree `along` the node was
expanded along some names, in `followed` these were followed from it, and in `whole` it was expanded
as a whole. -/
structure Agreement (src : Sources) (names : List String) (along : Tree) (root₁ : NodeId)
    (followed : Tree) (root₂ : NodeId) (selection : Selection) (whole : Tree) (root₃ : NodeId) :
    Prop where
  /-- There is a node along the names exactly if they can be followed. -/
  found : (along.descendant? root₁ names).isSome = true ↔ selection.isValid = true
  /-- When the last node that was followed is expanded, it and all nodes on the way have the names,
  kinds and contributors of those along the names. -/
  same : selection.isValid = true → ∃ target expanded, selection.target? = some target ∧
    src.expandLevel followed target = .ok expanded ∧
    ∀ k ≤ names.length, ∃ i n j m, along.descendant? root₁ (names.take k) = some i ∧
      along.node? i = some n ∧ (root₂ :: selection.chain)[k]? = some j ∧
      expanded.node? j = some m ∧ n.name = m.name ∧ n.kind = m.kind ∧
      n.contributors = m.contributors
  /-- A node that is found in the whole is also found along the names, and has the same kind and
  contributors there. -/
  whole : ∀ i, whole.descendant? root₃ names = some i → ∃ n j m, whole.node? i = some n ∧
    along.descendant? root₁ names = some j ∧ along.node? j = some m ∧ m.kind = n.kind ∧
    m.contributors = n.contributors

/-- For every entry of an index that a history led to, expanding new nodes for it along a path that
is not too long, by following its names and as a whole succeeds, and the three ways agree. -/
theorem expansions_agree (limit : Nat) (commands : List Index.Command) (src : Sources)
    (hindex : src.index = Index.run limit commands) (entry : EntryId)
    (hlive : src.index.entry? entry ≠ none) (names : List String) (hsome : 1 ≤ names.length)
    (hdepth : names.length ≤ src.maxDepth) (t₁ t₂ t₃ : Tree) :
    ∃ u₁ root₁ along u₂ root₂ followed selection u₃ root₃ whole,
      src.createRoot? t₁ entry = some (u₁, root₁) ∧
      src.expand u₁ root₁ (some names) = .ok along ∧
      src.createRoot? t₂ entry = some (u₂, root₂) ∧
      src.select u₂ root₂ (names.map .child) = .ok (followed, selection) ∧
      src.createRoot? t₃ entry = some (u₃, root₃) ∧
      src.expand u₃ root₃ none = .ok whole ∧
      src.Agreement names along root₁ followed root₂ selection whole root₃ := by
  have hs : src.index.Sound := hindex ▸ Index.sound_run limit commands
  obtain ⟨e, he⟩ := Option.ne_none_iff_exists'.1 hlive
  obtain ⟨u₁, root₁, hroot₁, h₁, hle₁, hbud₁⟩ := createRoot?_bud he t₁
  obtain ⟨u₂, root₂, hroot₂, h₂, hle₂, hbud₂⟩ := createRoot?_bud he t₂
  obtain ⟨u₃, root₃, hroot₃, h₃, hle₃, hbud₃⟩ := createRoot?_bud he t₃
  obtain ⟨along, halong, halong', hun, hview⟩ := expandPath_view hs h₁ hle₁ hbud₁ hdepth
  obtain ⟨followed, ids, hchain, hvalid, htarget⟩ := chain_view hs h₂ hle₂ hbud₂ names
  obtain ⟨whole, hwhole, hwhole', hun₃, hagrees⟩ := expandAll_view hs h₃ hle₃ hbud₃
    (src.maxDepth + 1) []
  have hselect : src.select u₂ root₂ (names.map .child) = .ok (followed, ⟨ids, names.length⟩) := by
    rw [select, hchain, List.length_map]
    rfl
  have hend := hview names.length
  rw [List.take_length] at hend
  -- A path that leads somewhere leads to a node.
  have hnode : ∀ {t : Tree} {base root i}, t.Coherent src base → base ≤ root → root < t.size →
      t.descendant? root names = some i → ∃ n, t.node? i = some n := fun h hle hlt hi =>
    Tree.exists_node? ((descendant_of_coherent h hle hlt names).2 _ hi).2
  have hlt₁ : root₁ < along.size := lt_of_lt_of_le hbud₁.lt_size hun.size_le
  have hlt₃ : root₃ < whole.size := lt_of_lt_of_le hbud₃.lt_size hun₃.size_le
  refine ⟨u₁, root₁, along, u₂, root₂, followed, ⟨ids, names.length⟩, u₃, root₃, whole, hroot₁,
    halong, hroot₂, hselect, hroot₃, hwhole, ?_, fun hok => ?_, fun i hi => ?_⟩
  · -- Both are valid exactly if there is a face at the end of the path.
    rw [Selection.isValid, beq_iff_eq, hvalid, ← hend]
    constructor
    · intro hfound
      obtain ⟨i, hi⟩ := Option.isSome_iff_exists.1 hfound
      obtain ⟨n, hn⟩ := hnode halong' hle₁ hlt₁ hi
      exact Option.isSome_iff_exists.2 ⟨n.face, face?_eq_some_iff.2 ⟨i, n, hi, hn, rfl⟩⟩
    · intro hface
      obtain ⟨g, hg⟩ := Option.isSome_iff_exists.1 hface
      obtain ⟨i, -, hi, -⟩ := face?_eq_some_iff.1 hg
      exact Option.isSome_iff_exists.2 ⟨i, hi⟩
  · -- Along the path the two trees have nodes of the same faces.
    have hlen : ids.length = names.length := beq_iff_eq.1 hok
    have hne : ids ≠ [] := List.length_pos_iff.1 (by omega)
    obtain ⟨expanded, hlevel, -, hnodes⟩ := htarget hlen
    refine ⟨ids.getLastD root₂, expanded, ?_, hlevel, fun k hk => ?_⟩
    · rw [Selection.target?, if_pos hok, Selection.deepest?, List.getLast?_eq_some_getLast hne,
        List.getLastD_eq_getLast?, List.getLast?_eq_some_getLast hne]
      rfl
    · obtain ⟨j, m, hj, hm, hmface⟩ := hnodes k hk
      obtain ⟨i, n, hi, hn, hnm⟩ := face?_eq_some_iff.1 ((hview k).trans hmface)
      exact ⟨i, n, j, m, hi, hn, hj, hm, congrArg Face.name hnm, congrArg Face.kind hnm,
        congrArg Face.contributors hnm⟩
  · -- What the whole expansion has at the end of the path has the face of the other two.
    obtain ⟨n, hn⟩ := hnode hwhole' hle₃ hlt₃ hi
    have hface := hagrees names (Nat.lt_succ_of_le hdepth) n.face
      (face?_eq_some_iff.2 ⟨i, n, hi, hn, rfl⟩)
    obtain ⟨j, m, hj, hm, hmn⟩ := face?_eq_some_iff.1 (hend.trans hface)
    exact ⟨n, j, m, hn, hj, hm, congrArg Face.kind hmn, congrArg Face.contributors hmn⟩

/-- The frames of two files extend each other; the three ways find the frame in one of them. -/
theorem expansions_agree_entwined :
    entwined.index.entry? 2 ≠ none ∧
    ∃ u₁ root₁ along u₂ root₂ followed selection u₃ root₃ whole,
      entwined.createRoot? {} 2 = some (u₁, root₁) ∧
      entwined.expand u₁ root₁ (some ["Child"]) = .ok along ∧
      entwined.createRoot? {} 2 = some (u₂, root₂) ∧
      entwined.select u₂ root₂ [.child "Child"] = .ok (followed, selection) ∧
      entwined.createRoot? {} 2 = some (u₃, root₃) ∧
      entwined.expand u₃ root₃ none = .ok whole ∧
      entwined.Agreement ["Child"] along root₁ followed root₂ selection whole root₃ ∧
      (along.descendant? root₁ ["Child"]).isSome = true ∧ selection.isValid = true ∧
      (whole.descendant? root₃ ["Child"]).isSome = true := by
  -- The theorem says that the three ways agree; that they find something is computed.
  obtain ⟨hlive, hvalid, hsome⟩ : entwined.index.entry? 2 ≠ none ∧
      ((entwined.createRoot? {} 2).bind fun x =>
        (entwined.select x.1 x.2 [.child "Child"]).toOption.map (·.2.isValid)) = some true ∧
      ((entwined.createRoot? {} 2).bind fun x =>
        (entwined.expand x.1 x.2 none).toOption.bind
          (·.descendant? x.2 ["Child"])).isSome = true := by
    decide +kernel
  have hdepth : ["Child"].length ≤ entwined.maxDepth := by decide
  obtain ⟨u₁, root₁, along, u₂, root₂, followed, selection, u₃, root₃, whole, hroot₁, halong,
    hroot₂, hselect, hroot₃, hwhole, hagree⟩ :=
    expansions_agree 1 _ entwined rfl 2 hlive ["Child"] (by decide) hdepth {} {} {}
  have hselect' : entwined.select u₂ root₂ [.child "Child"] = .ok (followed, selection) := hselect
  rw [hroot₂, Option.bind_some, hselect'] at hvalid
  rw [hroot₃, Option.bind_some, hwhole] at hsome
  have hfound : selection.isValid = true := Option.some.inj hvalid
  exact ⟨hlive, u₁, root₁, along, u₂, root₂, followed, selection, u₃, root₃, whole, hroot₁, halong,
    hroot₂, hselect, hroot₃, hwhole, hagree, hagree.found.2 hfound, hfound, hsome⟩

end Sources

end LayoutMarkup.Hierarchy
