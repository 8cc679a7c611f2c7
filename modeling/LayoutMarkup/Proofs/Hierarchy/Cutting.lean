import LayoutMarkup.Proofs.Hierarchy.Unfolding

/-!
# Where a whole expansion stops

Templates and files may lead back to an entry that they came from. A whole expansion follows them
until a node shares a contributor with a node above it. `Tree.Expanded.descend` carries what holds
of the top of an expanded hierarchy down a path, with the contributors of all nodes on the way. So a
node on one of the levels is expanded exactly if it shares no contributor with a node above it, and
the contributors of expanded nodes on a path are apart (`Trimmed`). Each node on a path uses up an
entry (`Tree.Expanded.length_le`), so that there is a number of levels beyond which more of them
make no difference (`expand_trimmed`).
-/

namespace LayoutMarkup.Hierarchy

variable {src : Sources} {base : NodeId} {t : Tree} {id i : NodeId} {f : Face} {depth : Nat}
  {lineage : List EntryId} {names : List String}

/-- An entry contributes to a node on the way that names lead from a node, the last one apart. -/
def Tree.Passes (t : Tree) (id : NodeId) (names : List String) (a : EntryId) : Prop :=
  ∃ k < names.length, ∃ j m, t.descendant? id (names.take k) = some j ∧ t.node? j = some m ∧
    a ∈ m.contributors

/-- On the way along no names there is no node. -/
theorem Tree.not_passes_nil {a : EntryId} : ¬ t.Passes id [] a := by
  rintro ⟨k, hk, -⟩
  exact absurd hk (Nat.not_lt_zero k)

/-- On the way along names there is the first node, and what is on the way from the next one. -/
theorem Tree.passes_cons {n : Node} (hn : t.node? id = some n) {name : String} {c : NodeId}
    (hc : t.child? id name = some c) {a : EntryId} :
    t.Passes id (name :: names) a ↔ a ∈ n.contributors ∨ t.Passes c names a := by
  have hstep : ∀ xs, t.descendant? id (name :: xs) = t.descendant? c xs := by
    intro xs
    rw [descendant?, List.foldlM_cons, hc]
    rfl
  constructor
  · rintro ⟨k, hk, j, m, hj, hm, ha⟩
    -- The node passed is the first one, or it is passed one step earlier from the child on.
    cases k with
    | zero =>
      cases hj
      rw [hn] at hm
      cases hm
      exact Or.inl ha
    | succ k =>
      rw [List.take_succ_cons, hstep] at hj
      exact Or.inr ⟨k, Nat.lt_of_succ_lt_succ hk, j, m, hj, hm, ha⟩
  · rintro (ha | ⟨k, hk, j, m, hj, hm, ha⟩)
    · exact ⟨0, Nat.succ_pos _, id, n, rfl, hn, ha⟩
    · refine ⟨k + 1, Nat.succ_lt_succ hk, j, m, ?_, hm, ha⟩
      rw [List.take_succ_cons, hstep, hj]

namespace Tree.Expanded

/-- An expanded node is built and shares no contributor with the lineage, or nothing stands below
it, and it shares one if a level was left. -/
theorem built_or_leaf (h : t.Expanded src depth lineage id f) {n : Node}
    (hn : t.node? id = some n) :
    (n.built = true ∧ n.contributors = (src.close f).contributors ∧
      ∀ a ∈ n.contributors, a ∉ lineage) ∨
    (n.built = false ∧ n.children = ∅ ∧ (0 < depth → ∃ a ∈ n.contributors, a ∈ lineage)) := by
  cases h with
  | beyond hbud =>
    obtain ⟨m, hm, -, hchildren, hb⟩ := hbud
    rw [hn] at hm
    cases hm
    exact Or.inr ⟨hb, hchildren, fun hpos => absurd hpos (Nat.lt_irrefl 0)⟩
  | cut hbud hback =>
    obtain ⟨m, hm, hface, hchildren, hb⟩ := hbud
    rw [hn] at hm
    cases hm
    -- Its closed contributors share one with the lineage.
    refine Or.inr ⟨hb, hchildren, fun _ => ?_⟩
    rw [show n.contributors = (src.close f).contributors from congrArg Face.contributors hface]
    exact hback
  | built hm hface hb hnew =>
    rw [hn] at hm
    cases hm
    have hcontributors : n.contributors = (src.close f).contributors :=
      congrArg Face.contributors hface
    exact Or.inl ⟨hb, hcontributors, by rw [hcontributors]; exact hnew⟩

/-- A node that another one stands below was built, and the other one was expanded with its
contributors in the lineage. -/
theorem child (h : t.Expanded src depth lineage id f) {name : String} {c : NodeId}
    (hc : t.child? id name = some c) :
    ∃ depth' n g, depth = depth' + 1 ∧ t.node? id = some n ∧
      n.contributors = (src.close f).contributors ∧ (∀ a ∈ n.contributors, a ∉ lineage) ∧
      src.IsLive g ∧ t.Expanded src depth' (lineage ++ n.contributors.elements) c g := by
  cases h with
  | beyond hbud =>
    rw [hbud.child?_eq_none] at hc
    exact absurd hc (Option.some_ne_none c).symm
  | cut hbud =>
    rw [hbud.child?_eq_none] at hc
    exact absurd hc (Option.some_ne_none c).symm
  -- A bud has no children, so the node was built, and `hsprout` names the face of each child.
  | @built depth' _ _ _ n hn hface _ hnew hsprout hbelow =>
    have hcontributors : n.contributors = (src.close f).contributors :=
      congrArg Face.contributors hface
    rw [child?_eq hn] at hc
    obtain ⟨g, hg⟩ := hsprout name c hc
    refine ⟨depth', n, g, rfl, hn, hcontributors, ?_, Sources.isLive_sprout? hg, ?_⟩
    · rw [hcontributors]
      exact hnew
    · rw [hcontributors]
      exact hbelow name c g hc hg

/-- A node below an expanded one was expanded too, as far as levels were left. Its lineage is that
of the first node together with the contributors of the nodes on the way. -/
theorem descend (h : t.Expanded src depth lineage id f) (hlive : src.IsLive f)
    (hi : t.descendant? id names = some i) :
    ∃ g lineage', t.Expanded src (depth - names.length) lineage' i g ∧ src.IsLive g ∧
      ∀ a, a ∈ lineage' ↔ a ∈ lineage ∨ t.Passes id names a := by
  induction names generalizing depth lineage id f with
  | nil =>
    cases hi
    exact ⟨f, lineage, h, hlive, fun a => by simp [not_passes_nil]⟩
  | cons name names ih =>
    obtain ⟨c, hc, hrest⟩ := Option.bind_eq_some_iff.1
      (show (t.child? id name).bind (t.descendant? · names) = some i from hi)
    obtain ⟨depth', n, g, rfl, hn, -, -, hg, hbelow⟩ := h.child hc
    obtain ⟨g', lineage', hexpanded, hlive', hmem⟩ := ih hbelow hg hrest
    refine ⟨g', lineage', ?_, hlive', fun a => ?_⟩
    · rw [List.length_cons, Nat.add_sub_add_right]
      exact hexpanded
    · rw [hmem, passes_cons hn hc, List.mem_append, or_assoc]
      rfl

/-- Each node on a path uses up an entry that is not in the lineage. -/
theorem length_le (hs : src.index.Sound) (h : t.Expanded src depth lineage id f)
    (hlive : src.IsLive f) (hi : t.descendant? id names = some i) :
    names.length ≤ src.left lineage := by
  induction names generalizing depth lineage id f with
  | nil => exact Nat.zero_le _
  | cons name names ih =>
    obtain ⟨c, hc, hrest⟩ := Option.bind_eq_some_iff.1
      (show (t.child? id name).bind (t.descendant? · names) = some i from hi)
    obtain ⟨depth', n, g, rfl, -, hcontributors, hnew, hg, hbelow⟩ := h.child hc
    have hle := ih hbelow hg hrest
    rw [hcontributors] at hnew hle
    have hless := Sources.left_close_lt hs hlive hnew
    rw [List.length_cons]
    omega

end Tree.Expanded

namespace Sources

/-- All entries are left when none is listed. -/
theorem left_nil (hs : src.index.Sound) : src.left [] = src.index.size := by
  rw [Index.size_eq_ncard hs.ordered.freeListed, left]
  simp

/-- A hierarchy goes on until it would repeat itself: the nodes on its levels are built as long as
they share no contributor with a node above them. -/
structure Trimmed (src : Sources) (t : Tree) (root : NodeId) : Prop where
  /-- A node on one of the levels is built exactly if no contributor of it contributes to a node
  above it. -/
  built_iff : ∀ names i n, t.descendant? root names = some i → t.node? i = some n →
    names.length ≤ src.maxDepth →
    (n.built = true ↔ ∀ a ∈ n.contributors, ¬ t.Passes root names a)
  /-- Below a node that is not built there is none. -/
  leaf : ∀ names i n, t.descendant? root names = some i → t.node? i = some n →
    n.built = false → n.children = ∅
  /-- A node that is built has contributors. -/
  nonempty : ∀ names i n, t.descendant? root names = some i → t.node? i = some n →
    n.built = true → ∃ a, a ∈ n.contributors
  /-- The contributors of two nodes on a path, the lower of which is built, are apart. -/
  disjoint : ∀ names k i n j m, k < names.length → t.descendant? root names = some i →
    t.node? i = some n → n.built = true → t.descendant? root (names.take k) = some j →
    t.node? j = some m → ∀ a ∈ n.contributors, a ∉ m.contributors
  /-- There are not more nodes on a path than entries, and the root. -/
  length_le : ∀ names i, t.descendant? root names = some i → names.length ≤ src.index.size

/-- What was expanded as a whole is trimmed. -/
theorem trimmed_of_expanded (hs : src.index.Sound) {root : NodeId} (hlive : src.IsLive f)
    (h : t.Expanded src (src.maxDepth + 1) [] root f) : src.Trimmed t root := by
  -- The lineage at the end of a path are the contributors on the way.
  have hdown : ∀ {names i}, t.descendant? root names = some i →
      ∃ g lineage, t.Expanded src (src.maxDepth + 1 - names.length) lineage i g ∧ src.IsLive g ∧
        ∀ a, a ∈ lineage ↔ t.Passes root names a := by
    intro names i hi
    obtain ⟨g, lineage, hexpanded, hg, hmem⟩ := h.descend hlive hi
    exact ⟨g, lineage, hexpanded, hg, fun a => by rw [hmem]; simp⟩
  -- A node that was built has something new to its lineage.
  have hbuilt : ∀ {names i n}, t.descendant? root names = some i → t.node? i = some n →
      n.built = true →
      (∃ a, a ∈ n.contributors) ∧ ∀ a ∈ n.contributors, ¬ t.Passes root names a := by
    intro names i n hi hn hb
    obtain ⟨g, lineage, hexpanded, ⟨a, ha, halive⟩, hmem⟩ := hdown hi
    rcases hexpanded.built_or_leaf hn with ⟨-, hcontributors, hnew⟩ | ⟨hb', -⟩
    · refine ⟨⟨a, ?_⟩, fun b hb => by rw [← hmem]; exact hnew b hb⟩
      rw [hcontributors]
      exact mem_contributors_of_mem hs ha halive
    · rw [hb] at hb'
      cases hb'
  refine ⟨fun names i n hi hn hlen => ⟨fun hb => (hbuilt hi hn hb).2, fun hapart => ?_⟩,
    fun names i n hi hn hb => ?_, fun names i n hi hn hb => (hbuilt hi hn hb).1,
    fun names k i n j m hk hi hn hb hj hm a ha hshared =>
      (hbuilt hi hn hb).2 a ha ⟨k, hk, j, m, hj, hm, hshared⟩, fun names i hi => ?_⟩
  · -- A node apart from all on the way to it was not cut off.
    obtain ⟨g, lineage, hexpanded, -, hmem⟩ := hdown hi
    rcases hexpanded.built_or_leaf hn with ⟨hb, -⟩ | ⟨-, -, hback⟩
    · exact hb
    · obtain ⟨a, ha, hshared⟩ := hback (by omega)
      exact absurd ((hmem a).1 hshared) (hapart a ha)
  · obtain ⟨g, lineage, hexpanded, -⟩ := hdown hi
    rcases hexpanded.built_or_leaf hn with ⟨hb', -⟩ | ⟨-, hchildren, -⟩
    · rw [hb] at hb'
      cases hb'
    · exact hchildren
  · rw [← left_nil hs]
    exact h.length_le hs hlive hi

/-- For every entry of an index that a history led to, expanding a new node for it as a whole
succeeds and leaves a hierarchy that goes on until it would repeat itself. With more levels than
there are entries the limit makes no difference: all such expansions lead to one and the same
tree. -/
theorem expand_trimmed (limit : Nat) (commands : List Index.Command) (src : Sources)
    (hindex : src.index = Index.run limit commands) (entry : EntryId)
    (hlive : src.index.entry? entry ≠ none) (t : Tree) :
    ∃ u root whole full, src.createRoot? t entry = some (u, root) ∧
      src.expand u root none = .ok whole ∧ src.Trimmed whole root ∧
      ∀ depth, src.index.size < depth → src.expandAll depth [] u root = .ok full := by
  have hs : src.index.Sound := hindex ▸ Index.sound_run limit commands
  obtain ⟨e, he⟩ := Option.ne_none_iff_exists'.1 hlive
  obtain ⟨u, root, hroot, h, hle, hbud⟩ := createRoot?_bud he t
  have hface : src.IsLive ⟨e.name, .ofEntryKind e.kind, .singleton entry⟩ :=
    ⟨entry, List.mem_singleton.2 rfl, hlive⟩
  obtain ⟨whole, hwhole, -, -, hexpanded⟩ := expandAll_bud hs h hle hbud (src.maxDepth + 1) []
  obtain ⟨full, hfull, -⟩ := expandAll_bud hs h hle hbud (src.index.size + 1) []
  have htrimmed := trimmed_of_expanded hs hface hexpanded
  refine ⟨u, root, whole, full, hroot, hwhole _ (Or.inl rfl), htrimmed,
    fun depth hdepth => hfull depth (Or.inr ⟨hface, ?_, hdepth⟩)⟩
  rw [left_nil hs]
  exact Nat.lt_succ_self _

/-- Both frames in a frame name it as their template. -/
def looped : Sources :=
  .ofTexts [("Rec", "<Frame name=\"Loop\"><Frame name=\"A\" template=\"Rec/Loop\"/>" ++
    "<Frame name=\"B\" template=\"Rec/Loop\"/></Frame>")]

/-- A frame whose templates lead back to it from two places is expanded. -/
theorem expand_trimmed_looped :
    looped.index.entry? 2 ≠ none ∧
    ∃ u root whole full, looped.createRoot? {} 2 = some (u, root) ∧
      looped.expand u root none = .ok whole ∧ looped.Trimmed whole root ∧
      ∀ depth, looped.index.size < depth → looped.expandAll depth [] u root = .ok full := by
  have hlive : looped.index.entry? 2 ≠ none := by decide +kernel
  exact ⟨hlive, expand_trimmed 1 _ looped rfl 2 hlive {}⟩

end Sources

end LayoutMarkup.Hierarchy
