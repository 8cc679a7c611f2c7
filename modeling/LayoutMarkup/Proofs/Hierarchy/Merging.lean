import LayoutMarkup.Proofs.Hierarchy.Repetition
import LayoutMarkup.Proofs.Hierarchy.Buds
import LayoutMarkup.Proofs.Index.Founding

/-!
# Merging

The contributors of a node are merged below it name by name. `materialize` goes through them from
the lowest precedence to the highest: a name gets its node when it comes up for the first time, and
an entry that comes later goes in front of those that are there. So the names stand in the order of
their first appearance (`Tree.Sprouts.keys_addChild`), and each new node has exactly the entries of
its name, in the order of the contributors that they stand below (`materialize_merges`). No entry
comes twice, for an entry stands in one scope only (`nodup_filterMap_child?`).

The kind of a node is that of the entry that made it. This is the entry of the lowest precedence
(`Node.Merges`), and not the one that the node is known by: `materialize_kind_animated` has an
animation in a frame whose template has a frame of the same name.
-/

namespace LayoutMarkup

/-! ## First appearances -/

/-- One more name is new, or it appeared before. -/
theorem eraseDups_concat (names : List String) (name : String) :
    (names ++ [name]).eraseDups =
      if name ∈ names then names.eraseDups else names.eraseDups ++ [name] := by
  rw [List.eraseDups_append]
  by_cases h : name ∈ names
  · simp [h, List.removeAll]
  · simp [h, List.removeAll, List.eraseDups_cons]

/-- Names without repetitions all appear for the first time. -/
theorem eraseDups_eq_self {names : List String} (h : names.Nodup) : names.eraseDups = names := by
  induction names using List.reverseRecOn with
  | nil => rfl
  | append_singleton names name ih =>
    obtain ⟨hnames, -, hnew⟩ := List.nodup_append.1 h
    have hname : name ∉ names := fun hmem =>
      hnew name hmem name (List.mem_singleton_self name) rfl
    rw [eraseDups_concat, if_neg hname, ih hnames]

namespace Hierarchy

variable {src : Sources} {t : Tree} {id : NodeId} {n : Node}

namespace Sources

/-! ## What contributors have under a name -/

/-- The names below an entry, in its order. -/
def namesBelow (src : Sources) (id : EntryId) : List String :=
  ((src.index.entry? id).map (·.children.keys)).getD []

/-- An entry offers all names below it. -/
theorem map_fst_offers (src : Sources) (id : EntryId) :
    (src.offers none id).map Prod.fst = src.namesBelow id := by
  unfold offers namesBelow
  cases src.index.entry? id with
  | none => rfl
  | some e =>
    show (e.children.entries.filter fun _ => true).map Prod.fst = e.children.keys
    rw [List.filter_true]
    rfl

/-- The names that entries offer are those below them. -/
theorem map_fst_flatMap_offers (src : Sources) (above : List EntryId) :
    (above.flatMap (src.offers none)).map Prod.fst = above.flatMap src.namesBelow := by
  rw [List.map_flatMap]
  exact List.flatMap_congr fun a _ => src.map_fst_offers a

/-- Two contributors do not have one entry in common. -/
theorem child?_inj (hs : src.index.Sound) {a a' b : EntryId} {name : String}
    (h : src.index.child? a name = some b) (h' : src.index.child? a' name = some b) : a = a' := by
  obtain ⟨s, hscope, hget⟩ := Option.bind_eq_some_iff.1 h
  obtain ⟨s', hscope', hget'⟩ := Option.bind_eq_some_iff.1 h'
  obtain ⟨e, he, hparent, -⟩ := hs.ordered.rooted.child hscope hget
  obtain ⟨e', he', hparent', -⟩ := hs.ordered.rooted.child hscope' hget'
  rw [he] at he'
  cases he'
  exact Option.some.inj (hparent.symm.trans hparent')

/-- What contributors have under a name is as distinct as they are. -/
theorem nodup_filterMap_child? (hs : src.index.Sound) (above : OrderedSet EntryId)
    (name : String) : (above.elements.filterMap (src.index.child? · name)).Nodup :=
  above.nodup.filterMap fun _ _ _ hb hb' => child?_inj hs hb hb'

/-! ## Joined entries -/

/-- Entries that join a face come in front of its contributors, the last one foremost. -/
theorem foldl_join (src : Sources) (name : String) {l : List EntryId} {f : Face}
    (hnodup : (l.reverse ++ f.contributors.elements).Nodup) :
    ∃ g, l.foldl (src.join name) (some f) = some g ∧ g.kind = f.kind ∧
      g.contributors.elements = l.reverse ++ f.contributors.elements := by
  induction l generalizing f with
  | nil => exact ⟨f, rfl, rfl, rfl⟩
  | cons b l ih =>
    rw [List.reverse_cons, List.append_assoc, List.singleton_append] at hnodup
    have hb : b ∉ f.contributors.elements :=
      (List.nodup_cons.1 (List.nodup_append.1 hnodup).2.1).1
    have hfirst : (f.contributors.insertFirst b).elements = b :: f.contributors.elements := by
      unfold OrderedSet.insertFirst
      rw [dif_neg hb]
    rw [← hfirst] at hnodup
    obtain ⟨g, hg, hkind, helements⟩ :=
      ih (f := { f with contributors := f.contributors.insertFirst b }) hnodup
    refine ⟨g, hg, hkind, ?_⟩
    rw [helements, hfirst, List.reverse_cons, List.append_assoc, List.singleton_append]

/-- A face that entries make has them as its contributors, the last one foremost, and the kind of
the first one. -/
theorem exists_of_foldl_join {name : String} {l : List EntryId} {f : Face} (hnodup : l.Nodup)
    (hlive : ∀ b ∈ l, src.index.entry? b ≠ none)
    (hf : l.foldl (src.join name) none = some f) :
    f.contributors.elements = l.reverse ∧
      ∃ b e, l.head? = some b ∧ src.index.entry? b = some e ∧ f.kind = .ofEntryKind e.kind := by
  cases l with
  | nil => exact absurd hf (Option.some_ne_none f).symm
  | cons b l =>
    obtain ⟨e, he⟩ := Option.ne_none_iff_exists'.1 (hlive b List.mem_cons_self)
    have hreverse : (l.reverse ++ [b]).Nodup := by
      rw [← List.reverse_cons]
      exact List.nodup_reverse.2 hnodup
    obtain ⟨g, hg, hkind, helements⟩ :=
      src.foldl_join name (f := ⟨name, .ofEntryKind e.kind, .singleton b⟩) hreverse
    have hfirst : src.join name none b = some ⟨name, .ofEntryKind e.kind, .singleton b⟩ := by
      rw [join, he, Option.map_some]
    rw [List.foldl_cons, hfirst, hg] at hf
    cases hf
    exact ⟨by rw [helements, List.reverse_cons]; rfl, b, e, rfl, he, hkind⟩

end Sources

/-! ## Names below a node -/

/-- A name that is offered next comes behind those that are there, unless it is one of them. -/
theorem Tree.Sprouts.keys_addChild {only : Option String} {t₁ t₂ : Tree}
    {done : List (String × EntryId)} {children children' : OrderedMap String NodeId}
    {name : String} {b : EntryId} {kind : Kind} {names : List String}
    (hsp : t.Sprouts src only id n done t₁ children) (h : t.Served src id n)
    (hn : t.node? id = some n) (hkeys : children.keys = names.eraseDups)
    (hadd : t₁.addChild id b name kind = .ok t₂)
    (hself : t₂.node? id = some { n with children := children' }) :
    children'.keys = (names ++ [name]).eraseDups := by
  have hmem : name ∈ names ↔ name ∈ children.keys := by rw [hkeys, List.mem_eraseDups]
  rw [eraseDups_concat, ← hkeys]
  cases hc : children.get? name with
  | none =>
    -- A new name comes last.
    obtain ⟨t₃, hadd', -, hview⟩ := addChild_of_none hsp.self hc b kind
    rw [hadd] at hadd'
    cases hadd'
    rw [hview, Function.update_self] at hself
    obtain rfl : children.insert name t₁.size = children' :=
      congrArg Node.children (Option.some.inj hself)
    have hnew : name ∉ children.keys := OrderedMap.get?_eq_none_iff.1 hc
    rw [OrderedMap.keys_insert, if_neg hnew, if_neg (mt hmem.1 hnew)]
  | some c =>
    -- A known name stays in its place, and its node gets the entry.
    obtain ⟨m, hm, -⟩ := hsp.exists_below h hc
    obtain ⟨t₃, hadd', -, hview⟩ := addChild_of_some hsp.self hc hm b kind
    rw [hadd] at hadd'
    cases hadd'
    rw [hview, Function.update_of_ne (hsp.ne_self h hn hc).symm, hsp.self] at hself
    obtain rfl : children = children' := congrArg Node.children (Option.some.inj hself)
    rw [if_pos (hmem.2 (OrderedMap.mem_keys_iff.2 ⟨c, hc⟩))]

/-- A node was merged from what some contributors, the highest precedence first, have under its
name. -/
structure Node.Merges (src : Sources) (above : List EntryId) (n : Node) : Prop where
  /-- Its contributors are the entries of its name, in the order of the contributors above. -/
  contributors : n.contributors.elements = above.filterMap (src.index.child? · n.name)
  /-- Its kind is that of its last contributor. -/
  kind : ∃ b e, n.contributors.elements.getLast? = some b ∧ src.index.entry? b = some e ∧
    n.kind = .ofEntryKind e.kind

namespace Sources

/-- Making the nodes below a node puts the names that come up behind those that were there, in the
order of their first appearance, and merges every new node from what the contributors have under its
name. -/
theorem materialize_merges (hs : src.index.Sound) (h : t.Served src id n)
    (hn : t.node? id = some n) (only : Option String) :
    ∃ t' children, src.materialize only t id = .ok t' ∧
      t.Sprouts src only id n (n.contributors.elements.reverse.flatMap (src.offers only)) t'
        children ∧
      children.keys = (n.children.keys ++
        (n.contributors.elements.reverse.flatMap (src.offers only)).map Prod.fst).eraseDups ∧
      ∀ c m, t.size ≤ c → t'.node? c = some m → m.Merges src n.contributors.elements := by
  -- The names below the node are followed through all offers, along with the faces of new nodes.
  have hstart : ∀ children, t.node? id = some { n with children } →
      children.keys = (n.children.keys ++ []).eraseDups := by
    intro children hself
    rw [hn] at hself
    obtain rfl : n.children = children := congrArg Node.children (Option.some.inj hself)
    rw [List.append_nil]
    exact (eraseDups_eq_self n.children.nodup).symm
  obtain ⟨t', children, hmat, hsp, hfaces, hkeys⟩ := materialize_sprouts hs h hn only
    (Q := fun done t' => t.Fledged src done t' ∧ ∀ children,
      t'.node? id = some { n with children } →
      children.keys = (n.children.keys ++ done.map Prod.fst).eraseDups)
    ⟨fun i m hi hm => absurd (Tree.lt_size_of_node? hm) (Nat.not_lt.2 hi), hstart⟩
    fun hsp ⟨hfaces, hkeys⟩ he hadd => ⟨hsp.fledged_addChild h hn hfaces he hadd, fun _ hself => by
      rw [List.map_append, ← List.append_assoc]
      exact hsp.keys_addChild h hn (hkeys _ hsp.self) hadd hself⟩
  refine ⟨t', children, hmat, hsp, hkeys children hsp.self, fun c m hle hm => ?_⟩
  -- The node is new, so its name was asked for, and all that was offered under it is live.
  have hname : only.all (· == m.name) = true := by
    rcases hsp.young (hsp.new hle hm).1 with hold | ⟨-, hname, -⟩
    · obtain ⟨-, k, hk, -⟩ := h hold
      exact absurd (Tree.lt_size_of_node? hk) (Nat.not_lt.2 hle)
    · exact hname
  have hlive : ∀ b ∈ (n.contributors.elements.filterMap (src.index.child? · m.name)).reverse,
      src.index.entry? b ≠ none := by
    intro b hb
    obtain ⟨a, -, hab⟩ := List.mem_filterMap.1 (List.mem_reverse.1 hb)
    exact Index.entry?_of_child? hs.ordered.rooted hab
  have hface := hfaces hle hm
  rw [offeredAs_flatMap hname, List.filterMap_reverse] at hface
  obtain ⟨helements, b, e, hfirst, he, hkind⟩ := exists_of_foldl_join
    (List.nodup_reverse.2 (nodup_filterMap_child? hs n.contributors m.name)) hlive hface
  rw [List.reverse_reverse] at helements
  refine ⟨helements, b, e, ?_, he, hkind⟩
  show m.face.contributors.elements.getLast? = some b
  rw [helements, ← List.head?_reverse, hfirst]

/-- A node that is not built and that nothing stands below is expanded by one level. Then it is
built, and it has all contributors that come with those it had. The names below it are those below
its contributors, read from the lowest precedence to the highest, each where it appears for the
first time. What contributes to the new node of a name is what the contributors have under that
name, in their order, and nothing twice. No other node changes. -/
theorem expandLevel_merges (limit : Nat) (commands : List Index.Command) (src : Sources)
    (hindex : src.index = Index.run limit commands) {t : Tree} {id : NodeId} {n : Node}
    (hn : t.node? id = some n) (hleaf : n.children = ∅) (hunbuilt : n.built = false) :
    ∃ t' n', src.expandLevel t id = .ok t' ∧ t'.node? id = some n' ∧ n'.built = true ∧
      n'.contributors = src.contributors n.contributors.elements ∧
      n'.children.keys = (n'.contributors.elements.reverse.flatMap src.namesBelow).eraseDups ∧
      (∀ x c, n'.children.get? x = some c → t.size ≤ c ∧ ∃ m, t'.node? c = some m ∧
        m.name = x ∧ m.parent = some id ∧
        m.contributors.elements = n'.contributors.elements.filterMap (src.index.child? · x) ∧
        (n'.contributors.elements.filterMap (src.index.child? · x)).Nodup) ∧
      ∀ i < t.size, i ≠ id → t'.node? i = t.node? i := by
  have hs : src.index.Sound := hindex ▸ Index.sound_run limit commands
  -- The contributors are closed, the nodes are made, and the node is marked.
  obtain ⟨t₁, hclose, hsize, hview⟩ := Tree.adjust_spec hn fun node =>
    { node with contributors := src.contributors node.contributors.elements }
  have hn₁ : t₁.node? id =
      some { n with contributors := src.contributors n.contributors.elements } := by
    rw [hview, Function.update_self]
  have hserved : t₁.Served src id
      { n with contributors := src.contributors n.contributors.elements } :=
    Tree.served_of_leaf hleaf
  obtain ⟨t₂, children, hmat, hsp, hkeys, hmerges⟩ := materialize_merges hs hserved hn₁ none
  obtain ⟨t', hbuild, -, hview'⟩ :=
    Tree.adjust_spec hsp.self fun node => { node with built := true }
  refine ⟨t', _, ?_, by rw [hview', Function.update_self], rfl, rfl, ?_, fun x c hc => ?_,
    fun i hi hne => ?_⟩
  · rw [expandLevel, Tree.node_eq hn, ok_bind, hunbuilt, if_neg Bool.false_ne_true,
      show src.closeContributors t id = .ok t₁ from hclose, ok_bind, buildLevel, hmat, ok_bind,
      hbuild]
  · rw [map_fst_flatMap_offers] at hkeys
    have hnothing : n.children.keys = [] := by
      rw [hleaf]
      rfl
    rwa [hnothing, List.nil_append] at hkeys
  · -- Nothing stood below the node, so every name in it is new.
    rcases hsp.young hc with hold | ⟨hle, -, m, hm, rfl⟩
    · replace hold : n.children.get? x = some c := hold
      rw [hleaf] at hold
      exact absurd hold (Option.some_ne_none c).symm
    · have hne : c ≠ id :=
        Nat.ne_of_gt ((Tree.lt_size_of_node? hn₁).trans_le hle)
      refine ⟨hsize ▸ hle, m, by rw [hview', Function.update_of_ne hne, hm], rfl,
        (hsp.new hle hm).2.1, (hmerges c m hle hm).contributors, nodup_filterMap_child? hs _ _⟩
  · rw [hview', Function.update_of_ne hne, hsp.kept (hsize ▸ hi) hne, hview,
      Function.update_of_ne hne]

/-- A frame and its template have a frame of the same name, and one each of their own. -/
def templated : Sources :=
  .ofTexts [("T", "<Frame name=\"X\"><Frame name=\"C\"/><Frame name=\"D\"/></Frame>"),
    ("A", "<Frame name=\"M\" template=\"T/X\"><Frame name=\"E\"/><Frame name=\"C\"/></Frame>")]

/-- A node for the frame. -/
def templatedFrame : Node where
  name := "M"
  kind := .frame
  parent := none
  contributors := .singleton 6

/-- The names of the template come first, and the common one is the frame's own. -/
theorem expandLevel_merges_templated :
    templatedFrame.children = ∅ ∧ templatedFrame.built = false ∧
    ∃ t' n', templated.expandLevel ⟨#[templatedFrame]⟩ 0 = .ok t' ∧ t'.node? 0 = some n' ∧
      n'.built = true ∧ n'.contributors.elements = [6, 2] ∧ n'.children.keys = ["C", "D", "E"] ∧
      ∀ c, n'.children.get? "C" = some c → ∃ m, t'.node? c = some m ∧
        m.contributors.elements = [8, 3] := by
  -- What the general theorem speaks of, computed for this frame: its contributors, the names below
  -- them, and who has the common one.
  obtain ⟨hclosed, hnames, hcommon⟩ : (templated.contributors [6]).elements = [6, 2] ∧
      (List.flatMap templated.namesBelow [2, 6]).eraseDups = ["C", "D", "E"] ∧
      List.filterMap (templated.index.child? · "C") [6, 2] = [8, 3] := by
    decide +kernel
  have hn : Tree.node? ⟨#[templatedFrame]⟩ 0 = some templatedFrame := rfl
  obtain ⟨t', n', hlevel, hn', hbuilt, hcontributors, hkeys, hbelow, -⟩ :=
    expandLevel_merges 1 _ templated rfl hn rfl rfl
  have helements : n'.contributors.elements = [6, 2] := by
    rw [hcontributors]
    exact hclosed
  refine ⟨rfl, rfl, t', n', hlevel, hn', hbuilt, helements, ?_, fun c hc => ?_⟩
  · rw [hkeys, helements]
    exact hnames
  · obtain ⟨-, m, hm, -, -, hentries, -⟩ := hbelow "C" c hc
    refine ⟨m, hm, ?_⟩
    rw [hentries, helements]
    exact hcommon

/-- Whichever nodes are made below a node, each of them has what the contributors of the node have
under its name, in their order, and it is of the kind of the last of these entries. -/
theorem materialize_kind (limit : Nat) (commands : List Index.Command) (src : Sources)
    (hindex : src.index = Index.run limit commands) {t : Tree} {id : NodeId} {n : Node}
    (hn : t.node? id = some n) (h : t.Served src id n) (only : Option String) :
    ∃ t', src.materialize only t id = .ok t' ∧
      ∀ c m, t.size ≤ c → t'.node? c = some m → m.parent = some id ∧
        m.contributors.elements = n.contributors.elements.filterMap (src.index.child? · m.name) ∧
        ∃ b e, m.contributors.elements.getLast? = some b ∧ src.index.entry? b = some e ∧
          m.kind = .ofEntryKind e.kind := by
  have hs : src.index.Sound := hindex ▸ Index.sound_run limit commands
  obtain ⟨t', children, hmat, hsp, -, hmerges⟩ := materialize_merges hs h hn only
  exact ⟨t', hmat, fun c m hle hm => ⟨(hsp.new hle hm).2.1, (hmerges c m hle hm).contributors,
    (hmerges c m hle hm).kind⟩⟩

/-- The node for the frame, with its template. -/
def closedFrame : Node :=
  { templatedFrame with contributors := templated.contributors [6] }

/-- The frame and its template have a frame of one name. -/
theorem materialize_kind_templated :
    Tree.node? ⟨#[closedFrame]⟩ 0 = some closedFrame ∧
    Tree.Served templated ⟨#[closedFrame]⟩ 0 closedFrame ∧
    ∃ t', templated.materialize (some "C") ⟨#[closedFrame]⟩ 0 = .ok t' ∧
      ∀ c m, 1 ≤ c → t'.node? c = some m → ∃ b e,
        m.contributors.elements.getLast? = some b ∧ templated.index.entry? b = some e ∧
        m.kind = .ofEntryKind e.kind := by
  have hn : Tree.node? ⟨#[closedFrame]⟩ 0 = some closedFrame := rfl
  have hserved : Tree.Served templated ⟨#[closedFrame]⟩ 0 closedFrame := Tree.served_of_leaf rfl
  obtain ⟨t', hmat, hnew⟩ := materialize_kind 1 _ templated rfl hn hserved (some "C")
  exact ⟨hn, hserved, t', hmat, fun c m hle hm => (hnew c m hle hm).2.2⟩

/-- The documents of a frame with an animation in it, and of its template with a frame in it. -/
def animatedDocuments : List (DocumentId × Document) :=
  [(0, .parse "T" "<Frame name=\"X\"><Frame name=\"C\"/></Frame>" Index.motionSchema (some 0)),
    (1, .parse "A" "<Frame name=\"M\" template=\"T/X\"><Animation name=\"C\"/></Frame>"
      Index.motionSchema (some 0))]

/-- The animation and the frame have the same name. -/
def animated : Sources where
  index := Index.run 1 (animatedDocuments.map fun (id, doc) => .bind Index.motionSchema id doc)
  documents := .ofList animatedDocuments
  schema := Index.motionSchema
  maxDepth := 3

/-- A node for the frame, with its template. -/
def animatedFrame : Node where
  name := "M"
  kind := .frame
  parent := none
  contributors := ⟨[5, 2], by decide⟩

/-- The animation is the first contributor to the node of the name, but the node is of the kind of
the frame in the template, which made it. -/
theorem materialize_kind_animated :
    (animated.createRoot? {} 5).map (fun (t, root) => animated.closeContributors t root) =
      some (.ok ⟨#[animatedFrame]⟩) ∧
    animated.materialize none ⟨#[animatedFrame]⟩ 0 =
      .ok ⟨#[{ animatedFrame with children := .ofList [("C", 1)] },
        { name := "C", kind := .frame, parent := some 0, contributors := ⟨[6, 3], by decide⟩ }]⟩ ∧
    (animated.index.entry? 6).map (Kind.ofEntryKind ·.kind) = some .animation := by
  decide +kernel

end Sources

end Hierarchy

end LayoutMarkup
