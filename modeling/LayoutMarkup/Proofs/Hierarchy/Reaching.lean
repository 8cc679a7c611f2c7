import LayoutMarkup.Proofs.Hierarchy.Expansion

/-!
# Reaching the node of an entry

The hierarchy that an entry belongs to is found by going up: from the top-level entry of its file to
the one that this reopens in another file, and so on. It is expanded by going down: from an entry to
the entries that extend it. `Backed.reaches_of_contextFrom?` says that the second way undoes the
first: the top that was found reaches the top-level entry of the file, from which the rest of the
path leads to the entry. Expansion along a path carries this down to the last node
(`expandPath_reaches`), unless the path is longer than the levels that are expanded
(`expandPath_misses`).
-/

namespace LayoutMarkup

/-! ## Paths in the index -/

namespace Index

/-- The path of a file is its name. -/
theorem Sound.path_file {ix : Index} (h : ix.Sound) {doc : DocumentId} {r : Record}
    (hr : ix.records.get? doc = some r) {e : Entry} (he : ix.entry? r.file = some e) :
    e.path.length = 1 := by
  obtain ⟨e', he', hp⟩ := h.exists_file hr
  rw [he] at he'
  cases he'
  obtain ⟨s, hs, -, hpath⟩ := h.ordered.rooted.scope_of_parent he hp
  obtain ⟨root, hroot, -, hnil, -⟩ := h.ordered.rooted.root
  rw [hroot] at hs
  cases hs
  rw [hpath, hnil]
  rfl

end Index

namespace Hierarchy

open Index (Holding)

variable {src : Sources} {base : NodeId} {t t' : Tree} {held : OrderedMap DocumentId Holding}

namespace Sources

/-! ## The way up -/

/-- The documents of the sources are those that are bound in the index. -/
structure Backed (src : Sources) (held : OrderedMap DocumentId Holding) : Prop where
  /-- The index is sound. -/
  sound : src.index.Sound
  /-- Its records mirror the documents that are held. -/
  mirrored : src.index.Mirrored held
  /-- These are the documents of the sources. -/
  documents : ∀ id, src.documents.get? id = (held.get? id).map (·.doc)

/-- The element of the first declaration of an entry in a file is bound to the entry. -/
theorem Backed.mem_boundElements (h : src.Backed held) {id : EntryId} {e : Entry}
    (he : src.index.entry? id = some e) (hpath : e.path.length ≠ 1) {element : Element}
    (hfirst : src.firstElement? id = some element) :
    (element, id) ∈ src.index.boundElements held := by
  obtain ⟨e', he', hfirst⟩ := Option.bind_eq_some_iff.1 hfirst
  rw [he] at he'
  cases he'
  obtain ⟨-, -, hfirst⟩ := Option.bind_eq_some_iff.1 hfirst
  obtain ⟨d, hd, helement⟩ := Option.bind_eq_some_iff.1 hfirst
  obtain ⟨r, hr, hbound⟩ := (h.sound.mem_declarations he d).1 (List.mem_of_mem_head? hd)
  -- An entry in a file is declared by bound elements, and a file by the root of its document.
  have hget : r.bindings.get? d.element = some id := by
    rcases hbound with ⟨-, rfl⟩ | hget
    · exact absurd (h.sound.path_file hr he) hpath
    · exact hget
  obtain ⟨doc, hdoc, hdocget⟩ := Option.bind_eq_some_iff.1 helement
  rw [h.documents] at hdoc
  obtain ⟨b, hb, rfl⟩ := Option.map_eq_some_iff.1 hdoc
  refine List.mem_flatMap.2 ⟨(d.document, r), OrderedMap.get?_eq_some_iff.1 hr,
    List.mem_filterMap.2 ⟨(d.element, id), OrderedMap.get?_eq_some_iff.1 hget, ?_⟩⟩
  rw [hb]
  show (b.doc.get? d.element).map (·, id) = _
  rw [hdocget]
  rfl

/-- A top-level entry that reopens one of another file extends that one. -/
theorem Backed.mem_extensionsOf_reopened (h : src.Backed held) {file target top : String}
    {id other : EntryId} {e f : Entry} (he : src.index.entry? id = some e)
    (hpath : e.path = [file, top]) (hf : src.index.entry? other = some f)
    (hpath' : f.path = [target, top]) (hreopen : src.reopenedFile? file id = some target) :
    id ∈ src.index.extensionsOf other := by
  obtain ⟨hvalue, hne⟩ := Option.filter_eq_some_iff.1 hreopen
  obtain ⟨-, hfile⟩ := of_decide_eq_true hne
  obtain ⟨element, hfirst, hvalue⟩ := Option.bind_eq_some_iff.1 hvalue
  have hpathOf : src.index.pathOf id = [file, top] := by rw [Index.pathOf, he, ← hpath]; rfl
  have hpathOf' : src.index.pathOf other = [target, top] := by rw [Index.pathOf, hf, ← hpath']; rfl
  refine (h.mirrored.mem_extensionsOf h.sound).2 ⟨?_, ?_, target, element, ?_, ?_, hvalue⟩
  · rintro rfl
    rw [hpathOf] at hpathOf'
    exact hfile (List.cons.inj hpathOf').1.symm
  · rw [Index.relativeName, Index.relativeName, hpathOf, hpathOf']
    rfl
  · rw [hpathOf']
    rfl
  · exact h.mem_boundElements he (by rw [hpath]; exact Nat.succ_ne_self 1) hfirst

/-- The top that is found for an entry reaches the top-level entry of its file, or the entry itself
if that is a file, and the rest of its path leads from there to the entry. -/
theorem Backed.reaches_of_contextFrom? (h : src.Backed held) {depth : Nat} {visited : List EntryId}
    {id top : EntryId} {rest path : List String} {e : Entry} (he : src.index.entry? id = some e)
    (hcontext : src.contextFrom? depth visited id rest = some (top, path)) :
    path = e.path.drop 2 ++ rest ∧ (∃ f, src.index.entry? top = some f) ∧
      ∃ a, src.Reaches top a ∧ src.index.lookupNames? a (e.path.drop 2) = some id := by
  have hrooted := h.sound.ordered.rooted
  obtain ⟨root, hroot, -, hroots, -⟩ := hrooted.root
  induction depth generalizing visited id rest e with
  | zero => cases hcontext
  | succ depth ih =>
    obtain ⟨-, -, hcontext⟩ := Option.bind_eq_some_iff.1 hcontext
    obtain ⟨e', he', hcontext⟩ := Option.bind_eq_some_iff.1 hcontext
    rw [he] at he'
    cases he'
    split at hcontext
    next file top' below hpath =>
      obtain ⟨topEntry, htop, hcontext⟩ := Option.bind_eq_some_iff.1 hcontext
      obtain ⟨f, hf, hfpath⟩ := Index.exists_entry_of_lookupNames hrooted hroot htop
      rw [hroots, List.nil_append] at hfpath
      -- Below the top-level entry of its file the entry has the rest of its path.
      have hbelow : src.index.lookupNames? topEntry below = some id := by
        have hall := Index.lookupNames?_path hrooted he
        rw [hpath, show file :: top' :: below = [file, top'] ++ below from rfl,
          Index.lookupNames?_append, htop] at hall
        exact hall
      rw [hpath]
      split at hcontext
      next target hreopen =>
        obtain ⟨next, hnext, hcontext⟩ := Option.bind_eq_some_iff.1 hcontext
        obtain ⟨g, hg, hgpath⟩ := Index.exists_entry_of_lookupNames hrooted hroot hnext
        rw [hroots, List.nil_append] at hgpath
        obtain ⟨hpath', htop', a, hreach, ha⟩ := ih hg hcontext
        rw [hgpath] at hpath' ha
        cases ha
        exact ⟨hpath', htop', topEntry, hreach.tail
          (Or.inl (h.mem_extensionsOf_reopened hf hfpath hg hgpath hreopen)), hbelow⟩
      next =>
        obtain ⟨rfl, rfl⟩ := Prod.mk.inj (Option.some.inj hcontext)
        exact ⟨rfl, ⟨f, hf⟩, _, Relation.ReflTransGen.refl, hbelow⟩
    next hshort =>
      obtain ⟨rfl, rfl⟩ := Prod.mk.inj (Option.some.inj hcontext)
      -- The entry is a file or the root: it has no more than one name.
      have hdrop : e.path.drop 2 = [] := by
        rcases hpath : e.path with _ | ⟨file, _ | ⟨top', below⟩⟩
        · rfl
        · rfl
        · exact absurd hpath (hshort file top' below)
      rw [hdrop]
      exact ⟨rfl, ⟨e, he⟩, _, Relation.ReflTransGen.refl, rfl⟩

/-! ## The way down -/

/-- Expansion along names that lead from a contributor to an entry makes a node for each of them,
and the entry contributes to the last one. -/
theorem expandPath_reaches (hs : src.index.Sound) (h : t.Coherent src base) {id : NodeId} {n : Node}
    (hid : base ≤ id) (hn : t.node? id = some n) {depth : Nat} {names : List String}
    (hdepth : names.length ≤ depth) {a entry : EntryId}
    (ha : a ∈ src.contributors n.contributors.elements) (ha₀ : depth = 0 → a ∈ n.contributors)
    (hentry : src.index.lookupNames? a names = some entry) :
    ∃ t', src.expandPath depth t id names = .ok t' ∧ t.Expands src base t' ∧
      ∃ c m, t'.descendant? id names = some c ∧ t'.node? c = some m ∧ entry ∈ m.contributors := by
  induction names generalizing t id n depth a with
  | nil =>
    cases hentry
    cases depth with
    | zero => exact ⟨t, rfl, ⟨h, .refl t⟩, id, n, rfl, hn, ha₀ rfl⟩
    | succ depth =>
      obtain ⟨t', n', hlevel, hexp, hn', hb'⟩ :=
        expandLevel_spec hs h hid (Tree.lt_size_of_node? hn)
      refine ⟨t', hlevel, hexp, id, n', rfl, hn', ?_⟩
      -- The node keeps its contributors and has all that come with them.
      obtain ⟨ids, hids⟩ := hexp.coherent.closed hid hn' (Or.inl hb')
      obtain ⟨n₁, hn₁, hgrown⟩ := hexp.grows hn
      rw [hn'] at hn₁
      cases hn₁
      obtain ⟨b, hb, hlive, hreach⟩ := (mem_contributors hs).1 ha
      rw [hids, ← mem_contributors_contributors hs, ← hids]
      exact (mem_contributors hs).2 ⟨b, hgrown.contributors b hb hlive, hlive, hreach⟩
  | cons name names ih =>
    obtain ⟨b, hb, hentry⟩ := Option.bind_eq_some_iff.1 hentry
    cases depth with
    | zero => exact absurd hdepth (Nat.not_succ_le_zero _)
    | succ depth =>
      obtain ⟨t₁, n₁, hname, hexp, hn₁, -, hall, hchild, -⟩ := expandName_spec hs h hid hn name
      -- The entry has a node under the name, and is among its contributors.
      obtain ⟨c, hc⟩ := hchild a (hall a ha) hb
      obtain ⟨hlt, m, hm, -, -, hhas⟩ := hexp.coherent.child hid hn₁ hc
      have hmem := hhas a (hall a ha) b hb
      obtain ⟨t', hpath, hexp', d, k, hd, hk, hcontributes⟩ := ih hexp.coherent
        (Nat.le_of_lt (lt_of_le_of_lt hid hlt)) hm (Nat.le_of_succ_le_succ hdepth)
        (mem_contributors_of_mem hs hmem (Index.entry?_of_child? hs.ordered.rooted hb))
        (fun _ => hmem) hentry
      refine ⟨t', ?_, hexp.trans hexp', d, k, ?_, hk, hcontributes⟩
      · rw [expandPath, hname, ok_bind, Tree.node_eq hn₁, ok_bind, hc]
        exact hpath
      · obtain ⟨n', hn', hgrown⟩ := hexp'.grows hn₁
        have hchild' : t'.child? id name = some c := by
          rw [Tree.child?, hn', Option.bind_some, hgrown.children hc]
        show (t'.child? id name).bind _ = _
        rw [hchild']
        exact hd

/-- Expansion of a node that nothing stands below makes no more levels than it is asked for. -/
theorem expandPath_misses (hs : src.index.Sound) (h : t.Coherent src base) {id : NodeId} {n : Node}
    (hid : base ≤ id) (hn : t.node? id = some n) (hbare : n.children = ∅) {depth : Nat}
    {names : List String} (hdepth : depth < names.length) :
    ∃ t', src.expandPath depth t id names = .ok t' ∧ t.Expands src base t' ∧
      t'.descendant? id names = none := by
  induction names generalizing t id n depth with
  | nil => exact absurd hdepth (Nat.not_lt_zero _)
  | cons name names ih =>
    -- Without a node under the first name the path leads nowhere.
    have hnone : ∀ {t : Tree} {n : Node}, t.node? id = some n → n.children.get? name = none →
        t.descendant? id (name :: names) = none := by
      intro t n hn hget
      show (t.child? id name).bind _ = none
      rw [Tree.child?, hn, Option.bind_some, hget]
      rfl
    cases depth with
    | zero => exact ⟨t, rfl, ⟨h, .refl t⟩, hnone hn (by rw [hbare]; rfl)⟩
    | succ depth =>
      obtain ⟨t₁, n₁, hname, hexp, hn₁, -, -, -, hnew⟩ := expandName_spec hs h hid hn name
      rw [expandPath, hname, ok_bind, Tree.node_eq hn₁, ok_bind]
      cases hc : n₁.children.get? name with
      | none => exact ⟨t₁, rfl, hexp, hnone hn₁ hc⟩
      | some c =>
        -- The node is new, so that nothing stands below it either.
        obtain ⟨m, hm, hbare'⟩ : ∃ m, t₁.node? c = some m ∧ m.children = ∅ := by
          refine (hnew hc).resolve_left fun hold => ?_
          rw [hbare] at hold
          cases hold
        have hlt := (hexp.coherent.child hid hn₁ hc).1
        obtain ⟨t', hpath, hexp', hmiss⟩ := ih hexp.coherent
          (Nat.le_of_lt (lt_of_le_of_lt hid hlt)) hm hbare' (Nat.lt_of_succ_lt_succ hdepth)
        refine ⟨t', hpath, hexp.trans hexp', ?_⟩
        obtain ⟨n', hn', hgrown⟩ := hexp'.grows hn₁
        show (t'.child? id name).bind _ = none
        rw [Tree.child?, hn', Option.bind_some, hgrown.children hc]
        exact hmiss

end Sources

/-! ## Paths in a tree -/

namespace Tree

/-- The path of a node without a parent is its name. -/
theorem path_of_parent_eq_none {id : NodeId} {n : Node} (hn : t.node? id = some n)
    (hp : n.parent = none) : t.path id = .ok [n.name] := by
  rw [path, ancestors_of_parent_eq_none hn hp, List.reverse_singleton, List.mapM_cons,
    node_eq hn]
  rfl

/-- The path of a node goes on with the name of a node below it. -/
theorem Coherent.path_child (h : t.Coherent src base) {id c : NodeId} {n : Node} {name : String}
    {names : List String} (hid : base ≤ id) (hn : t.node? id = some n)
    (hc : n.children.get? name = some c) (hpath : t.path id = .ok names) :
    t.path c = .ok (names ++ [name]) := by
  obtain ⟨hlt, m, hm, hparent, hname, -⟩ := h.child hid hn hc
  rw [path] at hpath
  rw [path, ancestors_of_parent_eq_some hm hparent hlt, List.reverse_cons, List.mapM_append, hpath,
    ok_bind, List.mapM_cons, node_eq hm, ← hname]
  rfl

/-- The path of a node goes on with the names that lead down from it. -/
theorem Coherent.path_descendant (h : t.Coherent src base) {id c : NodeId} {n : Node}
    {names front : List String} (hid : base ≤ id) (hn : t.node? id = some n)
    (hpath : t.path id = .ok front) (hc : t.descendant? id names = some c) :
    t.path c = .ok (front ++ names) := by
  induction names generalizing id n front with
  | nil =>
    cases hc
    rw [List.append_nil, hpath]
  | cons name names ih =>
    obtain ⟨d, hd, hrest⟩ := Option.bind_eq_some_iff.1 hc
    rw [child?, hn, Option.bind_some] at hd
    obtain ⟨hlt, m, hm, -⟩ := h.child hid hn hd
    rw [ih (Nat.le_of_lt (lt_of_le_of_lt hid hlt)) hm (h.path_child hid hn hd hpath) hrest,
      List.append_assoc, List.singleton_append]

end Tree

namespace Sources

/-! ## Building -/

/-- Without a hierarchy nothing is built. -/
theorem buildNode_of_context_eq_none {entry : EntryId} (hcontext : src.context? entry = none)
    (t : Tree) : src.buildNode t entry = .ok (t, none) := by
  rw [buildNode, hcontext]
  rfl

/-- Building the hierarchy of an entry reaches the entry exactly if it is not deeper than the levels
that are expanded. Its node then has the path that was found, and the entry contributes to it. -/
theorem Backed.buildNode_reaches (h : src.Backed held) {entry top : EntryId} {path : List String}
    (hcontext : src.context? entry = some (top, path)) (t : Tree) :
    ∃ e t' result, src.index.entry? top = some e ∧ src.buildNode t entry = .ok (t', result) ∧
      (result.isSome = true ↔ path.length ≤ src.maxDepth + 1) ∧
      ∀ node, result = some node → t'.path node = .ok (e.name :: path) ∧
        ∃ n, t'.node? node = some n ∧ entry ∈ n.contributors := by
  obtain ⟨f, hf⟩ : ∃ f, src.index.entry? entry = some f := by
    obtain ⟨-, -, hcontext⟩ := Option.bind_eq_some_iff.1 hcontext
    obtain ⟨f, hf, -⟩ := Option.bind_eq_some_iff.1 hcontext
    exact ⟨f, hf⟩
  obtain ⟨hpath, ⟨e, he⟩, a, hreach, hentry⟩ := h.reaches_of_contextFrom? hf hcontext
  rw [List.append_nil] at hpath
  rw [← hpath] at hentry
  -- The nodes that were there do not matter: all happens behind them.
  have hroot : src.createRoot? t top = some (t.addRoot top e.name (.ofEntryKind e.kind)) := by
    rw [createRoot?, he]
    rfl
  obtain ⟨hexp, -, e', he', hn⟩ :=
    createRoot?_spec (Tree.Coherent.of_size_le (Nat.le_refl t.size)) hroot
  rw [he] at he'
  cases he'
  set t₁ := (t.addRoot top e.name (.ofEntryKind e.kind)).1
  have hbuild : ∀ {t'}, src.expandPath (src.maxDepth + 1) t₁ t.size path = .ok t' →
      t₁.Expands src t.size t' →
      src.buildNode t entry = .ok (t', t'.descendant? t.size path) := by
    intro t' hexpand hexp'
    obtain ⟨hdown, -⟩ := descendant_of_coherent hexp'.coherent (Nat.le_refl _)
      (hexp'.grows.lt_size (Tree.lt_size_of_node? hn)) path
    rw [buildNode, hcontext]
    dsimp only
    rw [hroot]
    show (src.expandPath (src.maxDepth + 1) t₁ t.size path >>= _) = _
    rw [hexpand, ok_bind, hdown]
    rfl
  by_cases hdepth : path.length ≤ src.maxDepth + 1
  · -- The levels are enough, so the expansion comes to the entry.
    have hcontributes : a ∈ src.contributors [top] := (mem_contributors h.sound).2
      ⟨top, List.mem_singleton.2 rfl, by rw [he]; exact Option.some_ne_none e, hreach⟩
    obtain ⟨t', hexpand, hexp', c, m, hc, hm, hmem⟩ := expandPath_reaches h.sound hexp.coherent
      (Nat.le_refl _) hn hdepth hcontributes (fun h₀ => absurd h₀ (Nat.succ_ne_zero _)) hentry
    refine ⟨e, t', some c, he, by rw [hbuild hexpand hexp', hc], by simp [hdepth], ?_⟩
    rintro node ⟨⟩
    obtain ⟨n', hn', hgrown⟩ := hexp'.grows hn
    have hpathRoot := Tree.path_of_parent_eq_none hn' hgrown.parent
    rw [hgrown.name] at hpathRoot
    exact ⟨hexp'.coherent.path_descendant (Nat.le_refl _) hn' hpathRoot hc, m, hm, hmem⟩
  · -- The last names are beyond the levels that are made.
    obtain ⟨t', hexpand, hexp', hmiss⟩ :=
      expandPath_misses h.sound hexp.coherent (Nat.le_refl _) hn rfl (Nat.not_le.1 hdepth)
    refine ⟨e, t', none, he, by rw [hbuild hexpand hexp', hmiss], by simp [hdepth], ?_⟩
    exact fun node hnode => absurd hnode (Option.some_ne_none node).symm

end Sources

end Hierarchy

end LayoutMarkup
