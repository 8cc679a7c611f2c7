import LayoutMarkup.Proofs.Hierarchy.Outdated

/-!
# Built nodes are frozen

A tree that operations led to is used on, all with the same index and documents. `Node.Freezes`
says what becomes of a node of it: it stays where it is, it loses none of the nodes below it, and
from the moment when all of these are there its contributors and the nodes below it do not change
any more. What its declarations hold may be found out once, and what is found out after that moment
is what would be found later.

Expansion comes back to nodes that are built: a node of which only some names were expanded gets all
its contributors again, and these join the nodes below it again. They join nothing new, since a tree
that was made from one index is coherent; so it is coherence that the operations have to keep
(`freezes_evolves`).
-/

namespace LayoutMarkup.Hierarchy

variable {src : Sources} {t t' t'' : Tree}

/-! ## Nodes that stay -/

/-- What becomes of a node while operations are done. -/
structure Node.Freezes (src : Sources) (n n' : Node) : Prop where
  /-- It keeps its name. -/
  name : n'.name = n.name
  /-- It keeps its kind. -/
  kind : n'.kind = n.kind
  /-- It keeps its place. -/
  parent : n'.parent = n.parent
  /-- It keeps the nodes below it. -/
  children : ∀ {name c}, n.children.get? name = some c → n'.children.get? name = some c
  /-- When it is built, it stays built with its contributors and the nodes below it, each in their
  order. -/
  built : n.built = true →
    n'.built = true ∧ n'.contributors = n.contributors ∧ n'.children = n.children
  /-- When it is built and something is found out about its declarations, that is what its
  contributors have. -/
  rawChildren : n.built = true → n'.rawChildren = n.rawChildren ∨
    n.rawChildren = none ∧ n'.rawChildren = some (src.elementsIn n'.contributors.elements)

/-- All nodes of a tree stay, and others may come behind them. -/
def Tree.Freezes (src : Sources) (t t' : Tree) : Prop :=
  ∀ ⦃i n⦄, t.node? i = some n → ∃ n', t'.node? i = some n' ∧ n.Freezes src n'

/-- A node that grows stays. -/
theorem Node.Grows.freezes {n n' : Node} (h : n.Grows src n') : n.Freezes src n' where
  name := h.name
  kind := h.kind
  parent := h.parent
  children hc := h.children hc
  built := h.built
  rawChildren _ := Or.inl h.rawChildren

/-- A node may stay on and on. -/
theorem Node.Freezes.trans {n n' n'' : Node} (h : n.Freezes src n') (h' : n'.Freezes src n'') :
    n.Freezes src n'' where
  name := h'.name.trans h.name
  kind := h'.kind.trans h.kind
  parent := h'.parent.trans h.parent
  children hc := h'.children (h.children hc)
  built hb := by
    obtain ⟨hb', hcontributors, hchildren⟩ := h.built hb
    obtain ⟨hb'', hcontributors', hchildren'⟩ := h'.built hb'
    exact ⟨hb'', hcontributors'.trans hcontributors, hchildren'.trans hchildren⟩
  rawChildren hb := by
    obtain ⟨hb', -, -⟩ := h.built hb
    obtain ⟨-, hcontributors, -⟩ := h'.built hb'
    -- What was found out first stays, since the contributors do not change any more.
    rcases h.rawChildren hb with hsame | ⟨hnone, hfound⟩
    · rw [← hsame]
      exact h'.rawChildren hb'
    · rcases h'.rawChildren hb' with hsame' | ⟨hnone', -⟩
      · exact Or.inr ⟨hnone, by rw [hsame', hfound, hcontributors]⟩
      · rw [hfound] at hnone'
        exact absurd hnone' (Option.some_ne_none _)

/-- All nodes of a tree stay that does not change. -/
theorem Tree.Freezes.refl (t : Tree) : t.Freezes src t :=
  fun _ n hn => ⟨n, hn, (Node.Grows.refl n).freezes⟩

/-- Nodes may stay on and on. -/
theorem Tree.Freezes.trans (h : t.Freezes src t') (h' : t'.Freezes src t'') :
    t.Freezes src t'' := by
  intro i n hn
  obtain ⟨n', hn', hfreezes⟩ := h hn
  obtain ⟨n'', hn'', hfreezes'⟩ := h' hn'
  exact ⟨n'', hn'', hfreezes.trans hfreezes'⟩

/-- All nodes of a tree stay that grows. -/
theorem Tree.Grows.freezes (h : t.Grows src t') : t.Freezes src t' := by
  intro i n hn
  obtain ⟨n', hn', hgrows⟩ := h hn
  exact ⟨n', hn', hgrows.freezes⟩

/-! ## Trees that fit together -/

/-- The nodes of a tree and the nodes below them point at each other. -/
structure Tree.Joined (t : Tree) : Prop where
  /-- A node below another one comes after it, and knows it and its own name. -/
  child : ∀ {i n name c}, t.node? i = some n → n.children.get? name = some c →
    i < c ∧ ∃ m, t.node? c = some m ∧ m.parent = some i ∧ m.name = name
  /-- A node that stands below another one comes after it, and is found there under its name. -/
  parent : ∀ {c m p}, t.node? c = some m → m.parent = some p →
    p < c ∧ ∃ n, t.node? p = some n ∧ n.children.get? m.name = some c

/-- In a coherent tree they do. -/
theorem Tree.Coherent.joined (h : t.Coherent src 0) : t.Joined where
  child := by
    intro i n name c hn hc
    obtain ⟨hlt, m, hm, hparent, hname, -⟩ := h.child (Nat.zero_le i) hn hc
    exact ⟨hlt, m, hm, hparent, hname⟩
  parent := by
    intro c m p hm hp
    obtain ⟨-, hlt, n, hn, hc⟩ := h.parent (Nat.zero_le c) hm hp
    exact ⟨hlt, n, hn, hc⟩

/-! ## Operations -/

namespace Sources

/-- What the declarations of a node hold is kept as it is found. -/
theorem rawChildren_freezes {id : NodeId} {found : List Declaration}
    (hok : src.rawChildren t id = .ok (t', found)) : t.Freezes src t' := by
  rcases rawChildren_cases hok with rfl | ⟨n, hn, hraw, hview⟩
  · exact .refl t'
  · have hfreezes : n.Freezes src
        { n with rawChildren := some (src.elementsIn n.contributors.elements) } :=
      ⟨rfl, rfl, rfl, fun hc => hc, fun hb => ⟨hb, rfl, rfl⟩, fun _ => Or.inr ⟨hraw, rfl⟩⟩
    exact fun _ _ hm =>
      Tree.forall_of_update (fun m => (Node.Grows.refl m).freezes) hn hfreezes hview hm

/-- Whatever is done with a coherent tree, it stays coherent, and its nodes stay. -/
theorem freezes_evolves (hs : src.index.Sound) : src.Evolves fun t t' =>
    t.Coherent src 0 → t'.Coherent src 0 ∧ t.Freezes src t' where
  refl t h := ⟨h, .refl t⟩
  trans h h' := fun hcoherent => by
    obtain ⟨h₁, hfreezes⟩ := h hcoherent
    obtain ⟨h₂, hfreezes'⟩ := h' h₁
    exact ⟨h₂, hfreezes.trans hfreezes'⟩
  createRoot hroot h := by
    obtain ⟨hexp, -⟩ := createRoot?_spec h hroot
    exact ⟨hexp.coherent, hexp.grows.freezes⟩
  expand := by
    intro t t' id names hok h
    obtain ⟨t₁, hexpand, hexp, -⟩ := expand_spec hs h (Nat.zero_le id) (lt_size_of_expand hok) names
    cases hexpand.symm.trans hok
    exact ⟨hexp.coherent, hexp.grows.freezes⟩
  rawChildren := by
    intro t t' id found hok h
    exact ⟨rawChildren_coherent h (Nat.zero_le id) hok, rawChildren_freezes hok⟩

end Sources

/-- The tree that operations leave of another one, all with the same index and documents. -/
def Operation.runAll (src : Sources) (t : Tree) (ops : List Operation) : Tree :=
  ops.foldl (fun t op => op.run src t) t

/-- Operations lead from coherent trees to coherent trees, and the nodes stay. -/
theorem Tree.Coherent.runAll (hs : src.index.Sound) (h : t.Coherent src 0)
    (ops : List Operation) : (Operation.runAll src t ops).Coherent src 0 ∧
      t.Freezes src (Operation.runAll src t ops) := by
  refine List.foldlRecOn (motive := fun t' => t'.Coherent src 0 ∧ t.Freezes src t') ops _
    ⟨h, .refl t⟩ fun t₁ ⟨h₁, hfreezes⟩ op _ => ?_
  obtain ⟨h₂, hfreezes'⟩ := (Sources.freezes_evolves hs).run op t₁ h₁
  exact ⟨h₂, hfreezes.trans hfreezes'⟩

/-- In every tree that operations with one index and its documents lead to, nodes come after the
nodes they stand below, and both point at each other. Whatever further operations are done, the
nodes stay, and those that are built do not change any more, apart from what is found out about
their declarations, and that is what would be found out at any later time. -/
theorem Sources.frozen_run (limit : Nat) (commands : List Index.Command) (src : Sources)
    (hindex : src.index = Index.run limit commands) (ops more : List Operation) :
    (Operation.runAll src {} ops).Joined ∧
      (Operation.runAll src {} ops).Freezes src
        (Operation.runAll src (Operation.runAll src {} ops) more) := by
  have hs : src.index.Sound := hindex ▸ Index.sound_run limit commands
  have hempty : Tree.Coherent src 0 {} := .of_size_le (Nat.le_refl 0)
  obtain ⟨hcoherent, -⟩ := hempty.runAll hs ops
  exact ⟨hcoherent.joined, (hcoherent.runAll hs more).2⟩

/-- Frames of two files extend each other, and a frame in one of them has a frame in it. -/
def entwinedDeep : Sources :=
  .ofTexts [
    ("A", "<Frame name=\"M\" file=\"B\"><Frame name=\"C\"><Frame name=\"D\"/></Frame></Frame>"),
    ("B", "<Frame name=\"M\" file=\"A\"/>")]

/-- The frame `M` is expanded along the name of its child, so that the child is built. -/
def childFirst : List Operation :=
  [.createRoot 2, .expand 0 (some ["C"])]

/-- The frame `M` is expanded by one level, and then its child is asked for its elements. -/
def frameThen : List Operation :=
  [.expandLevel 0, .rawChildren 1]

/-- When the frame around the child is expanded again, the child has all its contributors. What is
found in its declarations afterwards is what they hold. -/
theorem Sources.frozen_run_entwinedDeep :
    ∃ n n', (Operation.runAll entwinedDeep {} childFirst).node? 1 = some n ∧ n.built = true ∧
      n.rawChildren = none ∧
      (Operation.runAll entwinedDeep (Operation.runAll entwinedDeep {} childFirst)
        frameThen).node? 1 = some n' ∧
      n'.contributors = n.contributors ∧
      n'.rawChildren = some (entwinedDeep.elementsIn n'.contributors.elements) := by
  -- The node is built and its cache is empty. The second run fills it, so what `frozen_run` says
  -- about caches that are filled later applies.
  have hbuilt : ((Operation.runAll entwinedDeep {} childFirst).node? 1).map
      (fun n => (n.built, n.rawChildren)) = some (true, none) := by
    decide +kernel
  have hfilled : ((Operation.runAll entwinedDeep (Operation.runAll entwinedDeep {} childFirst)
      frameThen).node? 1).map (·.rawChildren) = some (some [⟨0, 3⟩]) := by
    decide +kernel
  obtain ⟨n, hn, hpair⟩ := Option.map_eq_some_iff.1 hbuilt
  obtain ⟨hb, hnone⟩ := Prod.mk.inj hpair
  obtain ⟨-, hfreezes⟩ := frozen_run 1 _ entwinedDeep rfl childFirst frameThen
  obtain ⟨n', hn', hstays⟩ := hfreezes hn
  refine ⟨n, n', hn, hb, hnone, hn', (hstays.built hb).2.1, ?_⟩
  rcases hstays.rawChildren hb with hsame | ⟨-, hfound⟩
  · rw [hn', Option.map_some, hsame, hnone] at hfilled
    cases hfilled
  · exact hfound

end LayoutMarkup.Hierarchy
