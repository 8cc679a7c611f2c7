import LayoutMarkup.Hierarchy.Selection
import LayoutMarkup.Proofs.Hierarchy.Expansion

/-!
# Following a selector twice

A selector expands the nodes on its way, and expansion may change the order of a node's
contributors, which predicates on the types of ancestors read. So a selector need not lead to the
same nodes when it is followed again: `select_entwined` shows two files whose frames extend each
other.

It does so whenever no entry is reached from one of its own extensions, and whenever the selector
does not ask for the types of ancestors (`select_again`). Then the second time finds the nodes of
the first one and leaves the tree as it is. What carries the proof is that a step finds in every
tree that its tree grows into what it found in its own (`followFragment_again`): the nodes below a
node that is built do not change any more, nor do the contributors of a node that others stand
below.
-/

namespace LayoutMarkup

/-- Whether a fragment asks for the types of ancestors. -/
def Selector.Fragment.readsTypes : Selector.Fragment → Bool
  | .ancestor (some (.type _)) | .ancestor (some (.ofType _)) => true
  | _ => false

namespace Hierarchy

open Selector (Fragment Predicate)

variable {src : Sources} {base : NodeId} {t t' t'' : Tree}

/-! ## Ancestors -/

namespace Tree

/-- Ancestors are there, and others stand below them. -/
theorem Coherent.isParent_of_mem_ancestors (h : t.Coherent src base) {id p : NodeId}
    (hid : base ≤ id) (hlt : id < t.size) (hp : p ∈ t.ancestors id) :
    base ≤ p ∧ ∃ n, t.node? p = some n ∧ n.IsParent := by
  induction id using Nat.strong_induction_on with
  | h id ih =>
    obtain ⟨n, hn⟩ := t.exists_node? hlt
    cases hparent : n.parent with
    | none =>
      rw [ancestors_of_parent_eq_none hn hparent] at hp
      exact absurd hp List.not_mem_nil
    | some q =>
      obtain ⟨hq, hqlt, m, hm, hget⟩ := h.parent hid hn hparent
      rw [ancestors_of_parent_eq_some hn hparent hqlt, List.mem_cons] at hp
      rcases hp with rfl | hp
      · exact ⟨hq, m, hm, _, _, hget⟩
      · exact ih q hqlt hq (lt_size_of_node? hm) hp

/-- A node keeps its ancestors when a tree grows. -/
theorem Grows.ancestors_eq (hgrows : t.Grows src t') (h : t.Coherent src base) {id : NodeId}
    (hid : base ≤ id) (hlt : id < t.size) : t'.ancestors id = t.ancestors id := by
  induction id using Nat.strong_induction_on with
  | h id ih =>
    obtain ⟨n, hn⟩ := t.exists_node? hlt
    obtain ⟨n', hn', hgrown⟩ := hgrows hn
    cases hparent : n.parent with
    | none =>
      rw [ancestors_of_parent_eq_none hn hparent,
        ancestors_of_parent_eq_none hn' (hgrown.parent.trans hparent)]
    | some p =>
      obtain ⟨hp, hplt, m, hm, -⟩ := h.parent hid hn hparent
      rw [ancestors_of_parent_eq_some hn hparent hplt,
        ancestors_of_parent_eq_some hn' (hgrown.parent.trans hparent) hplt,
        ih p hplt hp (lt_size_of_node? hm)]

end Tree

/-- A search whose tests all succeed finds an element of the list or none, and every search with the
same tests finds the same. -/
theorem exists_findM?_eq_ok {ε α : Type} {f : α → Except ε Bool} {l : List α}
    (hf : ∀ a ∈ l, ∃ b, f a = .ok b) : ∃ result, l.findM? f = .ok result ∧
      (∀ a, result = some a → a ∈ l) ∧
      ∀ g : α → Except ε Bool, (∀ a ∈ l, g a = f a) → l.findM? g = .ok result := by
  induction l with
  | nil => exact ⟨none, rfl, fun a ha => absurd ha (Option.some_ne_none a).symm, fun _ _ => rfl⟩
  | cons a l ih =>
    obtain ⟨b, hb⟩ := hf a List.mem_cons_self
    obtain ⟨result, hfind, hmem, hsame⟩ := ih fun c hc => hf c (List.mem_cons_of_mem a hc)
    -- The first success ends the search; otherwise it is the search in the rest of the list.
    cases b with
    | true =>
      refine ⟨some a, by rw [List.findM?, hb]; rfl, fun c hc => ?_, fun g hg => ?_⟩
      · cases hc
        exact List.mem_cons_self
      · rw [List.findM?, hg a List.mem_cons_self, hb]
        rfl
    | false =>
      refine ⟨result, by rw [List.findM?, hb]; exact hfind,
        fun c hc => List.mem_cons_of_mem a (hmem c hc), fun g hg => ?_⟩
      rw [List.findM?, hg a List.mem_cons_self, hb]
      exact hsame g fun c hc => hg c (List.mem_cons_of_mem a hc)

namespace Sources

/-! ## One fragment -/

/-- Every predicate can be asked of a node that is there. -/
theorem exists_fulfils_eq_ok {p : NodeId} {n : Node} (hn : t.node? p = some n)
    (predicate : Predicate) : ∃ b, src.fulfils t predicate p = .ok b := by
  cases predicate with
  | name value =>
    refine ⟨n.name == value, ?_⟩
    rw [fulfils, Tree.node_eq hn]
    rfl
  | type value =>
    unfold fulfils effectiveType?
    rw [Tree.node_eq hn]
    exact ⟨_, rfl⟩
  | ofType value =>
    obtain ⟨type, htype⟩ : ∃ type, src.frameType? t p = .ok type := by
      rw [frameType?, Tree.node_eq hn, ok_bind]
      split <;> exact ⟨_, rfl⟩
    unfold fulfils
    dsimp only
    rw [htype]
    split <;> exact ⟨_, rfl⟩

/-- The answer is the same in every tree that the tree grows into, if the precedence of contributors
does not matter or does not change. -/
theorem fulfils_again (hgrows : t.Grows src t') {p : NodeId} {n : Node} (hn : t.node? p = some n)
    (hclosed : src.Closed n.contributors) {predicate : Predicate}
    (hcalm : src.Untangled ∨ (Fragment.ancestor (some predicate)).readsTypes = false) :
    src.fulfils t' predicate p = src.fulfils t predicate p := by
  obtain ⟨n', hn', hgrown⟩ := hgrows hn
  cases predicate with
  | name value =>
    rw [fulfils, fulfils, Tree.node_eq hn, Tree.node_eq hn', ok_bind, ok_bind, hgrown.name]
  | type value =>
    have hsame := hgrown.settled hclosed
      ((hcalm.resolve_right Bool.true_eq_false_eq_False).calm _)
    unfold fulfils effectiveType?
    rw [Tree.node_eq hn, Tree.node_eq hn', ok_bind, ok_bind, hsame]
  | ofType value =>
    have hsame := hgrown.settled hclosed
      ((hcalm.resolve_right Bool.true_eq_false_eq_False).calm _)
    unfold fulfils frameType?
    rw [Tree.node_eq hn, Tree.node_eq hn', ok_bind, ok_bind, hsame, hgrown.kind]

/-- All nodes are there that a fragment may lead to from a node. -/
def Ready (t : Tree) (id : NodeId) (fragment : Fragment) : Prop :=
  ∀ name, fragment = .child name → ∃ n, t.node? id = some n ∧ n.built = true

/-- Nodes that are all there stay there. -/
theorem Ready.grows {id : NodeId} {fragment : Fragment} (h : Ready t id fragment)
    (hgrows : t.Grows src t') : Ready t' id fragment := by
  intro name hname
  obtain ⟨n, hn, hb⟩ := h name hname
  obtain ⟨n', hn', hgrown⟩ := hgrows hn
  exact ⟨n', hn', (hgrown.built hb).1⟩

/-- Where all nodes are there, nothing is left to expand. -/
theorem Ready.prepare_eq {id : NodeId} {fragment : Fragment} (h : Ready t id fragment) :
    src.prepare t id fragment = .ok t := by
  cases fragment with
  | child name =>
    obtain ⟨n, hn, hb⟩ := h name rfl
    rw [prepare, expandLevel, Tree.node_eq hn, ok_bind, if_pos hb]
    rfl
  | _ => rfl

/-- Before a fragment is followed, all nodes that it may lead to are made. -/
theorem prepare_spec (hs : src.index.Sound) (h : t.Coherent src base) {id : NodeId}
    (hid : base ≤ id) (hlt : id < t.size) (fragment : Fragment) :
    ∃ t', src.prepare t id fragment = .ok t' ∧ t.Expands src base t' ∧ Ready t' id fragment := by
  cases fragment with
  | child name =>
    obtain ⟨t', n', hlevel, hexp, hn', hb'⟩ := expandLevel_spec hs h hid hlt
    exact ⟨t', hlevel, hexp, fun _ _ => ⟨n', hn', hb'⟩⟩
  | _ => exact ⟨t, rfl, ⟨h, .refl t⟩, fun name hname => by cases hname⟩

/-- The parent of a node is found again. -/
theorem parent_again (h : t.Coherent src base) {id : NodeId} (hid : base ≤ id) {n : Node}
    (hn : t.node? id = some n) : (∀ c, n.parent = some c → base ≤ c ∧ c < t.size) ∧
      ∀ t', t.Grows src t' → ∃ n', t'.node? id = some n' ∧ n'.parent = n.parent := by
  refine ⟨fun c hc => ?_, fun t' hgrows => ?_⟩
  · obtain ⟨hbase, hclt, -⟩ := h.parent hid hn hc
    exact ⟨hbase, hclt.trans (Tree.lt_size_of_node? hn)⟩
  · obtain ⟨n', hn', hgrown⟩ := hgrows hn
    exact ⟨n', hn', hgrown.parent⟩

/-- The nearest ancestor that fulfils a predicate is found again. -/
theorem ancestor?_again (h : t.Coherent src base) {id : NodeId} (hid : base ≤ id)
    (hlt : id < t.size) (predicate : Predicate) :
    ∃ result, src.ancestor? t id predicate = .ok result ∧
      (∀ c, result = some c → base ≤ c ∧ c < t.size) ∧
      (src.Untangled ∨ (Fragment.ancestor (some predicate)).readsTypes = false →
        ∀ t', t.Grows src t' → src.ancestor? t' id predicate = .ok result) := by
  obtain ⟨n, hn⟩ := t.exists_node? hlt
  obtain ⟨result, hfind, hmem, hsame⟩ := exists_findM?_eq_ok (f := src.fulfils t predicate)
    (l := t.ancestors id) fun p hp => by
      obtain ⟨-, m, hm, -⟩ := h.isParent_of_mem_ancestors hid hlt hp
      exact exists_fulfils_eq_ok hm predicate
  refine ⟨result, by rw [ancestor?, Tree.node_eq hn]; exact hfind, fun c hc => ?_,
    fun hcalm t' hgrows => ?_⟩
  · obtain ⟨hbase, m, hm, -⟩ := h.isParent_of_mem_ancestors hid hlt (hmem c hc)
    exact ⟨hbase, Tree.lt_size_of_node? hm⟩
  · obtain ⟨n', hn', -⟩ := hgrows hn
    rw [ancestor?, Tree.node_eq hn', hgrows.ancestors_eq h hid hlt]
    refine hsame _ fun p hp => ?_
    obtain ⟨hbase, m, hm, hparent⟩ := h.isParent_of_mem_ancestors hid hlt hp
    exact fulfils_again hgrows hm (h.closed hbase hm (Or.inr hparent)) hcalm

/-- A fragment other than a handle can be followed. It leaves the tree as it is, and leads to the
same node in every tree that the tree grows into. -/
theorem followFragment_again (h : t.Coherent src base) {id : NodeId} (hid : base ≤ id)
    (hlt : id < t.size) {fragment : Fragment} (hplain : ∀ handle, fragment ≠ .custom handle) :
    ∃ result, src.followFragment t id fragment = .ok (t, result) ∧
      (∀ c, result = some c → base ≤ c ∧ c < t.size) ∧
      (Ready t id fragment → src.Untangled ∨ fragment.readsTypes = false →
        ∀ t', t.Grows src t' → src.followFragment t' id fragment = .ok (t', result)) := by
  obtain ⟨n, hn⟩ := t.exists_node? hlt
  obtain ⟨hbounds, hagain⟩ := parent_again h hid hn
  have hnone : ∀ c, none = some c → base ≤ c ∧ c < t.size :=
    fun c hc => absurd hc (Option.some_ne_none c).symm
  have hself : ∀ c, some id = some c → base ≤ c ∧ c < t.size := by
    rintro c ⟨⟩
    exact ⟨hid, hlt⟩
  -- A grown tree has the same parents.
  have hparent : ∀ t', t.Grows src t' →
      (do return (t', (← t'.node id).parent) : Except Fault (Tree × Option NodeId)) =
        .ok (t', n.parent) := by
    intro t' hgrows
    obtain ⟨n', hn', hp⟩ := hagain t' hgrows
    rw [Tree.node_eq hn', ← hp]
    rfl
  cases fragment with
  | ancestor predicate =>
    cases predicate with
    | none => exact ⟨n.parent, hparent t (.refl t), hbounds, fun _ _ => hparent⟩
    | some predicate =>
      obtain ⟨result, hfound, hres, hfollow⟩ := ancestor?_again h hid hlt predicate
      refine ⟨result, by rw [followFragment, hfound]; rfl, hres, fun _ hcalm t' hgrows => ?_⟩
      rw [followFragment, hfollow hcalm t' hgrows]
      rfl
  | parent => exact ⟨n.parent, hparent t (.refl t), hbounds, fun _ _ => hparent⟩
  | this => exact ⟨some id, rfl, hself, fun _ _ _ _ => rfl⟩
  | sibling offset => exact ⟨some id, rfl, hself, fun _ _ _ _ => rfl⟩
  | child name =>
    refine ⟨t.child? id name, rfl, fun c hc => ?_, fun hready _ t' hgrows => ?_⟩
    · obtain ⟨n', hn', hget⟩ := Option.bind_eq_some_iff.1 hc
      obtain ⟨hlt', m, hm, -⟩ := h.child hid hn' hget
      exact ⟨Nat.le_of_lt (lt_of_le_of_lt hid hlt'), Tree.lt_size_of_node? hm⟩
    · -- The node is built, so its children are final.
      obtain ⟨n₁, hn₁, hb⟩ := hready name rfl
      obtain ⟨n', hn', hgrown⟩ := hgrows hn₁
      show Except.ok (t', (t'.node? id).bind _) = Except.ok (t', (t.node? id).bind _)
      rw [hn', hn₁, Option.bind_some, Option.bind_some, (hgrown.built hb).2.2]
  | custom handle => exact absurd rfl (hplain handle)
  | layer => exact ⟨none, rfl, hnone, fun _ _ _ _ => rfl⟩
  | root => exact ⟨none, rfl, hnone, fun _ _ _ _ => rfl⟩

/-! ## Selectors -/

/-- A selector without handles can be followed. In every tree that the resulting one grows into it
leads to the same nodes and leaves the tree as it is. -/
theorem chain_again (hs : src.index.Sound) (h : t.Coherent src base) {id : NodeId}
    (hid : base ≤ id) (hlt : id < t.size) {fragments : List Fragment}
    (hplain : ∀ handle, Fragment.custom handle ∉ fragments)
    (hcalm : src.Untangled ∨ ∀ f ∈ fragments, f.readsTypes = false) :
    ∃ t' nodes, src.chain t id fragments = .ok (t', nodes) ∧ t.Expands src base t' ∧
      ∀ t'', t'.Grows src t'' → src.chain t'' id fragments = .ok (t'', nodes) := by
  -- The induction is on the fragments. The tree of the first run grows while the later fragments
  -- are followed, which is why every tree that it grows into has to be spoken about.
  induction fragments generalizing t id with
  | nil => exact ⟨t, [], rfl, ⟨h, .refl t⟩, fun _ _ => rfl⟩
  | cons f fragments ih =>
    have hf : ∀ handle, f ≠ .custom handle := by
      rintro handle rfl
      exact hplain handle List.mem_cons_self
    have hcalm' := hcalm.imp_right fun hall => hall f List.mem_cons_self
    obtain ⟨t₁, hprepare, hexp, hready⟩ := prepare_spec hs h hid hlt f
    obtain ⟨result, hfollow, hbounds, hagain⟩ :=
      followFragment_again hexp.coherent hid (hexp.grows.lt_size hlt) hf
    cases result with
    | none =>
      refine ⟨t₁, [], ?_, hexp, fun t'' hgrows => ?_⟩
      · rw [chain, hprepare, ok_bind, hfollow]
        rfl
      · rw [chain, (hready.grows hgrows).prepare_eq, ok_bind, hagain hready hcalm' t'' hgrows]
        rfl
    | some next =>
      obtain ⟨hbase, hnext⟩ := hbounds next rfl
      obtain ⟨t', nodes, hchain, hexp', hrest⟩ := ih hexp.coherent hbase hnext
        (fun handle hmem => hplain handle (List.mem_cons_of_mem f hmem))
        (hcalm.imp_right fun hall g hg => hall g (List.mem_cons_of_mem f hg))
      refine ⟨t', next :: nodes, ?_, hexp.trans hexp', fun t'' hgrows => ?_⟩
      · rw [chain, hprepare, ok_bind, hfollow, ok_bind]
        dsimp only
        rw [hchain]
        rfl
      · have hgrows₁ := hexp'.grows.trans hgrows
        rw [chain, (hready.grows hgrows₁).prepare_eq, ok_bind, hagain hready hcalm' t'' hgrows₁,
          ok_bind]
        dsimp only
        rw [hrest t'' hgrows]
        rfl

/-! ## Trees that were built -/

/-- The node of a handle comes with the hierarchy that it belongs to. -/
theorem handleNode_expands (hs : src.index.Sound) (h : t.Coherent src base) (hbase : base ≤ t.size)
    {handle : String} {result : Option NodeId} (hok : src.handleNode t handle = .ok (t', result)) :
    t.Expands src base t' ∧ ∀ c, result = some c → base ≤ c ∧ c < t'.size := by
  -- Where the handle leads to no entry, nothing is built.
  have hstay : (t, none) = (t', result) →
      t.Expands src base t' ∧ ∀ c, result = some c → base ≤ c ∧ c < t'.size := by
    rintro ⟨⟩
    exact ⟨⟨h, .refl t⟩, fun c hc => absurd hc (Option.some_ne_none c).symm⟩
  unfold handleNode at hok
  split at hok
  next => exact hstay (Except.ok.inj hok)
  next d _ =>
    split at hok
    next => exact hstay (Except.ok.inj hok)
    next doc _ =>
      cases hentry : src.index.entryOfElement? d.document doc d.element none with
      | error fault =>
        rw [hentry] at hok
        cases hok
      | ok found =>
        rw [hentry, ok_bind] at hok
        cases found with
        | none => exact hstay (Except.ok.inj hok)
        | some entry =>
          obtain ⟨t₁, result₁, hbuild, hspec⟩ := buildNode_spec hs h hbase entry
          cases hbuild.symm.trans hok
          exact hspec

/-- Following a fragment lets a tree grow, and leads to a node of it. -/
theorem followFragment_expands (hs : src.index.Sound) (h : t.Coherent src base) {id : NodeId}
    (hid : base ≤ id) (hlt : id < t.size) {fragment : Fragment} {result : Option NodeId}
    (hok : src.followFragment t id fragment = .ok (t', result)) :
    t.Expands src base t' ∧ ∀ c, result = some c → base ≤ c ∧ c < t'.size := by
  by_cases hcustom : ∃ handle, fragment = .custom handle
  · obtain ⟨handle, rfl⟩ := hcustom
    exact handleNode_expands hs h (hid.trans hlt.le) hok
  · obtain ⟨result₁, hfollow, hbounds, -⟩ :=
      followFragment_again h hid hlt (not_exists.1 hcustom)
    cases hfollow.symm.trans hok
    exact ⟨⟨h, .refl t⟩, hbounds⟩

/-- Following a selector lets a tree grow. -/
theorem chain_expands (hs : src.index.Sound) (h : t.Coherent src base) {id : NodeId}
    (hid : base ≤ id) (hlt : id < t.size) {fragments : List Fragment} {nodes : List NodeId}
    (hok : src.chain t id fragments = .ok (t', nodes)) : t.Expands src base t' := by
  induction fragments generalizing t id nodes with
  | nil =>
    cases hok
    exact ⟨h, .refl _⟩
  | cons f fragments ih =>
    -- Each fragment is prepared and followed, and the rest goes on from there.
    obtain ⟨t₁, hprepare, hexp, -⟩ := prepare_spec hs h hid hlt f
    rw [chain, hprepare, ok_bind] at hok
    cases hfollow : src.followFragment t₁ id f with
    | error fault =>
      rw [hfollow] at hok
      cases hok
    | ok followed =>
      obtain ⟨t₂, result⟩ := followed
      obtain ⟨hexp', hbounds⟩ :=
        followFragment_expands hs hexp.coherent hid (hexp.grows.lt_size hlt) hfollow
      rw [hfollow, ok_bind] at hok
      -- Without a result the chain ends here.
      cases result with
      | none =>
        cases hok
        exact hexp.trans hexp'
      | some next =>
        obtain ⟨hbase, hnext⟩ := hbounds next rfl
        dsimp only at hok
        cases hchain : src.chain t₂ next fragments with
        | error fault =>
          rw [hchain] at hok
          cases hok
        | ok rest =>
          obtain ⟨t₃, nodes'⟩ := rest
          rw [hchain] at hok
          cases hok
          exact (hexp.trans hexp').trans (ih hexp'.coherent hbase hnext hchain)

end Sources

/-- The trees that are built from an index: an empty tree, and what becomes of a tree when a root is
added, a node of it is expanded or read, or a selector is followed from a node of it. -/
inductive Tree.Grown (src : Sources) : Tree → Prop where
  /-- There are no nodes in the beginning. -/
  | empty : Grown src {}
  /-- A root is added for an entry. -/
  | createRoot {t t' : Tree} {entry : EntryId} {id : NodeId} (h : Grown src t)
      (hop : src.createRoot? t entry = some (t', id)) : Grown src t'
  /-- A node is expanded along a path or as a whole. -/
  | expand {t t' : Tree} {id : NodeId} {path : Option (List String)} (h : Grown src t)
      (hid : id < t.size) (hop : src.expand t id path = .ok t') : Grown src t'
  /-- A node is expanded by one level. -/
  | expandLevel {t t' : Tree} {id : NodeId} (h : Grown src t) (hid : id < t.size)
      (hop : src.expandLevel t id = .ok t') : Grown src t'
  /-- The hierarchy of an entry is built. -/
  | buildNode {t t' : Tree} {entry : EntryId} {result : Option NodeId} (h : Grown src t)
      (hop : src.buildNode t entry = .ok (t', result)) : Grown src t'
  /-- The elements in the declarations of a node are asked for. -/
  | rawChildren {t t' : Tree} {id : NodeId} {found : List Declaration} (h : Grown src t)
      (hid : id < t.size) (hop : src.rawChildren t id = .ok (t', found)) : Grown src t'
  /-- One fragment is followed from a node. -/
  | followFragment {t t' : Tree} {id : NodeId} {fragment : Fragment} {result : Option NodeId}
      (h : Grown src t) (hid : id < t.size)
      (hop : src.followFragment t id fragment = .ok (t', result)) : Grown src t'
  /-- A selector is followed from a node. -/
  | select {t t' : Tree} {id : NodeId} {fragments : List Fragment} {selection : Selection}
      (h : Grown src t) (hid : id < t.size)
      (hop : src.select t id fragments = .ok (t', selection)) : Grown src t'
  /-- The child of a name is asked for. -/
  | childNode {t t' : Tree} {id : NodeId} {name : String} {result : Option NodeId}
      (h : Grown src t) (hid : id < t.size)
      (hop : src.childNode t id name = .ok (t', result)) : Grown src t'
  /-- The children of a kind are asked for. -/
  | childrenOfKind {t t' : Tree} {id : NodeId} {kind : Kind} {children : List NodeId}
      (h : Grown src t) (hid : id < t.size)
      (hop : src.childrenOfKind t id kind = .ok (t', children)) : Grown src t'

/-- Reading the elements of a node leaves the tree as it is, or it keeps what it finds. -/
theorem Sources.rawChildren_cases {id : NodeId} {found : List Declaration}
    (hop : src.rawChildren t id = .ok (t', found)) :
    t' = t ∨ ∃ n, t.node? id = some n ∧ n.rawChildren = none ∧
      t'.node? = Function.update t.node? id
        (some { n with rawChildren := some (src.elementsIn n.contributors.elements) }) := by
  cases hn : t.node? id with
  | none =>
    have hfault : t.node id = .error (.missingNode id) := by rw [Tree.node, hn]
    rw [rawChildren, hfault] at hop
    cases hop
  | some n =>
    rw [rawChildren, Tree.node_eq hn, ok_bind] at hop
    cases hraw : n.rawChildren with
    | some known =>
      rw [hraw] at hop
      cases hop
      exact .inl rfl
    | none =>
      -- The elements are looked for once, and are kept in the node.
      obtain ⟨t₁, hadj, -, hview⟩ := Tree.adjust_spec hn fun node =>
        { node with rawChildren := some (src.elementsIn n.contributors.elements) }
      rw [hraw] at hop
      dsimp only at hop
      rw [hadj] at hop
      cases hop
      exact .inr ⟨n, rfl, hraw, hview⟩

/-- Reading the elements of a node changes nothing that matters. -/
theorem Sources.rawChildren_coherent (h : t.Coherent src base) {id : NodeId} (hid : base ≤ id)
    {found : List Declaration} (hop : src.rawChildren t id = .ok (t', found)) :
    t'.Coherent src base := by
  rcases rawChildren_cases hop with rfl | ⟨n, hn, -, hview⟩
  · exact h
  · exact h.revise hid hn hview rfl rfl rfl (fun a ha => ha) (fun _ a ha => ha)
      (fun a ha => h.live hid hn a ha)
      (fun hor => show src.Closed n.contributors from h.closed hid hn hor)
      fun hb a ha {name b} hc => h.full hid hn hb a ha hc

/-- Every tree that is built from a sound index is coherent. -/
theorem Tree.Grown.coherent (hs : src.index.Sound) (h : t.Grown src) : t.Coherent src 0 := by
  induction h with
  | empty => exact .of_size_le (Nat.le_refl 0)
  | createRoot _ hop ih => exact (Sources.createRoot?_spec ih hop).1.coherent
  -- Each operation is the one that its specification speaks of.
  | @expand t _ id path _ hid hop ih =>
    obtain ⟨t₁, hexpand, hexp, -⟩ := Sources.expand_spec hs ih (Nat.zero_le id) hid path
    cases hexpand.symm.trans hop
    exact hexp.coherent
  | @expandLevel t _ id _ hid hop ih =>
    obtain ⟨t₁, -, hlevel, hexp, -⟩ := Sources.expandLevel_spec hs ih (Nat.zero_le id) hid
    cases hlevel.symm.trans hop
    exact hexp.coherent
  | @buildNode t _ entry _ _ hop ih =>
    obtain ⟨t₁, r, hbuild, hexp, -⟩ := Sources.buildNode_spec hs ih (Nat.zero_le _) entry
    cases hbuild.symm.trans hop
    exact hexp.coherent
  | rawChildren _ _ hop ih => exact Sources.rawChildren_coherent ih (Nat.zero_le _) hop
  | followFragment _ hid hop ih =>
    exact (Sources.followFragment_expands hs ih (Nat.zero_le _) hid hop).1.coherent
  | @select t _ id fragments _ _ hid hop ih =>
    rw [Sources.select] at hop
    cases hchain : src.chain t id fragments with
    | error fault =>
      rw [hchain] at hop
      cases hop
    | ok result =>
      rw [hchain] at hop
      cases hop
      exact (Sources.chain_expands hs ih (Nat.zero_le _) hid hchain).coherent
  | @childNode t _ id _ _ _ hid hop ih =>
    obtain ⟨t₁, -, hlevel, hexp, -⟩ := Sources.expandLevel_spec hs ih (Nat.zero_le id) hid
    rw [Sources.childNode, hlevel] at hop
    cases hop
    exact hexp.coherent
  | @childrenOfKind t t' id kind children _ hid hop ih =>
    obtain ⟨t₁, n, hlevel, hexp, hn, -⟩ := Sources.expandLevel_spec hs ih (Nat.zero_le id) hid
    rw [Sources.childrenOfKind, hlevel, ok_bind, Tree.node_eq hn, ok_bind] at hop
    -- Children are picked in the tree of the expansion, which picking does not change.
    cases hfilter : n.children.values.filterM (fun child => do
        return (← t₁.node child).kind = kind : NodeId → Except Fault Bool) with
    | error fault =>
      rw [hfilter] at hop
      cases hop
    | ok kept =>
      rw [hfilter] at hop
      cases hop
      exact hexp.coherent

/-- Following a selector without handles twice from a node of a tree that was built from an index
leads to the same nodes, and the second time changes nothing: always if no entry is reached from one
of its own extensions, and else if the selector does not ask for the types of ancestors. -/
theorem Sources.select_again (limit : Nat) (commands : List Index.Command) (src : Sources)
    (hindex : src.index = Index.run limit commands) {t : Tree} (ht : t.Grown src) {id : NodeId}
    (hid : id < t.size) {fragments : List Fragment}
    (hplain : ∀ handle, Fragment.custom handle ∉ fragments)
    (hcalm : src.Untangled ∨ ∀ f ∈ fragments, f.readsTypes = false) :
    ∃ t' selection, src.select t id fragments = .ok (t', selection) ∧
      src.select t' id fragments = .ok (t', selection) := by
  have hs : src.index.Sound := hindex ▸ Index.sound_run limit commands
  obtain ⟨t', nodes, hchain, -, hagain⟩ :=
    chain_again hs (ht.coherent hs) (Nat.zero_le id) hid hplain hcalm
  refine ⟨t', ⟨nodes, fragments.length⟩, ?_, ?_⟩
  · rw [select, hchain]
    rfl
  · rw [select, hagain t' (.refl t')]
    rfl

/-- No entry is reached from its extensions if these lead nowhere. -/
theorem Sources.untangled_of_leaves (h : ∀ a < src.index.slots.size,
    ∀ b ∈ src.index.extensionsOf a, src.index.extensionsOf b = [] ∧ src.template? b = none) :
    src.Untangled := by
  intro a b hb hreach
  -- Only an entry that is there has extensions.
  have hlt : a < src.index.slots.size := by
    by_contra hge
    have hnone : src.index.entry? a = none := by
      rw [Index.entry?, Array.getElem?_eq_none (Nat.not_lt.1 hge)]
      rfl
    have hempty : src.index.extensionsOf a = [] := by
      rw [Index.extensionsOf, Index.pathOf, hnone]
      rfl
    rw [hempty] at hb
    exact absurd hb List.not_mem_nil
  obtain ⟨hext, htemplate⟩ := h a hlt b hb
  obtain rfl | ⟨c, hlead, -⟩ := hreach.cases_head
  · rw [hext] at hb
    exact absurd hb List.not_mem_nil
  · rcases hlead with hc | hc
    · rw [hext] at hc
      exact absurd hc List.not_mem_nil
    · rw [htemplate] at hc
      exact absurd hc (Option.some_ne_none c).symm

/-- What hierarchies are built from when some texts, each with the name of its file, are bound. -/
def Sources.ofTexts (texts : List (String × String)) : Sources :=
  let documents := texts.zipIdx.map fun ((name, text), id) =>
    (id, Document.parse name text Index.frameSchema (some 0))
  { index := Index.run 1 (documents.map fun (id, doc) => .bind Index.frameSchema id doc)
    documents := .ofList documents
    schema := Index.frameSchema
    maxDepth := 3 }

/-- The tree of an entry, expanded along a path. -/
def Sources.treeOf (src : Sources) (entry : EntryId) (path : List String) : Tree :=
  match src.createRoot? {} entry with
  | none => {}
  | some (t, root) =>
    match src.expand t root (some path) with
    | .ok t => t
    | .error _ => t

/-- Such a tree is built from the index. -/
theorem Sources.grown_treeOf (src : Sources) (entry : EntryId) (path : List String) :
    (src.treeOf entry path).Grown src := by
  unfold treeOf
  split
  next => exact .empty
  next t root hroot =>
    have ht := Tree.Grown.createRoot .empty hroot
    have hsize : root < t.size := by
      have hempty : Tree.Coherent src 0 {} := .of_size_le (Nat.le_refl 0)
      obtain ⟨-, -, e, -, hn⟩ := createRoot?_spec hempty hroot
      exact Tree.lt_size_of_node? hn
    split
    next hexpand => exact ht.expand hsize hexpand
    next => exact ht

/-- To the nearest ancestor that is a label, and down to a frame in it. -/
def labelledChild : List Fragment :=
  [.ancestor (some (.type "Label")), .child "Child"]

/-- The frame of one file extends that of the other one. -/
def extended : Sources :=
  .ofTexts [("A", "<Frame name=\"M\" type=\"Button\"><Frame name=\"Child\"/></Frame>"),
    ("B", "<Frame name=\"M\" type=\"Label\" file=\"A\"/>")]

/-- The selector leads from the frame `Child` to the frame around it, whose type is that of the
extension, and back, as often as it is followed. -/
theorem Sources.select_again_extended :
    extended.Untangled ∧ 1 < (extended.treeOf 2 ["Child"]).size ∧
      ∃ t' selection,
        extended.select (extended.treeOf 2 ["Child"]) 1 labelledChild = .ok (t', selection) ∧
        extended.select t' 1 labelledChild = .ok (t', selection) := by
  obtain ⟨hleaves, hsize⟩ : (∀ a < extended.index.slots.size,
      ∀ b ∈ extended.index.extensionsOf a,
        extended.index.extensionsOf b = [] ∧ extended.template? b = none) ∧
      1 < (extended.treeOf 2 ["Child"]).size := by
    decide +kernel
  have hcalm : extended.Untangled := untangled_of_leaves hleaves
  refine ⟨hcalm, hsize, select_again 1 _ extended rfl (grown_treeOf _ _ _) hsize (fun handle => ?_)
    (Or.inl hcalm)⟩
  simp [labelledChild]

/-- The frames of both files extend each other. -/
def entwined : Sources :=
  .ofTexts [("A", "<Frame name=\"M\" type=\"Button\" file=\"B\"><Frame name=\"Child\"/></Frame>"),
    ("B", "<Frame name=\"M\" type=\"Label\" file=\"A\"/>")]

/-- The tree that is left when a selector was followed. -/
def Sources.treeAfter (src : Sources) (t : Tree) (id : NodeId) (fragments : List Fragment) : Tree :=
  match src.select t id fragments with
  | .ok (t', _) => t'
  | .error _ => t

/-- When frames extend each other, a selector may lead elsewhere the second time. First the frame
around `Child` is a label, since the extension was collected before it. Expanding that frame
collects its contributors again, now from the extension on, and then it is a button. -/
theorem Sources.select_entwined :
    (entwined.treeOf 2 ["Child"]).Grown entwined ∧ 1 < (entwined.treeOf 2 ["Child"]).size ∧
      (∀ handle, .custom handle ∉ labelledChild) ∧ ∃ t',
        entwined.select (entwined.treeOf 2 ["Child"]) 1 labelledChild = .ok (t', ⟨[0, 1], 2⟩) ∧
        entwined.select t' 1 labelledChild = .ok (t', ⟨[], 2⟩) := by
  have hruns : 1 < (entwined.treeOf 2 ["Child"]).size ∧
      entwined.select (entwined.treeOf 2 ["Child"]) 1 labelledChild =
        .ok (entwined.treeAfter (entwined.treeOf 2 ["Child"]) 1 labelledChild, ⟨[0, 1], 2⟩) ∧
      entwined.select (entwined.treeAfter (entwined.treeOf 2 ["Child"]) 1 labelledChild) 1
        labelledChild =
          .ok (entwined.treeAfter (entwined.treeOf 2 ["Child"]) 1 labelledChild, ⟨[], 2⟩) := by
    decide +kernel
  exact ⟨grown_treeOf _ _ _, hruns.1, fun handle => by simp [labelledChild], _, hruns.2⟩

end Hierarchy

end LayoutMarkup
