import LayoutMarkup.Proofs.Hierarchy.Freezing
import LayoutMarkup.Proofs.Hierarchy.Precedence

/-!
# Settled contributors

A node that is expanded name by name is given all its contributors again each time, until all nodes
below it are there. The second search begins with everything that the first one found, and not with
the entries that the first one began with, so the order might come out another way.

It does not, as long as no steps from contributor to contributor lead in a circle
(`Sources.AcyclicIn`). What a contributor leads to is a contributor, so no entry that matters is
reached from one of its extensions then (`Closed.calm`), and contributors that are collected again
come in the order in which they were collected first (`Closed.contributors_eq`). Hence the
contributors of a node have settled once it was expanded in any way, and they stay as they are
whatever is done with the tree (`Sources.settled_run`).
-/

namespace LayoutMarkup.Hierarchy

variable {src : Sources} {t t' t'' : Tree}

namespace Sources

/-! ## Circles among contributors -/

/-- No steps between entries of a set lead in a circle. -/
def AcyclicIn (src : Sources) (s : OrderedSet EntryId) : Prop :=
  ∀ a, ¬ Relation.TransGen (fun a b => a ∈ s ∧ b ∈ s ∧ src.Leads a b) a a

/-- Where no steps lead in a circle, no entry of a closed set is reached from one of its
extensions. -/
theorem Closed.calm (hs : src.index.Sound) {s : OrderedSet EntryId} (h : src.Closed s)
    (hacyclic : src.AcyclicIn s) : src.Calm s := by
  intro a ha b hb hreach
  -- All steps from the entry to its extension and on are steps between entries of the set.
  have hinside : ∀ {c}, src.Reaches b c →
      c ∈ s ∧ Relation.TransGen (fun a b => a ∈ s ∧ b ∈ s ∧ src.Leads a b) a c := by
    intro c hc
    induction hc with
    | refl =>
      have hbs : b ∈ s := h.mem_of_leads hs ha (Or.inl hb)
      exact ⟨hbs, .single ⟨ha, hbs, Or.inl hb⟩⟩
    | @tail c d _ hlead ih =>
      obtain ⟨hcs, hpath⟩ := ih
      have hds : d ∈ s := h.mem_of_leads hs hcs hlead
      exact ⟨hds, hpath.tail ⟨hcs, hds, hlead⟩⟩
  exact hacyclic a (hinside hreach).2

/-- If nothing that some entries reach leads back to itself, no steps between the contributors that
come with them lead in a circle. -/
theorem acyclicIn_of_acyclic (hs : src.index.Sound) {ids : List EntryId}
    (h : ∀ id ∈ ids, src.Acyclic id) : src.AcyclicIn (src.contributors ids) := by
  intro a hcircle
  obtain ⟨b, ⟨ha, -⟩, -⟩ := Relation.TransGen.head'_iff.1 hcircle
  obtain ⟨id, hid, -, hreach⟩ := (mem_contributors hs).1 ha
  exact h id hid a hreach (hcircle.lift (fun x => x) fun _ _ hstep => hstep.2.2)

end Sources

/-! ## Contributors that stay -/

/-- The contributors of all nodes have settled, as far as they are all that come with some entries.
-/
def Tree.Settles (src : Sources) (t t' : Tree) : Prop :=
  ∀ ⦃i n⦄, t.node? i = some n → ∃ n', t'.node? i = some n' ∧ n.Settles src n'

/-- Contributors may settle step by step. -/
theorem Tree.Settles.trans (h : t.Settles src t') (h' : t'.Settles src t'') :
    t.Settles src t'' := by
  intro i n hn
  obtain ⟨n', hn', hsettles⟩ := h hn
  obtain ⟨n'', hn'', hsettles'⟩ := h' hn'
  exact ⟨n'', hn'', hsettles.trans hsettles'⟩

/-- In a tree that grows contributors settle. -/
theorem Tree.Grows.settles (h : t.Grows src t') : t.Settles src t' := by
  intro i n hn
  obtain ⟨n', hn', hgrows⟩ := h hn
  exact ⟨n', hn', hgrows.toSettles⟩

namespace Sources

/-- To read the elements of a node changes no contributors. -/
theorem rawChildren_settles {id : NodeId} {found : List Declaration}
    (hok : src.rawChildren t id = .ok (t', found)) : t.Settles src t' := by
  rcases rawChildren_cases hok with rfl | ⟨n, hn, -, hview⟩
  · exact (Tree.Grows.refl t').settles
  · have hsettles : n.Settles src
        { n with rawChildren := some (src.elementsIn n.contributors.elements) } := .of_eq rfl
    exact fun _ _ hm =>
      Tree.forall_of_update (fun _ => Node.Settles.of_eq rfl) hn hsettles hview hm

/-- Whatever is done with a coherent tree, contributors settle. -/
theorem settles_evolves (hs : src.index.Sound) : src.Evolves fun t t' =>
    t.Coherent src 0 → t'.Coherent src 0 ∧ t.Settles src t' where
  refl t h := ⟨h, (Tree.Grows.refl t).settles⟩
  trans h h' := fun hcoherent => by
    obtain ⟨h₁, hsettles⟩ := h hcoherent
    obtain ⟨h₂, hsettles'⟩ := h' h₁
    exact ⟨h₂, hsettles.trans hsettles'⟩
  createRoot hroot h := by
    obtain ⟨hexp, -⟩ := createRoot?_spec h hroot
    exact ⟨hexp.coherent, hexp.grows.settles⟩
  expand := by
    intro t t' id names hok h
    obtain ⟨t₁, hexpand, hexp, -⟩ := expand_spec hs h (Nat.zero_le id) (lt_size_of_expand hok) names
    cases hexpand.symm.trans hok
    exact ⟨hexp.coherent, hexp.grows.settles⟩
  rawChildren := by
    intro t t' id found hok h
    exact ⟨rawChildren_coherent h (Nat.zero_le id) hok, rawChildren_settles hok⟩

end Sources

/-- Whatever operations are done with a coherent tree, contributors settle. -/
theorem Tree.Coherent.settles_runAll (hs : src.index.Sound) (h : t.Coherent src 0)
    (ops : List Operation) : t.Settles src (Operation.runAll src t ops) := by
  have hall : (Operation.runAll src t ops).Coherent src 0 ∧
      t.Settles src (Operation.runAll src t ops) := by
    refine List.foldlRecOn (motive := fun t' => t'.Coherent src 0 ∧ t.Settles src t') ops _
      ⟨h, (Grows.refl t).settles⟩ fun t₁ ⟨h₁, hsettles⟩ op _ => ?_
    obtain ⟨h₂, hsettles'⟩ := (Sources.settles_evolves hs).run op t₁ h₁
    exact ⟨h₂, hsettles.trans hsettles'⟩
  exact hall.2

/-- Which nodes of a tree have all their contributors, and what becomes of these. -/
structure Tree.Settled (src : Sources) (t : Tree) : Prop where
  /-- A node that is expanded, along names or as a whole, has all contributors that come with some
  entries. -/
  expand : ∀ {id names t'}, src.expand t id names = .ok t' → t'.ClosedAt src id
  /-- So has a node that others stand below, or none will. -/
  parent : ∀ {i n}, t.node? i = some n → n.built = true ∨ n.IsParent → src.Closed n.contributors
  /-- If no steps between such contributors lead in a circle, they keep their order whatever is
  done. -/
  keeps : ∀ {i n}, t.node? i = some n → src.Closed n.contributors →
    src.AcyclicIn n.contributors → ∀ ops, ∃ n', (Operation.runAll src t ops).node? i = some n' ∧
      n'.contributors = n.contributors

namespace Sources

/-- For every index that a history led to and all documents, contributors that come with any entries
are found again in the same order when they are closed again, if no steps between them lead in a
circle. Closing a node twice changes nothing the second time then, and in every tree that operations
led to, the contributors of a node that was expanded stay as they are. -/
theorem settled_run (limit : Nat) (commands : List Index.Command) (src : Sources)
    (hindex : src.index = Index.run limit commands) :
    (∀ ids, src.AcyclicIn (src.contributors ids) →
      src.contributors (src.contributors ids).elements = src.contributors ids) ∧
    (∀ t id n, t.node? id = some n → ∃ t', src.closeContributors t id = .ok t' ∧
      t'.node? id = some { n with contributors := src.contributors n.contributors.elements } ∧
      (src.AcyclicIn (src.contributors n.contributors.elements) →
        src.closeContributors t' id = .ok t')) ∧
    ∀ ops, (Operation.runAll src {} ops).Settled src := by
  have hs : src.index.Sound := hindex ▸ Index.sound_run limit commands
  have hagain : ∀ ids, src.AcyclicIn (src.contributors ids) →
      src.contributors (src.contributors ids).elements = src.contributors ids := by
    intro ids hacyclic
    have hclosed : src.Closed (src.contributors ids) := ⟨ids, rfl⟩
    exact hclosed.contributors_eq hs (hclosed.calm hs hacyclic)
  refine ⟨hagain, fun t id n hn => ?_, fun ops => ?_⟩
  · obtain ⟨t', hclose, -, hview⟩ := Tree.adjust_spec hn fun node =>
      { node with contributors := src.contributors node.contributors.elements }
    have hn' : t'.node? id =
        some { n with contributors := src.contributors n.contributors.elements } := by
      rw [hview, Function.update_self]
    refine ⟨t', hclose, hn', fun hacyclic => ?_⟩
    obtain ⟨t'', hclose', -, hview'⟩ := Tree.adjust_spec hn' fun node =>
      { node with contributors := src.contributors node.contributors.elements }
    -- The second search finds what is there, so the node stays as it is.
    have hsame : t''.node? = t'.node? := by
      rw [hview']
      dsimp only
      rw [hagain _ hacyclic, ← hn', Function.update_eq_self]
    rw [Tree.ext_node? hsame] at hclose'
    exact hclose'
  · -- Operations begin with no nodes, and closed contributors outlast them.
    have hempty : Tree.Coherent src 0 {} := .of_size_le (Nat.le_refl 0)
    obtain ⟨hcoherent, -⟩ := hempty.runAll hs ops
    refine ⟨fun {id names t'} hok => ?_, fun hn hor => hcoherent.closed (Nat.zero_le _) hn hor,
      fun hn hclosed hacyclic more => ?_⟩
    · obtain ⟨t₁, hexpand, -, hat⟩ :=
        expand_spec hs hcoherent (Nat.zero_le id) (lt_size_of_expand hok) names
      cases hexpand.symm.trans hok
      exact hat
    · obtain ⟨n', hn', hsettles⟩ := hcoherent.settles_runAll hs more hn
      exact ⟨n', hn', hsettles.settled hclosed (hclosed.calm hs hacyclic)⟩

/-- A button with a text in it, its extension, and the templates of both. -/
def tiered : Sources :=
  .ofTexts [("T", "<Frame name=\"X\" type=\"Label\"/>"), ("U", "<Frame name=\"Y\"/>"),
    ("B", "<Frame name=\"M\" type=\"Button\" template=\"T/X\"><Frame name=\"C\"/></Frame>"),
    ("E", "<Frame name=\"M\" file=\"B\" template=\"U/Y\"/>")]

/-- The button is expanded along the name of the text first, and as a whole later. -/
theorem settled_run_tiered :
    tiered.AcyclicIn (tiered.contributors [6]) ∧
    tiered.contributors (tiered.contributors [6]).elements = tiered.contributors [6] ∧
    ∃ n n', (Operation.runAll tiered {} [.createRoot 6, .expand 0 (some ["C"])]).node? 0 = some n ∧
      n.built = false ∧ n.contributors.elements = [9, 4, 6, 2] ∧
      (Operation.runAll tiered (Operation.runAll tiered {} [.createRoot 6, .expand 0 (some ["C"])])
        [.expand 0 none]).node? 0 = some n' ∧
      n'.built = true ∧ n'.contributors = n.contributors := by
  -- The steps lead from the button to its extension, and from both to a template.
  let rank : EntryId → Nat := fun a => if a = 6 then 2 else if a = 9 then 1 else 0
  have hrank : ∀ a < tiered.index.slots.size,
      (∀ b ∈ tiered.index.extensionsOf a, rank b < rank a) ∧
      ∀ b ∈ tiered.template? a, rank b < rank a := by
    decide +kernel
  obtain ⟨hfirst, hlater, horder⟩ :
      ((Operation.runAll tiered {} [.createRoot 6, .expand 0 (some ["C"])]).node? 0).map
        (fun n => (n.built, n.contributors)) = some (false, tiered.contributors [6]) ∧
      ((Operation.runAll tiered (Operation.runAll tiered {} [.createRoot 6, .expand 0 (some ["C"])])
        [.expand 0 none]).node? 0).map (·.built) = some true ∧
      (tiered.contributors [6]).elements = [9, 4, 6, 2] := by
    decide +kernel
  have hacyclic : tiered.AcyclicIn (tiered.contributors [6]) :=
    acyclicIn_of_acyclic (Index.sound_run 1 _) fun id _ => acyclic_of_rank hrank id
  obtain ⟨hagain, -, hsettled⟩ := settled_run 1 _ tiered rfl
  obtain ⟨n, hn, hpair⟩ := Option.map_eq_some_iff.1 hfirst
  obtain ⟨hbuilt, hcontributors⟩ := Prod.mk.inj hpair
  obtain ⟨n', hn', hsame⟩ := (hsettled _).keeps hn ⟨[6], hcontributors⟩
    (by rwa [hcontributors]) [.expand 0 none]
  refine ⟨hacyclic, hagain [6] hacyclic, n, n', hn, hbuilt, by rw [hcontributors, horder], hn', ?_,
    hsame⟩
  rw [hn'] at hlater
  exact Option.some.inj hlater

end Sources

end LayoutMarkup.Hierarchy
