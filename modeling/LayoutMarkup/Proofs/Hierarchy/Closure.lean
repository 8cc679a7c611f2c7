import LayoutMarkup.Proofs.Hierarchy.Repetition

/-!
# Closure

A node is given all contributors that come with those it has. Extensions and templates may lead in
circles, and some contributors of the node may be gone, yet the search ends, and what it finds is
exactly what the contributors that are there reach (`Sources.closeContributors_exact`).

That the search ends is said twice. There is a way of collecting with no bound on the depth that has
this result (`Sources.Gathers`), and every bound above the number of entries gives the same one
(`Sources.foldl_gather_found`): each entry that is entered on the way down was not met before.
-/

namespace LayoutMarkup.Hierarchy.Sources

variable {src : Sources}

/-- In the beginning no entry was met. -/
theorem unmet_empty (hs : src.index.Sound) : src.unmet {} = src.index.size := by
  have hall : {id | src.index.entry? id ≠ none} = ↑((Finset.range src.index.slots.size).filter
      fun id => (src.index.entry? id).isSome = true ∧ id ∉ (∅ : OrderedSet EntryId)) := by
    ext id
    rw [Finset.mem_coe, Finset.mem_filter, Finset.mem_range, Option.isSome_iff_ne_none]
    refine ⟨fun hlive => ⟨?_, hlive, List.not_mem_nil⟩, fun h => h.2.1⟩
    obtain ⟨e, he⟩ := Option.ne_none_iff_exists'.1 hlive
    exact Index.lt_size_of_entry? he
  rw [Index.size_eq_ncard hs.ordered.freeListed, hall, Set.ncard_coe_finset]
  rfl

/-- No bound above the number of entries makes a difference to what is collected. -/
theorem foldl_gather_found (hs : src.index.Sound) {depth : Nat} (hdepth : src.index.size < depth)
    (ids : List EntryId) : (ids.foldl (src.gather depth) {}).found = src.contributors ids := by
  rw [← unmet_empty hs] at hdepth
  obtain ⟨new, hnew, hcollects⟩ := gathers_foldl (g := {}) (fun _ hx => hx) hdepth ids
  have hempty : Gathering.met {} = ∅ :=
    Set.eq_empty_of_forall_notMem fun _ hx => List.not_mem_nil hx
  rw [hempty] at hnew
  refine OrderedSet.ext ?_
  rw [hcollects.found, hnew.unique (src.gathers_contributors ids)]
  rfl

/-- `new` is what comes with `ids`. -/
structure Completes (src : Sources) (ids : List EntryId) (new : OrderedSet EntryId) : Prop where
  /-- No entry occurs twice. -/
  nodup : new.elements.Nodup
  /-- The entries are those that are there and reached, by any number of steps to an extension or to
  a template, from one of `ids` that is there. -/
  mem_iff : ∀ a, a ∈ new ↔
    src.index.entry? a ≠ none ∧ ∃ id ∈ ids, src.index.entry? id ≠ none ∧ src.Reaches id a
  /-- Collecting without a bound on the depth ends, with these entries. -/
  gathers : src.Gathers ∅ ids new.elements
  /-- Every bound above the number of entries is deep enough. -/
  bounded : ∀ depth, src.index.size < depth → (ids.foldl (src.gather depth) {}).found = new

/-- For every index that a history led to, all documents and every node, closing the contributors
of the node succeeds and changes nothing else. The contributors are complete then: they are the
entries that the contributors from before reach as far as they are there. -/
theorem closeContributors_exact (limit : Nat) (commands : List Index.Command) (src : Sources)
    (hindex : src.index = Index.run limit commands) (t : Tree) (id : NodeId) (n : Node)
    (hn : t.node? id = some n) :
    ∃ t' new, src.closeContributors t id = .ok t' ∧ t'.size = t.size ∧
      t'.node? = Function.update t.node? id (some { n with contributors := new }) ∧
      src.Completes n.contributors.elements new := by
  have hs : src.index.Sound := hindex ▸ Index.sound_run limit commands
  obtain ⟨t', hclose, hsize, hview⟩ := Tree.adjust_spec hn fun node =>
    { node with contributors := src.contributors node.contributors.elements }
  refine ⟨t', _, hclose, hsize, hview, (src.contributors _).nodup, fun a => ?_,
    src.gathers_contributors _, fun depth hdepth => foldl_gather_found hs hdepth _⟩
  refine (mem_contributors hs).trans (iff_and_self.2 fun hreached => ?_)
  exact entry?_of_mem_contributors ((mem_contributors hs).2 hreached)

/-- A node whose first contributor is gone. -/
def staleTree : Tree where
  nodes := #[{ name := "M", kind := .frame, parent := none, contributors := ⟨[7, 2], by decide⟩ }]

/-- The contributors of a node are closed although one of them is gone and the other one and its
extension extend each other. -/
theorem closeContributors_exact_entwined :
    entwined.index.entry? 7 = none ∧ 5 ∈ entwined.index.extensionsOf 2 ∧
      2 ∈ entwined.index.extensionsOf 5 ∧ ∃ n, staleTree.node? 0 = some n ∧
      ∃ t' new, entwined.closeContributors staleTree 0 = .ok t' ∧ t'.size = staleTree.size ∧
        t'.node? = Function.update staleTree.node? 0 (some { n with contributors := new }) ∧
        entwined.Completes n.contributors.elements new := by
  have hcircle : entwined.index.entry? 7 = none ∧ 5 ∈ entwined.index.extensionsOf 2 ∧
      2 ∈ entwined.index.extensionsOf 5 := by
    decide +kernel
  exact ⟨hcircle.1, hcircle.2.1, hcircle.2.2, _, rfl,
    closeContributors_exact 1 _ entwined rfl staleTree 0 _ rfl⟩

end LayoutMarkup.Hierarchy.Sources
