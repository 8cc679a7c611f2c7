import LayoutMarkup.Hierarchy.Expansion
import LayoutMarkup.Proofs.Index.Slots
import Mathlib.Data.Finset.Card
import Mathlib.Data.Finset.Range
import Mathlib.Data.Set.Insert
import Mathlib.Logic.Relation

/-!
# Contributors

An entry leads to the entries that extend it and to the one that it names as its template.
`Sources.Gathers` says in which order entries are collected along these steps, without a bound on
the depth: what extends an entry, the entry, its template. The bounded search finds exactly that
(`gathers_contributors`), since every entry that it enters is a new one.

Two facts about contributors follow. They are what the entries reach, and nothing else is one
(`mem_contributors_iff`). And collecting the contributors that come with contributors gives them
again in the same order, as long as no entry is reached from one of its own extensions
(`contributors_contributors`).
-/

namespace LayoutMarkup.Hierarchy.Sources

variable {src : Sources}

/-- One entry leads to another: it is extended by it, or its first declaration names it as its
template. -/
def Leads (src : Sources) (a b : EntryId) : Prop :=
  b ∈ src.index.extensionsOf a ∨ src.template? a = some b

/-- One entry reaches another by some steps. -/
def Reaches (src : Sources) : EntryId → EntryId → Prop :=
  Relation.ReflTransGen src.Leads

/-- Collecting some entries finds `new` when those in `visited` were met before. -/
inductive Gathers (src : Sources) :
    (visited : Set EntryId) → (ids new : List EntryId) → Prop where
  /-- There is nothing to collect. -/
  | nil (visited : Set EntryId) : Gathers src visited [] []
  /-- The entry is not there, or was met before. -/
  | skip {visited : Set EntryId} {id : EntryId} {ids new : List EntryId}
      (hskip : src.index.entry? id = none ∨ id ∈ visited) (hrest : Gathers src visited ids new) :
      Gathers src visited (id :: ids) new
  /-- The entry is collected behind what extends it and before its template. -/
  | collect {visited : Set EntryId} {id : EntryId} {ids above below new : List EntryId}
      (hlive : src.index.entry? id ≠ none) (hnew : id ∉ visited)
      (habove : Gathers src (insert id visited) (src.index.extensionsOf id) above)
      (hbelow : Gathers src (insert id visited ∪ {x | x ∈ above}) (src.template? id).toList below)
      (hrest : Gathers src (insert id visited ∪ {x | x ∈ above} ∪ {x | x ∈ below}) ids new) :
      Gathers src visited (id :: ids) (above ++ id :: (below ++ new))

namespace Gathers

variable {visited visited' : Set EntryId} {ids ids' new new' : List EntryId}

/-! ## What is collected -/

/-- Only entries that are there and were not met before are collected. -/
theorem fresh (h : src.Gathers visited ids new) :
    ∀ x ∈ new, src.index.entry? x ≠ none ∧ x ∉ visited := by
  induction h with
  | nil => exact fun x hx => absurd hx List.not_mem_nil
  | skip _ _ ih => exact ih
  | @collect visited id ids above below new hlive hnew _ _ _ iha ihb ihr =>
    intro x hx
    rw [List.mem_append, List.mem_cons, List.mem_append] at hx
    rcases hx with ha | rfl | hb | hr
    · exact ⟨(iha x ha).1, fun hv => (iha x ha).2 (Set.mem_insert_of_mem id hv)⟩
    · exact ⟨hlive, hnew⟩
    · exact ⟨(ihb x hb).1, fun hv => (ihb x hb).2 (Or.inl (Set.mem_insert_of_mem id hv))⟩
    · exact ⟨(ihr x hr).1, fun hv => (ihr x hr).2 (Or.inl (Or.inl (Set.mem_insert_of_mem id hv)))⟩

/-- What is collected is reached. -/
theorem reached (h : src.Gathers visited ids new) :
    ∀ x ∈ new, ∃ id ∈ ids, src.index.entry? id ≠ none ∧ src.Reaches id x := by
  induction h with
  | nil => exact fun x hx => absurd hx List.not_mem_nil
  | skip _ _ ih =>
    intro x hx
    obtain ⟨id, hid, hreach⟩ := ih x hx
    exact ⟨id, List.mem_cons_of_mem _ hid, hreach⟩
  | @collect visited id ids above below new hlive _ _ _ _ iha ihb ihr =>
    intro x hx
    rw [List.mem_append, List.mem_cons, List.mem_append] at hx
    rcases hx with ha | rfl | hb | hr
    · obtain ⟨ext, hext, -, hreach⟩ := iha x ha
      exact ⟨id, List.mem_cons_self, hlive, Relation.ReflTransGen.head (Or.inl hext) hreach⟩
    · exact ⟨x, List.mem_cons_self, hlive, Relation.ReflTransGen.refl⟩
    · obtain ⟨template, ht, -, hreach⟩ := ihb x hb
      exact ⟨id, List.mem_cons_self, hlive,
        Relation.ReflTransGen.head (Or.inr (Option.mem_toList.1 ht)) hreach⟩
    · obtain ⟨j, hj, hreach⟩ := ihr x hr
      exact ⟨j, List.mem_cons_of_mem _ hj, hreach⟩

/-- Every entry that is to be collected has been met in the end. -/
theorem met (h : src.Gathers visited ids new) :
    ∀ id ∈ ids, src.index.entry? id ≠ none → id ∈ visited ∨ id ∈ new := by
  induction h with
  | nil => exact fun x hx => absurd hx List.not_mem_nil
  | @skip visited id ids new hskip _ ih =>
    intro x hx hlive
    rcases List.mem_cons.1 hx with rfl | hx
    · exact Or.inl (hskip.resolve_left hlive)
    · exact ih x hx hlive
  | @collect visited id ids above below new _ _ _ _ _ _ _ ihr =>
    intro x hx hlive
    rw [List.mem_append, List.mem_cons, List.mem_append]
    rcases List.mem_cons.1 hx with rfl | hx
    · exact Or.inr (Or.inr (Or.inl rfl))
    · rcases ihr x hx hlive with (((rfl | hv) | ha) | hb) | hr
      · exact Or.inr (Or.inr (Or.inl rfl))
      · exact Or.inl hv
      · exact Or.inr (Or.inl ha)
      · exact Or.inr (Or.inr (Or.inr (Or.inl hb)))
      · exact Or.inr (Or.inr (Or.inr (Or.inr hr)))

/-- What a collected entry leads to has been met in the end. -/
theorem closed (h : src.Gathers visited ids new) :
    ∀ x ∈ new, ∀ y, src.Leads x y → src.index.entry? y ≠ none → y ∈ visited ∨ y ∈ new := by
  induction h with
  | nil => exact fun x hx => absurd hx List.not_mem_nil
  | skip _ _ ih => exact ih
  | @collect visited id ids above below new _ _ habove hbelow _ iha ihb ihr =>
    intro x hx y hy hlive
    rw [List.mem_append, List.mem_cons, List.mem_append] at hx ⊢
    -- Whatever was met in one of the parts was met before or is collected in the whole.
    have hinsert : y ∈ insert id visited →
        y ∈ visited ∨ y ∈ above ∨ y = id ∨ y ∈ below ∨ y ∈ new := by
      rintro (rfl | hv)
      · exact Or.inr (Or.inr (Or.inl rfl))
      · exact Or.inl hv
    have habove' : y ∈ insert id visited ∪ {z | z ∈ above} →
        y ∈ visited ∨ y ∈ above ∨ y = id ∨ y ∈ below ∨ y ∈ new := by
      rintro (hv | ha)
      · exact hinsert hv
      · exact Or.inr (Or.inl ha)
    rcases hx with ha | rfl | hb | hr
    · -- An entry of one part leads to what that part has met, by induction.
      rcases iha x ha y hy hlive with hv | ha'
      · exact hinsert hv
      · exact Or.inr (Or.inl ha')
    · -- The entry itself leads to its extensions and its template, which are searched next.
      rcases hy with hext | htemplate
      · rcases habove.met y hext hlive with hv | ha'
        · exact hinsert hv
        · exact Or.inr (Or.inl ha')
      · rcases hbelow.met y (Option.mem_toList.2 htemplate) hlive with hv | hb'
        · exact habove' hv
        · exact Or.inr (Or.inr (Or.inr (Or.inl hb')))
    · rcases ihb x hb y hy hlive with hv | hb'
      · exact habove' hv
      · exact Or.inr (Or.inr (Or.inr (Or.inl hb')))
    · rcases ihr x hr y hy hlive with (hv | hb') | hr'
      · exact habove' hv
      · exact Or.inr (Or.inr (Or.inr (Or.inl hb')))
      · exact Or.inr (Or.inr (Or.inr (Or.inr hr')))

/-! ## One result -/

/-- What is collected is determined. -/
theorem unique (h : src.Gathers visited ids new) (h' : src.Gathers visited ids new') :
    new = new' := by
  induction h generalizing new' with
  | nil =>
    cases h'
    rfl
  | skip hskip _ ih =>
    cases h' with
    | skip _ hrest => exact ih hrest
    | collect hlive hnew => exact absurd hskip (not_or.2 ⟨hlive, hnew⟩)
  | collect hlive hnew _ _ _ iha ihb ihr =>
    cases h' with
    | skip hskip => exact absurd hskip (not_or.2 ⟨hlive, hnew⟩)
    | collect _ _ habove hbelow hrest =>
      obtain rfl := iha habove
      obtain rfl := ihb hbelow
      rw [ihr hrest]

/-- Entries that were all met before add nothing. -/
theorem of_met (h : ∀ id ∈ ids, src.index.entry? id = none ∨ id ∈ visited) :
    src.Gathers visited ids [] := by
  induction ids with
  | nil => exact .nil visited
  | cons id ids ih =>
    exact .skip (h id List.mem_cons_self) (ih fun j hj => h j (List.mem_cons_of_mem id hj))

/-- Entries are collected one after another. -/
theorem append (h : src.Gathers visited ids new)
    (h' : src.Gathers (visited ∪ {x | x ∈ new}) ids' new') :
    src.Gathers visited (ids ++ ids') (new ++ new') := by
  induction h with
  | nil visited =>
    have hempty : visited ∪ {x | x ∈ ([] : List EntryId)} = visited := by simp
    rw [hempty] at h'
    exact h'
  | skip hskip _ ih => exact .skip hskip (ih h')
  | @collect visited id ids above below new hlive hnew habove hbelow _ _ _ ihr =>
    have hall : visited ∪ {x | x ∈ above ++ id :: (below ++ new)} =
        insert id visited ∪ {x | x ∈ above} ∪ {x | x ∈ below} ∪ {x | x ∈ new} := by
      ext x
      simp only [Set.mem_union, Set.mem_insert_iff, Set.mem_ofPred_eq, List.mem_append,
        List.mem_cons]
      grind
    rw [hall] at h'
    have hwhole := collect hlive hnew habove hbelow (ihr h')
    simpa only [List.append_assoc, List.cons_append] using hwhole

/-! ## Collecting again -/

/-- What was met before matters only as far as it is reached. -/
theorem congr (h : src.Gathers visited ids new)
    (hsame : ∀ id ∈ ids, ∀ x, src.Reaches id x → (x ∈ visited ↔ x ∈ visited')) :
    src.Gathers visited' ids new := by
  induction h generalizing visited' with
  | nil => exact .nil visited'
  | @skip visited id ids new hskip _ ih =>
    have hid := hsame id List.mem_cons_self id Relation.ReflTransGen.refl
    exact .skip (hskip.imp_right hid.1) (ih fun j hj => hsame j (List.mem_cons_of_mem id hj))
  | @collect visited id ids above below new hlive hnew _ _ _ iha ihb ihr =>
    have hid := hsame id List.mem_cons_self id Relation.ReflTransGen.refl
    have hstep : ∀ {j x}, src.Leads id j → src.Reaches j x → (x ∈ visited ↔ x ∈ visited') :=
      fun hlead hreach => hsame id List.mem_cons_self _ (Relation.ReflTransGen.head hlead hreach)
    refine .collect hlive (fun hv => hnew (hid.2 hv)) (iha fun j hj x hx => ?_)
      (ihb fun j hj x hx => ?_) (ihr fun j hj x hx => ?_)
    · rw [Set.mem_insert_iff, Set.mem_insert_iff, hstep (Or.inl hj) hx]
    · simp only [Set.mem_union, Set.mem_insert_iff, hstep (Or.inr (Option.mem_toList.1 hj)) hx]
    · simp only [Set.mem_union, Set.mem_insert_iff, hsame j (List.mem_cons_of_mem id hj) x hx]

/-- Collecting what was collected finds it again in the same order, if no entry on the way is
reached from one of its extensions. What is met before an entry in the second round are its
extensions, and these were collected before it in the first round. -/
theorem again (h : src.Gathers visited ids new)
    (hcalm : ∀ id ∈ ids, ∀ a, src.Reaches id a → ∀ b ∈ src.index.extensionsOf a, ¬ src.Reaches b a)
    (hsame : ∀ id ∈ ids, ∀ x, src.Reaches id x → (x ∈ visited ↔ x ∈ visited')) :
    src.Gathers visited' new new := by
  induction h generalizing visited' with
  | nil => exact .nil visited'
  | skip _ _ ih =>
    exact ih (fun j hj => hcalm j (List.mem_cons_of_mem _ hj))
      fun j hj => hsame j (List.mem_cons_of_mem _ hj)
  | @collect visited id ids above below new hlive hnew habove hbelow hrest iha ihb ihr =>
    have hid := hsame id List.mem_cons_self id Relation.ReflTransGen.refl
    have hstep : ∀ {j x}, src.Leads id j → src.Reaches j x → (x ∈ visited ↔ x ∈ visited') :=
      fun hlead hreach => hsame id List.mem_cons_self _ (Relation.ReflTransGen.head hlead hreach)
    have hnot : ∀ {j x}, j ∈ src.index.extensionsOf id → src.Reaches j x → x ≠ id := by
      rintro j x hj hx rfl
      exact hcalm x List.mem_cons_self x Relation.ReflTransGen.refl j hj hx
    -- First come the extensions. The entry itself is not met on the way.
    have hfirst : src.Gathers visited' above above := by
      refine iha (fun j hj a ha => hcalm id List.mem_cons_self a
        (Relation.ReflTransGen.head (Or.inl hj) ha)) fun j hj x hx => ?_
      rw [Set.mem_insert_iff, or_iff_right (hnot hj hx), hstep (Or.inl hj) hx]
    -- Then comes the entry, whose extensions are all met, with its template.
    have hext : src.Gathers (insert id (visited' ∪ {x | x ∈ above})) (src.index.extensionsOf id)
        [] := by
      refine of_met fun j hj => or_iff_not_imp_left.2 fun hj' => ?_
      rcases habove.met j hj hj' with (rfl | hv) | ha
      · exact Set.mem_insert _ _
      · exact Or.inr (Or.inl ((hstep (Or.inl hj) Relation.ReflTransGen.refl).1 hv))
      · exact Or.inr (Or.inr ha)
    have htemplate : src.Gathers
        (insert id (visited' ∪ {x | x ∈ above}) ∪ {x | x ∈ ([] : List EntryId)})
        (src.template? id).toList below := by
      refine hbelow.congr fun j hj x hx => ?_
      have hx' := hstep (Or.inr (Option.mem_toList.1 hj)) hx
      simp only [Set.mem_union, Set.mem_insert_iff, Set.mem_ofPred_eq, hx', List.not_mem_nil,
        or_false]
      grind
    -- What came with the template is met already, and the rest is collected as before.
    have hbelow' : src.Gathers (insert id (visited' ∪ {x | x ∈ above}) ∪
        {x | x ∈ ([] : List EntryId)} ∪ {x | x ∈ below}) below [] :=
      of_met fun j hj => Or.inr (Or.inr hj)
    have hlast : src.Gathers (insert id (visited' ∪ {x | x ∈ above}) ∪
        {x | x ∈ ([] : List EntryId)} ∪ {x | x ∈ below} ∪ {x | x ∈ ([] : List EntryId)})
        new new := by
      refine ihr (fun j hj => hcalm j (List.mem_cons_of_mem id hj)) fun j hj x hx => ?_
      have hx' := hsame j (List.mem_cons_of_mem id hj) x hx
      simp only [Set.mem_union, Set.mem_insert_iff, Set.mem_ofPred_eq, hx', List.not_mem_nil,
        or_false]
      grind
    have hfree : id ∉ visited' ∪ {x | x ∈ above} := by
      rintro (hv | ha)
      · exact hnew (hid.2 hv)
      · exact (habove.fresh id ha).2 (Set.mem_insert _ _)
    exact hfirst.append (.collect hlive hfree hext htemplate (hbelow'.append hlast))

end Gathers

/-! ## The search -/

/-- What was collected was met. -/
def Gathering.Met (g : Gathering) : Prop :=
  ∀ x ∈ g.found, x ∈ g.visited

/-- The number of entries that were not met yet. -/
def unmet (src : Sources) (g : Gathering) : Nat :=
  ((Finset.range src.index.slots.size).filter fun id =>
    (src.index.entry? id).isSome = true ∧ id ∉ g.visited).card

/-- A search went on from one state to another and collected `new`. -/
structure Gathering.Collects (g : Gathering) (new : List EntryId) (g' : Gathering) : Prop where
  /-- The new entries come behind those that were collected before. -/
  found : g'.found.elements = g.found.elements ++ new
  /-- The new entries are met. -/
  visited : ∀ x, x ∈ g'.visited ↔ x ∈ g.visited ∨ x ∈ new

/-- The entries that were met, as a set. -/
def Gathering.met (g : Gathering) : Set EntryId :=
  {x | x ∈ g.visited}

/-- A search meets more and more entries. -/
theorem Gathering.Collects.met_eq {g g' : Gathering} {new : List EntryId}
    (h : g.Collects new g') : g'.met = g.met ∪ {x | x ∈ new} :=
  Set.ext h.visited

/-- What was collected is still met after more was collected. -/
theorem Gathering.Met.collects {g g' : Gathering} {new : List EntryId} (hg : g.Met)
    (h : g.Collects new g') : g'.Met := by
  intro x hx
  have hx' : x ∈ g'.found.elements := hx
  rw [h.found, List.mem_append] at hx'
  exact (h.visited x).2 (hx'.imp_left (hg x))

/-- Two searches one after the other collect what both collect. -/
theorem Gathering.Collects.append {g g' g'' : Gathering} {new new' : List EntryId}
    (h : g.Collects new g') (h' : g'.Collects new' g'') : g.Collects (new ++ new') g'' := by
  refine ⟨?_, fun x => ?_⟩
  · rw [h'.found, h.found, List.append_assoc]
  · rw [h'.visited, h.visited, List.mem_append, or_assoc]

/-- Meeting an entry. -/
def Gathering.visit (g : Gathering) (id : EntryId) : Gathering :=
  { g with visited := g.visited.insert id }

/-- Collecting an entry. -/
def Gathering.collect (g : Gathering) (id : EntryId) : Gathering :=
  { g with found := g.found.insert id }

/-- What is met with one more entry. -/
theorem Gathering.met_visit (g : Gathering) (id : EntryId) :
    (g.visit id).met = insert id g.met := by
  ext x
  show x ∈ g.visited.insert id ↔ x = id ∨ x ∈ g.visited
  rw [OrderedSet.mem_insert, or_comm]

/-- An entry that was met may be collected. -/
theorem Gathering.Met.collect {g : Gathering} (hg : g.Met) {id : EntryId} (hid : id ∈ g.visited) :
    (g.collect id).Met := by
  intro x hx
  rcases OrderedSet.mem_insert.1 hx with hx | rfl
  · exact hg x hx
  · exact hid

/-- An entry is met, then what is above it is collected, then the entry itself. -/
theorem Gathering.Collects.entry {g g' : Gathering} {id : EntryId} {above : List EntryId}
    (hg : g.Met) (hfresh : id ∉ g.visited) (h : (g.visit id).Collects above g') (hid : id ∉ above) :
    g.Collects (above ++ [id]) (g'.collect id) := by
  have hunfound : id ∉ g'.found := by
    intro hmem
    have hmem' : id ∈ g'.found.elements := hmem
    rw [h.found, List.mem_append] at hmem'
    exact hmem'.elim (fun hold => hfresh (hg id hold)) hid
  refine ⟨?_, fun x => ?_⟩
  · show (g'.found.insert id).elements = _
    rw [OrderedSet.elements_insert hunfound, h.found, List.append_assoc]
    rfl
  · show x ∈ g'.visited ↔ _
    rw [h.visited, List.mem_append, List.mem_singleton]
    show x ∈ g.visited.insert id ∨ x ∈ above ↔ _
    rw [OrderedSet.mem_insert, or_assoc, or_comm (a := x = id)]

/-- Fewer entries are left when more are met. -/
theorem unmet_le {g g' : Gathering} (h : ∀ x ∈ g.visited, x ∈ g'.visited) :
    src.unmet g' ≤ src.unmet g := by
  refine Finset.card_le_card fun id hid => ?_
  rw [Finset.mem_filter] at hid ⊢
  exact ⟨hid.1, hid.2.1, fun hv => hid.2.2 (h id hv)⟩

/-- Meeting an entry leaves one less. -/
theorem unmet_lt {g g' : Gathering} (h : ∀ x ∈ g.visited, x ∈ g'.visited) {id : EntryId}
    (hlive : src.index.entry? id ≠ none) (hnew : id ∉ g.visited) (hmet : id ∈ g'.visited) :
    src.unmet g' < src.unmet g := by
  have hsome := Option.isSome_iff_ne_none.2 hlive
  have hlt : id < src.index.slots.size := by
    obtain ⟨e, he⟩ := Option.ne_none_iff_exists'.1 hlive
    exact Index.lt_size_of_entry? he
  refine Finset.card_lt_card (Finset.ssubset_iff_subset_ne.2 ⟨fun j hj => ?_, fun heq => ?_⟩)
  · rw [Finset.mem_filter] at hj ⊢
    exact ⟨hj.1, hj.2.1, fun hv => hj.2.2 (h j hv)⟩
  · -- The entry was left before, and is not left now.
    have hleft : id ∈ (Finset.range src.index.slots.size).filter fun id =>
        (src.index.entry? id).isSome = true ∧ id ∉ g.visited :=
      Finset.mem_filter.2 ⟨Finset.mem_range.2 hlt, hsome, hnew⟩
    rw [← heq, Finset.mem_filter] at hleft
    exact hleft.2.2 hmet

/-- One entry that is not skipped is met, then its extensions are collected, then the entry, then
its template. -/
theorem gather_of_new {g : Gathering} {id : EntryId} (hlive : src.index.entry? id ≠ none)
    (hnew : id ∉ g.visited) (depth : Nat) :
    src.gather (depth + 1) g id =
      (src.template? id).toList.foldl (src.gather depth)
        (((src.index.extensionsOf id).foldl (src.gather depth) (g.visit id)).collect id) := by
  have hcond : ¬ ((src.index.entry? id).isNone = true ∨ id ∈ g.visited) := by
    rintro (hnone | hv)
    · exact hlive (Option.isNone_iff_eq_none.1 hnone)
    · exact hnew hv
  rw [gather, if_neg hcond]
  cases src.template? id <;> rfl

/-- An entry that is not there, or was met before, is skipped. -/
theorem gather_of_skip {g : Gathering} {id : EntryId}
    (h : src.index.entry? id = none ∨ id ∈ g.visited) (depth : Nat) :
    src.gather (depth + 1) g id = g := by
  rw [gather, if_pos (h.imp_left Option.isNone_iff_eq_none.2)]

/-- With enough depth the search finds what there is to collect. -/
theorem gathers_foldl {depth : Nat} {g : Gathering} (hg : g.Met) (hdepth : src.unmet g < depth)
    (ids : List EntryId) : ∃ new, src.Gathers g.met ids new ∧
      g.Collects new (ids.foldl (src.gather depth) g) := by
  -- The induction is on the depth, and at each depth on the entries that are still to be collected.
  induction depth generalizing g ids with
  | zero => exact absurd hdepth (Nat.not_lt_zero _)
  | succ depth ihd =>
    induction ids generalizing g with
    | nil => exact ⟨[], .nil _, (List.append_nil _).symm, fun x => by simp⟩
    | cons id ids ih =>
      rw [List.foldl_cons]
      by_cases hskip : src.index.entry? id = none ∨ id ∈ g.visited
      · rw [gather_of_skip hskip]
        obtain ⟨new, hnew, hcollects⟩ := ih hg hdepth
        exact ⟨new, .skip hskip hnew, hcollects⟩
      · obtain ⟨hlive, hfresh⟩ := not_or.1 hskip
        rw [gather_of_new hlive hfresh]
        have hmore : ∀ x ∈ g.visited, x ∈ (g.visit id).visited :=
          fun x hx => OrderedSet.mem_insert.2 (Or.inl hx)
        have hid : id ∈ (g.visit id).visited := OrderedSet.mem_insert.2 (Or.inr rfl)
        -- The entry is met now, so fewer are left for the searches below.
        have hlt : src.unmet (g.visit id) < depth :=
          lt_of_lt_of_le (unmet_lt hmore hlive hfresh hid) (Nat.le_of_lt_succ hdepth)
        have hvisit : (g.visit id).Met := fun x hx => hmore x (hg x hx)
        obtain ⟨above, habove, hc₁⟩ := ihd hvisit hlt (src.index.extensionsOf id)
        set g₁ := (src.index.extensionsOf id).foldl (src.gather depth) (g.visit id)
        have hg₁ : (g₁.collect id).Met :=
          (hvisit.collects hc₁).collect ((hc₁.visited id).2 (Or.inl hid))
        have hle₁ : src.unmet (g₁.collect id) ≤ src.unmet (g.visit id) :=
          unmet_le fun x hx => (hc₁.visited x).2 (Or.inl hx)
        have hentry := hc₁.entry hg hfresh fun hmem => (habove.fresh id hmem).2 hid
        obtain ⟨below, hbelow, hc₂⟩ := ihd hg₁ (lt_of_le_of_lt hle₁ hlt) (src.template? id).toList
        set g₂ := (src.template? id).toList.foldl (src.gather depth) (g₁.collect id)
        have hle₂ : src.unmet g₂ ≤ src.unmet (g₁.collect id) :=
          unmet_le fun x hx => (hc₂.visited x).2 (Or.inl hx)
        obtain ⟨new, hrest, hc₃⟩ := ih (hg₁.collects hc₂)
          (lt_of_le_of_lt (hle₂.trans hle₁) (Nat.lt_succ_of_lt hlt))
        -- The three searches know what was met before them.
        have hmet₁ : (g₁.collect id).met = insert id g.met ∪ {x | x ∈ above} := by
          rw [← g.met_visit]
          exact hc₁.met_eq
        rw [g.met_visit] at habove
        rw [hmet₁] at hbelow
        rw [hc₂.met_eq, hmet₁] at hrest
        refine ⟨above ++ id :: (below ++ new), .collect hlive hfresh habove hbelow hrest, ?_⟩
        have hall := hentry.append (hc₂.append hc₃)
        rwa [List.append_assoc, List.singleton_append] at hall

/-- The contributors that come with some entries are those that are collected from them. -/
theorem gathers_contributors (src : Sources) (ids : List EntryId) :
    src.Gathers ∅ ids (src.contributors ids).elements := by
  have hdepth : src.unmet {} < src.index.slots.size + 1 := by
    refine Nat.lt_succ_of_le ((Finset.card_filter_le _ _).trans ?_)
    rw [Finset.card_range]
  obtain ⟨new, hnew, hcollects⟩ := gathers_foldl (g := {}) (fun x hx => hx) hdepth ids
  have hempty : Gathering.met {} = ∅ := Set.ext fun x => ⟨fun hx => absurd hx List.not_mem_nil,
    fun hx => absurd hx (Set.notMem_empty x)⟩
  rw [hempty] at hnew
  rw [contributors, hcollects.found]
  exact hnew

/-! ## Contributors -/

/-- The entries that come with some entries are those that they reach, as far as they are there. -/
theorem mem_contributors_iff (hlive : ∀ a b, src.Leads a b → src.index.entry? b ≠ none)
    {ids : List EntryId} {x : EntryId} : x ∈ src.contributors ids ↔
      ∃ id ∈ ids, src.index.entry? id ≠ none ∧ src.Reaches id x := by
  have h := src.gathers_contributors ids
  refine ⟨h.reached x, ?_⟩
  rintro ⟨id, hid, hthere, hreach⟩
  -- The induction is on the steps from the entry.
  induction hreach with
  | refl => exact (h.met id hid hthere).resolve_left (Set.notMem_empty id)
  | @tail a b _ hlead ih =>
    exact (h.closed a ih b hlead (hlive a b hlead)).resolve_left (Set.notMem_empty b)

/-- Only entries that are there contribute. -/
theorem entry?_of_mem_contributors {ids : List EntryId} {x : EntryId}
    (hx : x ∈ src.contributors ids) : src.index.entry? x ≠ none :=
  ((src.gathers_contributors ids).fresh x hx).1

/-- Contributors that come with contributors are the same, in the same order, if no entry is reached
from one of its extensions. -/
theorem contributors_contributors {ids : List EntryId}
    (hcalm : ∀ id ∈ ids, ∀ a, src.Reaches id a →
      ∀ b ∈ src.index.extensionsOf a, ¬ src.Reaches b a) :
    src.contributors (src.contributors ids).elements = src.contributors ids :=
  OrderedSet.ext ((src.gathers_contributors _).unique
    ((src.gathers_contributors ids).again hcalm fun _ _ _ _ => Iff.rfl))

end LayoutMarkup.Hierarchy.Sources
