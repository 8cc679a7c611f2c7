import LayoutMarkup.Index.Basic
import LayoutMarkup.Proofs.OrderedMap
import Mathlib.Data.Set.Card
import Mathlib.Logic.Function.Basic

/-!
# Slots

An index is seen through `entry?`: which entry is in which slot. The operations on slots have one
statement each about what they do to that view, as long as the free list holds every empty slot
exactly once (`FreeListed`): `adjust_spec`, `allocate_spec` and `release_spec`. What an operation
does to the rest of the index is said by `Reslotted`: nothing. The size of an index is then the
number of slots with an entry (`size_eq_ncard`), so that indices with the same view have the same
size.
-/

namespace LayoutMarkup

/-- A computation with a result goes on with it. -/
theorem ok_bind {ε α β : Type} (a : α) (f : α → Except ε β) : (Except.ok a >>= f) = f a := rfl

/-- Where a computation succeeds, each part of it does. -/
theorem exists_of_bind_eq_ok {ε α β : Type} {x : Except ε α} {f : α → Except ε β} {b : β}
    (h : x >>= f = .ok b) : ∃ a, x = .ok a ∧ f a = .ok b := by
  cases x with
  | error e => cases h
  | ok a => exact ⟨a, rfl, h⟩

/-- Which entry is in which slot. -/
abbrev Entries := EntryId → Option Entry

/-- The entries without the one in a slot, whose name goes out of its scope. -/
def Entries.detach (v : Entries) (id : EntryId) (e : Entry) : Entries :=
  Function.update (fun j => if e.parent = some j then
    (v j).map fun s => { s with children := s.children.erase e.name } else v j) id none

namespace Index

/-- The free list holds every slot without an entry, and no slot twice. -/
structure FreeListed (ix : Index) : Prop where
  /-- No slot is given away twice. -/
  nodup : ix.free.Nodup
  /-- A slot is free exactly if it has no entry. -/
  mem_free : ∀ id, id ∈ ix.free ↔ id < ix.slots.size ∧ ix.entry? id = none

/-- An index that agrees with another one but for the slots, which hold given entries. -/
structure Reslotted (ix : Index) (entries : Entries) (ix' : Index) : Prop where
  /-- The entries in the slots. -/
  view : ix'.entry? = entries
  /-- The free list is kept. -/
  freeListed : ix'.FreeListed
  /-- All else is as before. -/
  rest : ix' = { ix with slots := ix'.slots, free := ix'.free }

/-- Changing the slots twice is changing them once. -/
theorem Reslotted.trans {ix ix' ix'' : Index} {v v' : Entries} (h : ix.Reslotted v ix')
    (h' : ix'.Reslotted v' ix'') : ix.Reslotted v' ix'' := by
  refine ⟨h'.view, h'.freeListed, ?_⟩
  rw [h'.rest, h.rest]

/-- An index whose free list is kept agrees with itself. -/
theorem FreeListed.reslotted {ix : Index} (h : ix.FreeListed) : ix.Reslotted ix.entry? ix :=
  ⟨rfl, h, rfl⟩

/-! ## Reading -/

/-- Behind the slots there is no entry. -/
theorem lt_size_of_entry? {ix : Index} {id : EntryId} {e : Entry} (h : ix.entry? id = some e) :
    id < ix.slots.size := by
  by_contra hlt
  have hnone : ix.slots[id]? = none := by simpa using hlt
  unfold entry? at h
  rw [hnone] at h
  exact absurd h (by simp)

/-- The entry in a slot that is not free. -/
theorem entry_eq {ix : Index} {id : EntryId} {e : Entry} (h : ix.entry? id = some e) :
    ix.entry id = .ok e := by
  unfold entry
  rw [h]

/-- Putting something into a slot is seen in that slot only. -/
theorem entry?_setIfInBounds {ix : Index} {id : EntryId} (hid : id < ix.slots.size)
    (slot : Option Entry) (free : List EntryId) :
    entry? { ix with slots := ix.slots.setIfInBounds id slot, free } =
      Function.update ix.entry? id slot := by
  funext j
  unfold entry?
  rw [Array.getElem?_setIfInBounds]
  by_cases hj : id = j
  · subst hj
    simp [hid]
  · have hji : j ≠ id := fun h => hj h.symm
    rw [if_neg hj, Function.update_of_ne hji]

/-! ## Changing -/

/-- Changing an entry that is there succeeds and is seen in its slot only. -/
theorem adjust_spec {ix : Index} (hfree : ix.FreeListed) {id : EntryId} {e : Entry}
    (h : ix.entry? id = some e) (f : Entry → Entry) :
    ∃ ix', ix.adjust id f = .ok ix' ∧
      ix.Reslotted (Function.update ix.entry? id (some (f e))) ix' := by
  have hid := lt_size_of_entry? h
  have hview := entry?_setIfInBounds hid (some (f e)) ix.free
  refine ⟨_, by rw [adjust, entry_eq h]; rfl, hview, ⟨hfree.nodup, fun j => ?_⟩, rfl⟩
  rw [hview, hfree.mem_free j, Array.size_setIfInBounds]
  by_cases hj : j = id
  · simp [hj, h]
  · rw [Function.update_of_ne hj]

/-- Allocating takes a slot that has no entry, and is seen there only. -/
theorem allocate_spec {ix : Index} (hfree : ix.FreeListed) (e : Entry) :
    ix.entry? (ix.allocate e).2 = none ∧
      ix.Reslotted (Function.update ix.entry? (ix.allocate e).2 (some e)) (ix.allocate e).1 := by
  cases hl : ix.free with
  | cons id free =>
    -- The last slot given back is used again.
    have halloc : ix.allocate e =
        ({ ix with slots := ix.slots.setIfInBounds id (some e), free }, id) := by
      rw [allocate, hl]
    rw [halloc]
    obtain ⟨hid, hnone⟩ := (hfree.mem_free id).1 (hl ▸ List.mem_cons_self)
    have hnd := hfree.nodup
    rw [hl, List.nodup_cons] at hnd
    have hview := entry?_setIfInBounds hid (some e) free
    refine ⟨hnone, hview, ⟨hnd.2, fun j => ?_⟩, rfl⟩
    rw [hview, Array.size_setIfInBounds]
    have hmem := hfree.mem_free j
    rw [hl, List.mem_cons] at hmem
    by_cases hj : j = id
    · simp [hj, hnd.1]
    · rw [Function.update_of_ne hj, ← hmem]
      exact ⟨Or.inr, fun h => h.resolve_left hj⟩
  | nil =>
    -- All slots are in use: a new one is made.
    have halloc : ix.allocate e =
        ({ ix with slots := ix.slots.push (some e) }, ix.slots.size) := by
      rw [allocate, hl]
    rw [halloc]
    have hview : entry? { ix with slots := ix.slots.push (some e) } =
        Function.update ix.entry? ix.slots.size (some e) := by
      funext j
      unfold entry?
      rw [Array.getElem?_push]
      by_cases hj : j = ix.slots.size
      · simp [hj]
      · rw [if_neg hj, Function.update_of_ne hj]
    refine ⟨by unfold entry?; simp, hview, ⟨hfree.nodup, fun j => ?_⟩, rfl⟩
    rw [hview, hfree.mem_free j, Array.size_push]
    by_cases hj : j = ix.slots.size
    · simp [hj]
    · rw [Function.update_of_ne hj]
      have hlt : j < ix.slots.size ↔ j < ix.slots.size + 1 :=
        ⟨fun h => Nat.lt_succ_of_lt h, fun h => Nat.lt_of_le_of_ne (Nat.le_of_lt_succ h) hj⟩
      rw [hlt]

/-- A released slot is empty, and the name of its entry is gone from the scope. -/
theorem entry?_release {ix : Index} {id : EntryId} {e : Entry} (h : ix.entry? id = some e) :
    entry? (ix.release id) = Entries.detach ix.entry? id e := by
  have hid := lt_size_of_entry? h
  funext j
  unfold release Entries.detach
  rw [h]
  unfold entry?
  dsimp only
  cases hp : e.parent with
  | none =>
    dsimp only
    rw [Array.getElem?_setIfInBounds]
    by_cases hj : id = j
    · subst hj
      simp [hid]
    · rw [if_neg hj, Function.update_of_ne (fun h => hj h.symm)]
      simp
  | some scope =>
    -- The slot is emptied first, so that nothing is taken from the entry itself.
    dsimp only
    rw [Array.getElem?_modify, Array.getElem?_setIfInBounds]
    by_cases hj : id = j
    · subst hj
      simp [hid]
    · rw [if_neg hj, Function.update_of_ne (fun h => hj h.symm)]
      by_cases hs : scope = j
      · subst hs
        cases ix.slots[scope]? <;> simp
      · simp [hs]

/-- Releasing a slot takes its entry out, and its name out of the scope. -/
theorem release_spec {ix : Index} (hfree : ix.FreeListed) {id : EntryId} {e : Entry}
    (h : ix.entry? id = some e) :
    ix.Reslotted (Entries.detach ix.entry? id e) (ix.release id) := by
  have hid := lt_size_of_entry? h
  have hnotfree : id ∉ ix.free := fun hmem => by
    rw [((hfree.mem_free id).1 hmem).2] at h
    exact absurd h (Option.some_ne_none e).symm
  have hslots : (ix.release id).free = id :: ix.free ∧
      (ix.release id).slots.size = ix.slots.size := by
    unfold release
    rw [h]
    cases hp : e.parent <;> simp [hp]
  refine ⟨entry?_release h, ⟨?_, fun j => ?_⟩, ?_⟩
  · rw [hslots.1]
    exact List.nodup_cons.2 ⟨hnotfree, hfree.nodup⟩
  · -- The slot is now listed as free, and the other slots are as empty as they were.
    rw [entry?_release h, hslots.1, hslots.2, List.mem_cons, hfree.mem_free j, Entries.detach]
    by_cases hj : j = id
    · simp [hj, hid]
    · rw [Function.update_of_ne hj, or_iff_right hj]
      split <;> simp
  · unfold release
    rw [h]

/-! ## Counting -/

/-- The size of an index is the number of slots that have an entry. -/
theorem size_eq_ncard {ix : Index} (hfree : ix.FreeListed) :
    ix.size = {id | ix.entry? id ≠ none}.ncard := by
  classical
  -- The slots fall into those on the free list and those with an entry.
  have hlive : {id | ix.entry? id ≠ none} =
      ↑((Finset.range ix.slots.size).filter fun id => ix.entry? id ≠ none) := by
    ext id
    rw [Finset.mem_coe, Finset.mem_filter, Finset.mem_range]
    refine ⟨fun h => ⟨?_, h⟩, And.right⟩
    obtain ⟨e, he⟩ := Option.ne_none_iff_exists'.1 h
    exact lt_size_of_entry? he
  have hempty : ((Finset.range ix.slots.size).filter fun id => ¬ ix.entry? id ≠ none) =
      ix.free.toFinset := by
    ext id
    rw [List.mem_toFinset, hfree.mem_free id, Finset.mem_filter, Finset.mem_range, not_not]
  have hsum := Finset.card_filter_add_card_filter_not (s := Finset.range ix.slots.size)
    (fun id => ix.entry? id ≠ none)
  rw [hempty, List.toFinset_card_of_nodup hfree.nodup, Finset.card_range] at hsum
  rw [hlive, Set.ncard_coe_finset]
  exact (Nat.eq_sub_of_add_eq hsum).symm

/-- Indices with the same entries have the same size. -/
theorem size_congr {ix ix' : Index} (h : ix.FreeListed) (h' : ix'.FreeListed)
    (hview : ix.entry? = ix'.entry?) : ix.size = ix'.size := by
  rw [size_eq_ncard h, size_eq_ncard h', hview]

end Index

end LayoutMarkup
