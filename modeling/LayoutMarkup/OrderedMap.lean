/-!
# Maps and sets in insertion order

The tables of a schema, an index and a hierarchy are read in the order in which their keys came in.
An `OrderedMap` is a list of pairs with distinct keys, an `OrderedSet` a list of distinct elements.
Putting a value under a key that is there already keeps the place of the key.
-/

namespace LayoutMarkup

/-- Pairs of a key and a value with distinct keys, in insertion order. -/
@[ext]
structure OrderedMap (κ ν : Type) where
  /-- The pairs, first inserted first. -/
  entries : List (κ × ν)
  /-- No key occurs twice. -/
  nodup : (entries.map Prod.fst).Nodup

namespace OrderedMap

variable {κ ν : Type}

/-- The map without entries. -/
def empty : OrderedMap κ ν :=
  ⟨[], List.nodup_nil⟩

instance : EmptyCollection (OrderedMap κ ν) := ⟨empty⟩

instance : Inhabited (OrderedMap κ ν) := ⟨empty⟩

instance [DecidableEq κ] [DecidableEq ν] : DecidableEq (OrderedMap κ ν) := fun m n =>
  decidable_of_iff (m.entries = n.entries) OrderedMap.ext_iff.symm

/-- The keys in order. -/
def keys (m : OrderedMap κ ν) : List κ :=
  m.entries.map Prod.fst

/-- The values in the order of their keys. -/
def values (m : OrderedMap κ ν) : List ν :=
  m.entries.map Prod.snd

/-- The number of keys. -/
def size (m : OrderedMap κ ν) : Nat :=
  m.entries.length

/-- Whether there is no key. -/
def isEmpty (m : OrderedMap κ ν) : Bool :=
  m.entries.isEmpty

variable [DecidableEq κ]

/-- The value under a key. -/
def get? (m : OrderedMap κ ν) (k : κ) : Option ν :=
  m.entries.lookup k

/-- Whether a key is there. -/
def contains (m : OrderedMap κ ν) (k : κ) : Bool :=
  (m.get? k).isSome

/-- Changes the value under a key, if the key is there. -/
def adjust (m : OrderedMap κ ν) (k : κ) (f : ν → ν) : OrderedMap κ ν where
  entries := m.entries.map fun e => if e.1 = k then (e.1, f e.2) else e
  nodup := by
    have keys_eq : (m.entries.map fun e => if e.1 = k then (e.1, f e.2) else e).map Prod.fst =
        m.entries.map Prod.fst := by
      rw [List.map_map]
      exact List.map_congr_left fun e _ => by simp only [Function.comp]; split <;> rfl
    exact keys_eq ▸ m.nodup

/-- Takes a key out. -/
def erase (m : OrderedMap κ ν) (k : κ) : OrderedMap κ ν where
  entries := m.entries.filter fun e => e.1 ≠ k
  nodup := m.nodup.sublist (List.filter_sublist.map Prod.fst)

omit [DecidableEq κ] in
/-- A key that is not there may follow the others. -/
theorem nodup_append_new {l : List (κ × ν)} {k : κ} {v : ν} (hl : (l.map Prod.fst).Nodup)
    (hk : k ∉ l.map Prod.fst) : ((l ++ [(k, v)]).map Prod.fst).Nodup := by
  rw [List.map_append, List.nodup_append]
  refine ⟨hl, by simp, fun a ha b hb hab => ?_⟩
  rw [List.map_singleton, List.mem_singleton] at hb
  rw [hab, hb] at ha
  exact hk ha

/-- Puts a value under a key: in place of the old value, or behind all other keys. -/
def insert (m : OrderedMap κ ν) (k : κ) (v : ν) : OrderedMap κ ν :=
  if h : k ∈ m.entries.map Prod.fst then
    m.adjust k fun _ => v
  else
    ⟨m.entries ++ [(k, v)], nodup_append_new m.nodup h⟩

/-! Looking up a key is the view of a map: each operation is determined by what it does to it. -/

/-- Nothing is under a key of the empty map. -/
@[simp]
theorem get?_empty (k : κ) : (empty : OrderedMap κ ν).get? k = none := rfl

/-- The first pair with the key decides. -/
theorem lookup_cons_eq (k : κ) (e : κ × ν) (l : List (κ × ν)) :
    (e :: l).lookup k = if k = e.1 then some e.2 else l.lookup k := by
  obtain ⟨a, b⟩ := e
  by_cases h : k = a
  · simp [h]
  · rw [List.lookup_cons, beq_false_of_ne h, if_neg h]

/-- A key that is not there has no value. -/
theorem get?_eq_none_iff {m : OrderedMap κ ν} {k : κ} : m.get? k = none ↔ k ∉ m.keys := by
  unfold get? keys
  induction m.entries with
  | nil => simp
  | cons e l ih =>
    rw [lookup_cons_eq, List.map_cons, List.mem_cons, not_or]
    by_cases h : k = e.1
    · simp [h]
    · rw [if_neg h, ih]
      exact ⟨fun hl => ⟨h, hl⟩, And.right⟩

/-- A change is seen under its key only. -/
theorem get?_adjust (m : OrderedMap κ ν) (k j : κ) (f : ν → ν) :
    (m.adjust k f).get? j = if j = k then (m.get? j).map f else m.get? j := by
  unfold get? adjust
  dsimp only
  induction m.entries with
  | nil => simp
  | cons e l ih =>
    rw [List.map_cons, lookup_cons_eq, lookup_cons_eq, ih]
    grind

/-- A key that was taken out is gone, and no other. -/
theorem get?_erase (m : OrderedMap κ ν) (k j : κ) :
    (m.erase k).get? j = if j = k then none else m.get? j := by
  unfold get? erase
  dsimp only
  induction m.entries with
  | nil => simp
  | cons e l ih =>
    rw [lookup_cons_eq, List.filter_cons]
    by_cases hk : e.1 = k
    · rw [if_neg (by simp [hk]), ih, hk]
      split <;> rfl
    · rw [if_pos (by simp [hk]), lookup_cons_eq, ih]
      grind

/-- A value that was put under a key is found there, and the other values stay. -/
theorem get?_insert (m : OrderedMap κ ν) (k j : κ) (v : ν) :
    (m.insert k v).get? j = if j = k then some v else m.get? j := by
  unfold insert
  split
  next h =>
    rw [get?_adjust]
    split
    next hj =>
      -- The key is there, so it has a value to be replaced.
      have hne : m.get? j ≠ none := fun hn => get?_eq_none_iff.1 hn (hj ▸ h)
      obtain ⟨w, hw⟩ := Option.ne_none_iff_exists'.1 hne
      rw [hw, Option.map_some]
    next => rfl
  next h =>
    have hn : m.entries.lookup k = none := get?_eq_none_iff.2 h
    show (m.entries ++ [(k, v)]).lookup j = if j = k then some v else m.entries.lookup j
    rw [List.lookup_append, lookup_cons_eq]
    by_cases hj : j = k
    · rw [hj, hn, if_pos rfl, if_pos rfl, Option.none_or]
    · rw [if_neg hj, if_neg hj, List.lookup_nil, Option.or_none]

/-- A new key comes last, and a key that is there keeps its place. -/
theorem keys_insert (m : OrderedMap κ ν) (k : κ) (v : ν) :
    (m.insert k v).keys = if k ∈ m.keys then m.keys else m.keys ++ [k] := by
  unfold insert keys
  split
  next =>
    simp only [adjust, List.map_map]
    exact List.map_congr_left fun e _ => by simp only [Function.comp]; split <;> rfl
  next => rw [List.map_append, List.map_singleton]

/-- Changes the value under a key, starting from a given value if the key is new. -/
def upsert (m : OrderedMap κ ν) (k : κ) (start : ν) (f : ν → ν) : OrderedMap κ ν :=
  m.insert k (f ((m.get? k).getD start))

/-- The pairs inserted one after another. -/
def ofList (l : List (κ × ν)) : OrderedMap κ ν :=
  l.foldl (fun m e => m.insert e.1 e.2) empty

end OrderedMap

/-- Distinct elements in insertion order. -/
@[ext]
structure OrderedSet (α : Type) where
  /-- The elements, first inserted first. -/
  elements : List α
  /-- No element occurs twice. -/
  nodup : elements.Nodup

namespace OrderedSet

variable {α : Type}

/-- The set without elements. -/
def empty : OrderedSet α :=
  ⟨[], List.nodup_nil⟩

instance : EmptyCollection (OrderedSet α) := ⟨empty⟩

instance : Inhabited (OrderedSet α) := ⟨empty⟩

instance [DecidableEq α] : DecidableEq (OrderedSet α) := fun s t =>
  decidable_of_iff (s.elements = t.elements) OrderedSet.ext_iff.symm

instance : Membership α (OrderedSet α) := ⟨fun s a => a ∈ s.elements⟩

instance [DecidableEq α] (a : α) (s : OrderedSet α) : Decidable (a ∈ s) :=
  inferInstanceAs (Decidable (a ∈ s.elements))

/-- The set of one element. -/
def singleton (a : α) : OrderedSet α :=
  ⟨[a], by simp⟩

/-- The number of elements. -/
def size (s : OrderedSet α) : Nat :=
  s.elements.length

/-- Whether there is no element. -/
def isEmpty (s : OrderedSet α) : Bool :=
  s.elements.isEmpty

/-- The element inserted first. -/
def first? (s : OrderedSet α) : Option α :=
  s.elements.head?

variable [DecidableEq α]

omit [DecidableEq α] in
/-- An element that is not there may follow the others. -/
theorem nodup_append_new {l : List α} {a : α} (hl : l.Nodup) (ha : a ∉ l) : (l ++ [a]).Nodup := by
  rw [List.nodup_append]
  refine ⟨hl, by simp, fun b hb c hc hbc => ?_⟩
  rw [List.mem_singleton] at hc
  rw [hbc, hc] at hb
  exact ha hb

/-- Adds an element behind the others, unless it is there. -/
def insert (s : OrderedSet α) (a : α) : OrderedSet α :=
  if h : a ∈ s.elements then s else ⟨s.elements ++ [a], nodup_append_new s.nodup h⟩

/-- Adds an element in front of the others, unless it is there. -/
def insertFirst (s : OrderedSet α) (a : α) : OrderedSet α :=
  if h : a ∈ s.elements then s else ⟨a :: s.elements, List.nodup_cons.2 ⟨h, s.nodup⟩⟩

/-- Takes an element out. -/
def erase (s : OrderedSet α) (a : α) : OrderedSet α :=
  ⟨s.elements.filter (· ≠ a), s.nodup.sublist List.filter_sublist⟩

/-- The elements after one was added behind. -/
theorem mem_insert {s : OrderedSet α} {a b : α} : b ∈ s.insert a ↔ b ∈ s ∨ b = a := by
  show b ∈ (s.insert a).elements ↔ b ∈ s.elements ∨ b = a
  unfold insert
  split
  next h => exact ⟨Or.inl, fun hb => hb.elim id fun hab => hab ▸ h⟩
  next => simp

/-- The elements after one was added in front. -/
theorem mem_insertFirst {s : OrderedSet α} {a b : α} :
    b ∈ s.insertFirst a ↔ b ∈ s ∨ b = a := by
  show b ∈ (s.insertFirst a).elements ↔ b ∈ s.elements ∨ b = a
  unfold insertFirst
  split
  next h => exact ⟨Or.inl, fun hb => hb.elim id fun hab => hab ▸ h⟩
  next => rw [List.mem_cons, or_comm]

/-- The elements after one was taken out. -/
theorem mem_erase {s : OrderedSet α} {a b : α} : b ∈ s.erase a ↔ b ∈ s ∧ b ≠ a := by
  show b ∈ (s.erase a).elements ↔ b ∈ s.elements ∧ b ≠ a
  simp [erase]

end OrderedSet

end LayoutMarkup
