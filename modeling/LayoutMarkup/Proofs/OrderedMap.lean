import LayoutMarkup.OrderedMap
import Mathlib.Data.List.Nodup

/-!
# Taking values back out of ordered maps

What was put into an ordered map is taken out again in two ways: a key goes (`erase`), or the value
under it changes and the key goes only when nothing is left of the value. `amend` is the second way.
The statements here are about whole maps, the order of their keys included: amending undoes `upsert`
(`amend_upsert`), and amendments that commute on the values commute on the map (`amend_comm`). A map
whose values are collections is amended by `shrink`, which takes a key out with the last member of
its value. `mapValues` sends all values through a function.
-/

namespace LayoutMarkup

namespace OrderedMap

variable {κ ν : Type} [DecidableEq κ]

/-! ## Looking up -/

/-- A value is under a key exactly if the pair is in the map. -/
theorem get?_eq_some_iff {m : OrderedMap κ ν} {k : κ} {v : ν} :
    m.get? k = some v ↔ (k, v) ∈ m.entries := by
  obtain ⟨l, hnd⟩ := m
  show l.lookup k = some v ↔ (k, v) ∈ l
  induction l with
  | nil => simp
  | cons e l ih =>
    rw [List.map_cons, List.nodup_cons] at hnd
    rw [lookup_cons_eq, List.mem_cons]
    by_cases h : k = e.1
    · -- No later pair has the key of the first one.
      have hl : (k, v) ∉ l := fun hm => hnd.1 (h ▸ List.mem_map_of_mem (f := Prod.fst) hm)
      rw [if_pos h, Option.some.injEq]
      constructor
      · intro hv
        exact Or.inl (Prod.ext h hv.symm)
      · rintro (he | hm)
        · rw [← he]
        · exact absurd hm hl
    · rw [if_neg h, ih hnd.2]
      constructor
      · exact Or.inr
      · rintro (he | hm)
        · exact absurd (congrArg Prod.fst he) h
        · exact hm

/-- The pair under a key holds the value that is found there. -/
theorem snd_eq_of_mem_entries {m : OrderedMap κ ν} {k : κ} {v : ν} {e : κ × ν}
    (h : m.get? k = some v) (he : e ∈ m.entries) (hek : e.1 = k) : e.2 = v := by
  have hget := get?_eq_some_iff.2 (show (k, e.2) ∈ m.entries from hek ▸ he)
  exact Option.some.inj (hget.symm.trans h)

/-- A key is there exactly if it has a value. -/
theorem mem_keys_iff {m : OrderedMap κ ν} {k : κ} : k ∈ m.keys ↔ ∃ v, m.get? k = some v := by
  rw [← Option.ne_none_iff_exists', Ne, get?_eq_none_iff, not_not]

/-- Two maps have a key in common if it is missing from both or from none of them. -/
theorem mem_keys_congr {μ : Type} {m : OrderedMap κ ν} {m' : OrderedMap κ μ} {k : κ}
    (h : m.get? k = none ↔ m'.get? k = none) : k ∈ m.keys ↔ k ∈ m'.keys := by
  rw [get?_eq_none_iff, get?_eq_none_iff] at h
  exact not_iff_not.1 h

/-- At most one pair has a key, that of its value. -/
theorem filterMap_key (m : OrderedMap κ ν) (k : κ) :
    (m.entries.filterMap fun e => if e.1 = k then some e.2 else none) = (m.get? k).toList := by
  obtain ⟨l, hnd⟩ := m
  show l.filterMap _ = (l.lookup k).toList
  induction l with
  | nil => rfl
  | cons e l ih =>
    rw [List.map_cons, List.nodup_cons] at hnd
    rw [lookup_cons_eq, List.filterMap_cons]
    by_cases h : e.1 = k
    · -- No later pair has the key of the first one.
      have hrest : (l.filterMap fun e => if e.1 = k then some e.2 else none) = [] := by
        refine List.filterMap_eq_nil_iff.2 fun e' he' => if_neg fun hk => hnd.1 ?_
        rw [h, ← hk]
        exact List.mem_map_of_mem he'
      rw [if_pos h, if_pos h.symm]
      simp [hrest]
    · rw [if_neg h, if_neg (fun hk => h hk.symm)]
      exact ih hnd.2

omit [DecidableEq κ] in
/-- A map is empty exactly if it is the empty map. -/
theorem isEmpty_eq_true_iff {m : OrderedMap κ ν} : m.isEmpty = true ↔ m = ∅ := by
  constructor
  · intro h
    exact OrderedMap.ext (List.isEmpty_iff.1 h)
  · rintro rfl
    rfl

/-- A new key comes behind all pairs. -/
theorem entries_insert_of_get?_eq_none {m : OrderedMap κ ν} {k : κ} (h : m.get? k = none) (v : ν) :
    (m.insert k v).entries = m.entries ++ [(k, v)] := by
  have hk : k ∉ m.entries.map Prod.fst := get?_eq_none_iff.1 h
  unfold insert
  rw [dif_neg hk]

/-- A new value that is changed is the changed value put in. -/
theorem adjust_insert {m : OrderedMap κ ν} {k : κ} (h : m.get? k = none) (v : ν) (f : ν → ν) :
    (m.insert k v).adjust k f = m.insert k (f v) := by
  apply OrderedMap.ext
  have hk : ∀ e ∈ m.entries, (if e.1 = k then (e.1, f e.2) else e) = e := fun e he =>
    if_neg fun hek : e.1 = k => get?_eq_none_iff.1 h (hek ▸ List.mem_map_of_mem he)
  show (m.insert k v).entries.map _ = _
  rw [entries_insert_of_get?_eq_none h, entries_insert_of_get?_eq_none h, List.map_append,
    List.map_congr_left hk, List.map_id', List.map_singleton, if_pos rfl]

/-- A change under the last key is seen in the last pair. -/
theorem entries_adjust_concat {m : OrderedMap κ ν} {front : List (κ × ν)} {k : κ} {v : ν}
    (h : m.entries = front ++ [(k, v)]) (f : ν → ν) :
    (m.adjust k f).entries = front ++ [(k, f v)] := by
  have hnodup := m.nodup
  rw [h, List.map_append, List.map_singleton, List.nodup_append] at hnodup
  have hk : ∀ e ∈ front, (if e.1 = k then (e.1, f e.2) else e) = e := fun e he =>
    if_neg (hnodup.2.2 e.1 (List.mem_map_of_mem he) k (List.mem_singleton_self k))
  show m.entries.map _ = _
  rw [h, List.map_append, List.map_congr_left hk, List.map_id', List.map_singleton, if_pos rfl]

/-- A value for a key that is there takes the place of the old one. -/
theorem insert_eq_adjust {m : OrderedMap κ ν} {k : κ} {v : ν} (h : m.get? k = some v) (w : ν) :
    m.insert k w = m.adjust k fun _ => w := by
  unfold insert
  exact dif_pos (mem_keys_iff.2 ⟨v, h⟩)

/-- Taking a key out leaves the other keys in their order. -/
theorem keys_erase (m : OrderedMap κ ν) (k : κ) : (m.erase k).keys = m.keys.erase k := by
  have hnd : m.keys.Nodup := m.nodup
  rw [hnd.erase_eq_filter]
  unfold keys erase
  rw [List.filter_map]
  congr 1
  refine List.filter_congr fun e _ => ?_
  by_cases he : e.1 = k
  · simp [he]
  · simp [he]

/-- Taking out a key that is not there does nothing. -/
theorem erase_eq_self {m : OrderedMap κ ν} {k : κ} (h : m.get? k = none) : m.erase k = m := by
  apply OrderedMap.ext
  have hk : ∀ e ∈ m.entries, e.1 ≠ k := fun e he hek =>
    get?_eq_none_iff.1 h (hek ▸ List.mem_map_of_mem he)
  show m.entries.filter _ = m.entries
  simpa using hk

/-- Taking a new key out again undoes its insertion. -/
theorem erase_insert {m : OrderedMap κ ν} {k : κ} (h : m.get? k = none) (v : ν) :
    (m.insert k v).erase k = m := by
  have hrest : m.entries.filter (fun e => e.1 ≠ k) = m.entries :=
    congrArg entries (erase_eq_self h)
  apply OrderedMap.ext
  show (m.insert k v).entries.filter _ = m.entries
  rw [entries_insert_of_get?_eq_none h, List.filter_append, hrest]
  simp

/-- A new value comes behind all values. -/
theorem values_insert {m : OrderedMap κ ν} {k : κ} (h : m.get? k = none) (v : ν) :
    (m.insert k v).values = m.values ++ [v] := by
  unfold values
  rw [entries_insert_of_get?_eq_none h, List.map_append, List.map_singleton]

/-- A value that was put in is the new one or one of before. -/
theorem mem_values_insert {m : OrderedMap κ ν} {k : κ} {v w : ν}
    (hw : w ∈ (m.insert k v).values) : w = v ∨ w ∈ m.values := by
  obtain ⟨⟨j, w⟩, hmem, rfl⟩ := List.mem_map.1 hw
  have hget := get?_eq_some_iff.2 hmem
  rw [get?_insert] at hget
  split at hget
  next => exact .inl (Option.some_inj.1 hget).symm
  next => exact .inr (List.mem_map_of_mem (get?_eq_some_iff.1 hget))

/-- The values are the one under a key and those that stay when the key goes. -/
theorem perm_values_erase {m : OrderedMap κ ν} {k : κ} {v : ν} (h : m.get? k = some v) :
    m.values.Perm (v :: (m.erase k).values) := by
  classical
  have hmem := get?_eq_some_iff.1 h
  have hnd : m.entries.Nodup := List.Nodup.of_map Prod.fst m.nodup
  have herase : m.entries.erase (k, v) = (m.erase k).entries := by
    rw [hnd.erase_eq_filter]
    refine List.filter_congr fun e he => ?_
    by_cases hek : e.1 = k
    · have hev := snd_eq_of_mem_entries h he hek
      simp [show e = (k, v) from Prod.ext hek hev]
    · simp [hek, show e ≠ (k, v) from fun hkv => hek (by rw [hkv])]
  have hperm := (List.perm_cons_erase hmem).map Prod.snd
  rw [herase] at hperm
  exact hperm

/-! ## Sending all values through a function -/

section MapValues

variable {μ : Type}

omit [DecidableEq κ] in
/-- The map with the same keys in which every value is sent through a function. -/
def mapValues (f : ν → μ) (m : OrderedMap κ ν) : OrderedMap κ μ where
  entries := m.entries.map fun e => (e.1, f e.2)
  nodup := by
    rw [List.map_map]
    exact m.nodup

/-- The value under a key is sent through the function. -/
@[simp]
theorem get?_mapValues (f : ν → μ) (m : OrderedMap κ ν) (k : κ) :
    (m.mapValues f).get? k = (m.get? k).map f := by
  unfold get? mapValues
  dsimp only
  induction m.entries with
  | nil => rfl
  | cons e l ih =>
    rw [List.map_cons, lookup_cons_eq, lookup_cons_eq, ih]
    split <;> rfl

/-- The same keys are there. -/
@[simp]
theorem contains_mapValues (f : ν → μ) (m : OrderedMap κ ν) (k : κ) :
    (m.mapValues f).contains k = m.contains k := by
  rw [contains, get?_mapValues, Option.isSome_map, contains]

/-- A value is changed before or after it is sent through a function. -/
theorem mapValues_adjust {f : ν → μ} {g : ν → ν} {g' : μ → μ} (h : ∀ v, f (g v) = g' (f v))
    (m : OrderedMap κ ν) (k : κ) :
    (m.adjust k g).mapValues f = (m.mapValues f).adjust k g' := by
  apply OrderedMap.ext
  show (m.entries.map _).map _ = (m.entries.map _).map _
  rw [List.map_map, List.map_map]
  refine List.map_congr_left fun e _ => ?_
  dsimp only [Function.comp]
  split
  next => rw [h]
  next => rfl

/-- A value is put in before or after it is sent through a function. -/
theorem mapValues_insert (f : ν → μ) (m : OrderedMap κ ν) (k : κ) (v : ν) :
    (m.insert k v).mapValues f = (m.mapValues f).insert k (f v) := by
  cases hget : m.get? k with
  | none =>
    have hget' : (m.mapValues f).get? k = none := by rw [get?_mapValues, hget, Option.map_none]
    apply OrderedMap.ext
    show (m.insert k v).entries.map _ = _
    rw [entries_insert_of_get?_eq_none hget', entries_insert_of_get?_eq_none hget, List.map_append]
    rfl
  | some w =>
    have hget' : (m.mapValues f).get? k = some (f w) := by
      rw [get?_mapValues, hget, Option.map_some]
    rw [insert_eq_adjust hget, insert_eq_adjust hget']
    refine mapValues_adjust ?_ m k
    intro _
    rfl

end MapValues

/-! ## Amending -/

/-- Changes the value under a key, or takes the key out when nothing is left of the value. -/
def amend (m : OrderedMap κ ν) (k : κ) (f : ν → Option ν) : OrderedMap κ ν where
  entries := m.entries.filterMap fun e => if e.1 = k then (f e.2).map (e.1, ·) else some e
  nodup := by
    refine m.nodup.sublist ?_
    induction m.entries with
    | nil => simp
    | cons e l ih =>
      rw [List.filterMap_cons, List.map_cons]
      by_cases h : e.1 = k
      · cases hf : f e.2 with
        | none => simpa [h, hf] using ih.cons k
        | some v => simpa [h, hf] using ih.cons_cons k
      · simpa [h] using ih.cons_cons e.1

/-- An amendment is seen under its key only. -/
theorem get?_amend (m : OrderedMap κ ν) (k j : κ) (f : ν → Option ν) :
    (m.amend k f).get? j = if j = k then (m.get? j).bind f else m.get? j := by
  have hpairs : ∀ v, (m.amend k f).get? j = some v ↔
      (if j = k then (m.get? j).bind f else m.get? j) = some v := by
    intro v
    rw [get?_eq_some_iff]
    show (j, v) ∈ List.filterMap _ m.entries ↔ _
    rw [List.mem_filterMap]
    -- Only the pair of the key is changed; at another key the pair is the old one.
    by_cases hj : j = k
    · rw [if_pos hj, Option.bind_eq_some_iff]
      constructor
      · rintro ⟨e, he, h⟩
        by_cases hk : e.1 = k
        · rw [if_pos hk, Option.map_eq_some_iff] at h
          obtain ⟨w, hw, hjv⟩ := h
          obtain ⟨h1, h2⟩ := Prod.mk.inj hjv
          exact ⟨e.2, get?_eq_some_iff.2 (h1 ▸ he), h2 ▸ hw⟩
        · rw [if_neg hk, Option.some.injEq] at h
          exact absurd (by rw [h, hj]) hk
      · rintro ⟨w, hw, hf⟩
        exact ⟨(j, w), get?_eq_some_iff.1 hw, by simp [hj, hf]⟩
    · rw [if_neg hj, get?_eq_some_iff]
      constructor
      · rintro ⟨e, he, h⟩
        by_cases hk : e.1 = k
        · rw [if_pos hk, Option.map_eq_some_iff] at h
          obtain ⟨w, -, hjv⟩ := h
          exact absurd ((Prod.mk.inj hjv).1.symm.trans hk) hj
        · rw [if_neg hk, Option.some.injEq] at h
          exact h ▸ he
      · intro he
        exact ⟨(j, v), he, by simp [hj]⟩
  exact Option.ext hpairs

/-- Without the key an amendment changes nothing. -/
theorem amend_of_get?_eq_none {m : OrderedMap κ ν} {k : κ} (h : m.get? k = none)
    (f : ν → Option ν) : m.amend k f = m := by
  apply OrderedMap.ext
  show List.filterMap _ m.entries = m.entries
  have hk : ∀ e ∈ m.entries, (if e.1 = k then (f e.2).map (e.1, ·) else some e) = some e :=
    fun e he => if_neg fun hek : e.1 = k => get?_eq_none_iff.1 h (hek ▸ List.mem_map_of_mem he)
  rw [List.filterMap_congr hk, List.filterMap_some]

/-- When nothing is left of the value, the key goes. -/
theorem amend_eq_erase {m : OrderedMap κ ν} {k : κ} {v : ν} {f : ν → Option ν}
    (h : m.get? k = some v) (hf : f v = none) : m.amend k f = m.erase k := by
  apply OrderedMap.ext
  show List.filterMap _ m.entries = List.filter _ m.entries
  rw [← List.filterMap_eq_filter]
  refine List.filterMap_congr fun e he => ?_
  by_cases hek : e.1 = k
  · simp [hek, snd_eq_of_mem_entries h he hek, hf, Option.guard]
  · simp [hek, Option.guard]

/-- When something is left of the value, it takes the place of the value. -/
theorem amend_eq_insert {m : OrderedMap κ ν} {k : κ} {v w : ν} {f : ν → Option ν}
    (h : m.get? k = some v) (hf : f v = some w) : m.amend k f = m.insert k w := by
  rw [insert_eq_adjust h]
  apply OrderedMap.ext
  show List.filterMap _ m.entries = List.map _ m.entries
  rw [← List.filterMap_eq_map]
  refine List.filterMap_congr fun e he => ?_
  by_cases hek : e.1 = k
  · simp [hek, snd_eq_of_mem_entries h he hek, hf]
  · simp [hek]

/-- Amendments under one key run one after the other. -/
theorem amend_amend (m : OrderedMap κ ν) (k : κ) (f g : ν → Option ν) :
    (m.amend k f).amend k g = m.amend k fun v => (f v).bind g := by
  apply OrderedMap.ext
  show List.filterMap _ (List.filterMap _ m.entries) = List.filterMap _ m.entries
  rw [List.filterMap_filterMap]
  refine List.filterMap_congr fun e _ => ?_
  by_cases hek : e.1 = k
  · cases hf : f e.2 <;> simp [hek, hf]
  · simp [hek]

/-- Amendments commute, if those under one key commute on the values. -/
theorem amend_comm (m : OrderedMap κ ν) {k j : κ} {f g : ν → Option ν}
    (h : k = j → ∀ v, (f v).bind g = (g v).bind f) :
    (m.amend k f).amend j g = (m.amend j g).amend k f := by
  by_cases hkj : k = j
  · subst hkj
    rw [amend_amend, amend_amend]
    exact congrArg (m.amend k) (funext (h rfl))
  · apply OrderedMap.ext
    show List.filterMap _ (List.filterMap _ m.entries) =
      List.filterMap _ (List.filterMap _ m.entries)
    rw [List.filterMap_filterMap, List.filterMap_filterMap]
    refine List.filterMap_congr fun e _ => ?_
    by_cases hek : e.1 = k
    · cases hf : f e.2 <;> simp [hek, hkj, hf]
    · by_cases hej : e.1 = j
      · have hjk : ¬ j = k := fun h => hkj h.symm
        cases hg : g e.2 <;> simp [hej, hjk, hg]
      · simp [hek, hej]

/-- An amendment that takes back what `upsert` did to the value undoes it on the map. -/
theorem amend_upsert {m : OrderedMap κ ν} {k : κ} {start : ν} {f : ν → Option ν} {g : ν → ν}
    (hold : ∀ v, m.get? k = some v → f (g v) = some v)
    (hnew : m.get? k = none → f (g start) = none) : (m.upsert k start g).amend k f = m := by
  unfold upsert
  cases h : m.get? k with
  | none =>
    have hget : (m.insert k (g start)).get? k = some (g start) := by rw [get?_insert, if_pos rfl]
    rw [Option.getD_none, amend_eq_erase hget (hnew h), erase_insert h]
  | some v =>
    rw [Option.getD_some, insert_eq_adjust h]
    apply OrderedMap.ext
    show List.filterMap _ (List.map _ m.entries) = m.entries
    rw [List.filterMap_map]
    -- Every entry comes back as it was: the one under `k` by `hold`, and the others are not
    -- touched.
    have hsame : ∀ e ∈ m.entries, ((fun e => if e.1 = k then (f e.2).map (e.1, ·) else some e) ∘
        fun e => if e.1 = k then (e.1, g v) else e) e = some e := by
      intro e he
      by_cases hek : e.1 = k
      · simp only [Function.comp, if_pos hek, hold v h, Option.map_some]
        rw [← snd_eq_of_mem_entries h he hek]
      · simp [hek]
    rw [List.filterMap_congr hsame, List.filterMap_some]

/-! ## Values that shrink -/

/-- The change of a value by `g`, with nothing left when the result is empty. -/
def prunedBy (isEmpty : ν → Bool) (g : ν → ν) (v : ν) : Option ν :=
  if isEmpty (g v) then none else some (g v)

/-- Shrinking by one change and then by another is shrinking by both, if the second leaves empty
values empty. -/
theorem prunedBy_bind {isEmpty : ν → Bool} {g h : ν → ν}
    (hempty : ∀ v, isEmpty v = true → isEmpty (h v) = true) (v : ν) :
    (prunedBy isEmpty g v).bind (prunedBy isEmpty h) = prunedBy isEmpty (fun v => h (g v)) v := by
  unfold prunedBy
  by_cases hg : isEmpty (g v) = true
  · rw [if_pos hg, if_pos (hempty _ hg), Option.bind_none]
  · rw [if_neg hg, Option.bind_some]

/-- Changes the value under a key by `g`, and takes the key out when the result is empty. -/
def shrink (isEmpty : ν → Bool) (m : OrderedMap κ ν) (k : κ) (g : ν → ν) : OrderedMap κ ν :=
  m.amend k (prunedBy isEmpty g)

/-- Shrinking step by step: without the key nothing happens, else the key goes or the value is
replaced. -/
theorem shrink_eq_match (isEmpty : ν → Bool) (m : OrderedMap κ ν) (k : κ) (g : ν → ν) :
    m.shrink isEmpty k g = match m.get? k with
      | none => m
      | some v => if isEmpty (g v) then m.erase k else m.insert k (g v) := by
  unfold shrink
  cases h : m.get? k with
  | none => exact amend_of_get?_eq_none h _
  | some v =>
    dsimp only
    split
    next he => exact amend_eq_erase h (if_pos he)
    next he => exact amend_eq_insert h (if_neg he)

section Shrink

variable {isEmpty : ν → Bool} {m : OrderedMap κ ν} {start : ν} {f g h : ν → ν}

/-- Shrinking by changes that commute and leave empty values empty is possible in any order. -/
theorem shrink_comm (hg : ∀ v, isEmpty v = true → isEmpty (g v) = true)
    (hh : ∀ v, isEmpty v = true → isEmpty (h v) = true) (hcomm : ∀ v, h (g v) = g (h v))
    (k j : κ) :
    (m.shrink isEmpty k g).shrink isEmpty j h = (m.shrink isEmpty j h).shrink isEmpty k g := by
  refine amend_comm m fun _ v => ?_
  rw [prunedBy_bind hh, prunedBy_bind hg]
  exact congrArg (prunedBy isEmpty · v) (funext hcomm)

/-- Shrinking undoes an `upsert`, if it undoes it on the value, the value was not empty, and a
value that was new becomes empty. -/
theorem shrink_upsert {k : κ} (hold : ∀ v, m.get? k = some v → isEmpty v = false ∧ g (f v) = v)
    (hnew : isEmpty (g (f start)) = true) : (m.upsert k start f).shrink isEmpty k g = m := by
  refine amend_upsert (fun v hv => ?_) fun _ => if_pos hnew
  obtain ⟨hne, hgf⟩ := hold v hv
  unfold prunedBy
  rw [hgf, hne, if_neg Bool.false_ne_true]

/-- With a value for the keys that are not there, `upsert` changes the value of its key. -/
theorem getD_upsert (k j : κ) : ((m.upsert k start f).get? j).getD start =
    if j = k then f ((m.get? j).getD start) else (m.get? j).getD start := by
  unfold upsert
  rw [get?_insert]
  split
  next hj => rw [hj, Option.getD_some]
  next => rfl

/-- With the empty value for the keys that are not there, shrinking changes the value of its
key. -/
theorem getD_shrink (hempty : ∀ v, isEmpty v = true → v = start) (hg : g start = start)
    (k j : κ) : ((m.shrink isEmpty k g).get? j).getD start =
    if j = k then g ((m.get? j).getD start) else (m.get? j).getD start := by
  unfold shrink
  rw [get?_amend]
  split
  next =>
    cases m.get? j with
    | none => rw [Option.bind_none, Option.getD_none, hg]
    | some v =>
      rw [Option.bind_some, Option.getD_some]
      unfold prunedBy
      split
      next he => rw [Option.getD_none, hempty _ he]
      next => rw [Option.getD_some]
  next => rfl

/-- No value of the map is empty, and all have a property. -/
def Filled (isEmpty : ν → Bool) (P : ν → Prop) (m : OrderedMap κ ν) : Prop :=
  ∀ k v, m.get? k = some v → isEmpty v = false ∧ P v

/-- A change that fills values keeps the map filled. -/
theorem Filled.upsert {P : ν → Prop} (hm : m.Filled isEmpty P) (hstart : P start)
    (hf : ∀ v, P v → isEmpty (f v) = false ∧ P (f v)) (k : κ) :
    (m.upsert k start f).Filled isEmpty P := by
  intro j v hv
  unfold OrderedMap.upsert at hv
  rw [get?_insert] at hv
  split at hv
  next =>
    rw [← Option.some.inj hv]
    apply hf
    cases hk : m.get? k with
    | none => exact hstart
    | some w => exact (hm k w hk).2
  next => exact hm j v hv

/-- Shrinking keeps the map filled. -/
theorem Filled.shrink {P : ν → Prop} (hm : m.Filled isEmpty P) (hg : ∀ v, P v → P (g v)) (k : κ) :
    (m.shrink isEmpty k g).Filled isEmpty P := by
  intro j v hv
  unfold OrderedMap.shrink at hv
  rw [get?_amend] at hv
  split at hv
  next =>
    obtain ⟨w, hw, hp⟩ := Option.bind_eq_some_iff.1 hv
    unfold prunedBy at hp
    split at hp
    next => exact absurd hp (Option.some_ne_none v).symm
    next he =>
      rw [← Option.some.inj hp]
      exact ⟨Bool.eq_false_iff.2 he, hg w (hm j w hw).2⟩
  next => exact hm j v hv

end Shrink

end OrderedMap

namespace OrderedSet

variable {α : Type} [DecidableEq α]

omit [DecidableEq α] in
/-- A set is empty exactly if it is the empty set. -/
theorem isEmpty_eq_true_iff {s : OrderedSet α} : s.isEmpty = true ↔ s = ∅ := by
  constructor
  · intro h
    exact OrderedSet.ext (List.isEmpty_iff.1 h)
  · rintro rfl
    rfl

omit [DecidableEq α] in
/-- A set is not empty exactly if it has an element. -/
theorem isEmpty_eq_false_iff {s : OrderedSet α} : s.isEmpty = false ↔ ∃ a, a ∈ s :=
  List.isEmpty_eq_false_iff_exists_mem

/-- A new element comes behind all others. -/
theorem elements_insert {s : OrderedSet α} {a : α} (h : a ∉ s) :
    (s.insert a).elements = s.elements ++ [a] := by
  have ha : a ∉ s.elements := h
  unfold insert
  rw [dif_neg ha]

/-- Taking a new element out again undoes its insertion. -/
theorem erase_insert {s : OrderedSet α} {a : α} (h : a ∉ s) : (s.insert a).erase a = s := by
  apply OrderedSet.ext
  have ha : ∀ b ∈ s.elements, b ≠ a := fun b hb hba => h (hba ▸ hb)
  show (s.insert a).elements.filter _ = s.elements
  rw [elements_insert h, List.filter_append]
  simpa using ha

/-- Elements are taken out in any order. -/
theorem erase_comm (s : OrderedSet α) (a b : α) : (s.erase a).erase b = (s.erase b).erase a := by
  apply OrderedSet.ext
  show List.filter _ (List.filter _ s.elements) = List.filter _ (List.filter _ s.elements)
  rw [List.filter_filter, List.filter_filter]
  exact List.filter_congr fun c _ => Bool.and_comm _ _

end OrderedSet

end LayoutMarkup
