import LayoutMarkup.Index.Reference
import LayoutMarkup.Proofs.OrderedMap
import Mathlib.Data.List.Induction

/-!
# Registering and taking back

The tables of references hold every registration until it is taken back. Each table has three
statements here. Taking back what was registered last restores the table with the order of its keys
(`release_acquire`, `remove_add`). The order in which registrations are taken back does not matter
(`release_comm`, `remove_comm`). So a list of them may be taken back from its front, and that
restores the table too (`releaseAll_acquireAll`, `removeAll_addAll`). And the number of
registrations, or the membership of a declaration, goes up and down by one (`count_acquire`,
`count_release`, `mem_declared_add`, `mem_declared_remove`).

The tables nest: a table is an ordered map whose values are tables of the next kind, and a key goes
with the last registration under it. The statements on `OrderedMap.shrink` carry each of the three
from one kind to the next.
-/

namespace LayoutMarkup

/-- What was put in one after another can be taken back in the same order: taking back commutes, so
that it may as well begin with what came last. -/
theorem foldl_takeBack {τ α : Type} {put take : τ → α → τ} {t : τ} {l : List α}
    (hcomm : ∀ t a b, take (take t a) b = take (take t b) a)
    (hback : ∀ front a back, l = front ++ a :: back →
      take (put (front.foldl put t) a) a = front.foldl put t) :
    l.foldl take (l.foldl put t) = t := by
  induction l using List.reverseRecOn with
  | nil => rfl
  | append_singleton l a ih =>
    have hperm : (l ++ [a]).Perm (a :: l) := List.perm_append_singleton a l
    rw [hperm.foldl_eq' fun x _ y _ z => hcomm z x y, List.foldl_append, List.foldl_cons,
      List.foldl_cons, List.foldl_nil, hback l a [] rfl]
    refine ih fun front b back hl => hback front b (back ++ [a]) ?_
    rw [hl]
    simp

/-! ## Entries under one key -/

namespace Referrers

/-- Every entry that is there is registered at least once. -/
def Proper (r : Referrers) : Prop :=
  ∀ id count, r.get? id = some count → 0 < count

/-- How often an entry is registered. -/
def count (r : Referrers) (id : EntryId) : Nat :=
  (r.get? id).getD 0

/-- What one release leaves of a count. -/
def countDown (count : Nat) : Option Nat :=
  if count ≤ 1 then none else some (count - 1)

/-- A release is an amendment of the count. -/
theorem release_eq_amend (r : Referrers) (id : EntryId) : r.release id = r.amend id countDown := by
  unfold release
  cases h : r.get? id with
  | none => exact (OrderedMap.amend_of_get?_eq_none h _).symm
  | some count =>
    dsimp only
    split
    next hc => exact (OrderedMap.amend_eq_erase h (if_pos hc)).symm
    next hc => exact (OrderedMap.amend_eq_insert h (if_neg hc)).symm

/-- Registrations are taken back in any order. -/
theorem release_comm (r : Referrers) (a b : EntryId) :
    (r.release a).release b = (r.release b).release a := by
  simp only [release_eq_amend]
  exact OrderedMap.amend_comm r fun _ _ => rfl

/-- Taking the last registration back restores what was there. -/
theorem release_acquire {r : Referrers} (hr : r.Proper) (id : EntryId) :
    (r.acquire id).release id = r := by
  rw [release_eq_amend]
  refine OrderedMap.amend_upsert (fun count hc => ?_) fun _ => rfl
  have hpos := hr id count hc
  exact if_neg (by omega)

/-- A registration counts one entry up. -/
theorem count_acquire (r : Referrers) (id j : EntryId) :
    (r.acquire id).count j = r.count j + if j = id then 1 else 0 := by
  unfold count acquire
  rw [OrderedMap.getD_upsert]
  split <;> rfl

/-- A release counts one entry down. -/
theorem count_release (r : Referrers) (id j : EntryId) :
    (r.release id).count j = r.count j - if j = id then 1 else 0 := by
  unfold count
  rw [release_eq_amend, OrderedMap.get?_amend]
  split
  next =>
    cases r.get? j with
    | none => rfl
    | some count =>
      rw [Option.bind_some, Option.getD_some]
      unfold countDown
      split
      next hc => rw [Option.getD_none]; omega
      next => rfl
  next => rfl

/-- A registration keeps all counts above zero. -/
theorem Proper.acquire {r : Referrers} (hr : r.Proper) (id : EntryId) : (r.acquire id).Proper := by
  intro j count hc
  unfold Referrers.acquire OrderedMap.upsert at hc
  rw [OrderedMap.get?_insert] at hc
  split at hc
  next => rw [← Option.some.inj hc]; exact Nat.succ_pos _
  next => exact hr j count hc

/-- A release keeps all counts above zero. -/
theorem Proper.release {r : Referrers} (hr : r.Proper) (id : EntryId) : (r.release id).Proper := by
  intro j count hc
  rw [release_eq_amend, OrderedMap.get?_amend] at hc
  split at hc
  next =>
    obtain ⟨old, -, hd⟩ := Option.bind_eq_some_iff.1 hc
    unfold countDown at hd
    split at hd
    next => exact absurd hd (Option.some_ne_none count).symm
    next hold => rw [← Option.some.inj hd]; omega
  next => exact hr j count hc

/-- Nothing is registered in the empty collection. -/
theorem proper_empty : Referrers.Proper ∅ := by
  intro id count h
  exact absurd h (Option.some_ne_none count).symm

/-- After a registration there is something. -/
theorem isEmpty_acquire (r : Referrers) (id : EntryId) : (r.acquire id).isEmpty = false := by
  rw [Bool.eq_false_iff]
  intro h
  have hcount := count_acquire r id id
  rw [OrderedMap.isEmpty_eq_true_iff.1 h, if_pos rfl] at hcount
  exact Nat.succ_ne_zero _ hcount.symm

/-- From nothing a release takes nothing. -/
theorem isEmpty_release {r : Referrers} (h : r.isEmpty = true) (id : EntryId) :
    (r.release id).isEmpty = true := by
  rw [OrderedMap.isEmpty_eq_true_iff.1 h]
  rfl

/-- An entry is there exactly if it is registered at least once. -/
theorem mem_keys_iff {r : Referrers} (hr : r.Proper) {id : EntryId} :
    id ∈ r.keys ↔ 0 < r.count id := by
  rw [OrderedMap.mem_keys_iff]
  unfold count
  cases h : r.get? id with
  | none => simp
  | some count => simp [hr id count h]

end Referrers

/-! ## Keys -/

namespace ReferrerTable

/-- Every key has entries, and each of them is registered at least once. -/
def Proper (t : ReferrerTable) : Prop :=
  t.Filled OrderedMap.isEmpty Referrers.Proper

/-- The entries under a key, none for a key that is not there. -/
def under (t : ReferrerTable) (key : String) : Referrers :=
  (t.get? key).getD ∅

/-- How often an entry is registered under a key. -/
def count (t : ReferrerTable) (key : String) (id : EntryId) : Nat :=
  (t.under key).count id

/-- A release shrinks the entries under the key. -/
theorem release_eq_shrink (t : ReferrerTable) (key : String) (id : EntryId) :
    t.release key id = t.shrink OrderedMap.isEmpty key (Referrers.release · id) := by
  rw [OrderedMap.shrink_eq_match]
  unfold release
  cases OrderedMap.get? t key <;> rfl

/-- Registrations are taken back in any order. -/
theorem release_comm (t : ReferrerTable) (key key' : String) (id id' : EntryId) :
    (t.release key id).release key' id' = (t.release key' id').release key id := by
  simp only [release_eq_shrink]
  exact OrderedMap.shrink_comm (fun _ h => Referrers.isEmpty_release h id)
    (fun _ h => Referrers.isEmpty_release h id') (fun r => Referrers.release_comm r id id') key key'

/-- Taking the last registration back restores the table. -/
theorem release_acquire {t : ReferrerTable} (ht : t.Proper) (key : String) (id : EntryId) :
    (t.acquire key id).release key id = t := by
  rw [release_eq_shrink]
  refine OrderedMap.shrink_upsert (fun r hr => ?_) ?_
  · exact ⟨(ht key r hr).1, Referrers.release_acquire (ht key r hr).2 id⟩
  · show ((Referrers.acquire ∅ id).release id).isEmpty = true
    rw [Referrers.release_acquire Referrers.proper_empty]
    rfl

/-- A registration keeps the table proper. -/
theorem Proper.acquire {t : ReferrerTable} (ht : t.Proper) (key : String) (id : EntryId) :
    (t.acquire key id).Proper :=
  OrderedMap.Filled.upsert ht Referrers.proper_empty
    (fun r hr => ⟨Referrers.isEmpty_acquire r id, hr.acquire id⟩) key

/-- A release keeps the table proper. -/
theorem Proper.release {t : ReferrerTable} (ht : t.Proper) (key : String) (id : EntryId) :
    (t.release key id).Proper := by
  rw [release_eq_shrink]
  exact OrderedMap.Filled.shrink ht (fun _ hr => hr.release id) key

/-- The table without keys is proper. -/
theorem proper_empty : ReferrerTable.Proper ∅ := by
  intro key r h
  exact absurd h (Option.some_ne_none r).symm

/-- An entry is among those under a key exactly if it is registered there at least once. -/
theorem Proper.exists_mem_keys_iff {t : ReferrerTable} (ht : t.Proper) {key : String}
    {id : EntryId} : (∃ r, t.get? key = some r ∧ id ∈ r.keys) ↔ 0 < t.count key id := by
  unfold count under
  cases h : t.get? key with
  | none => simp [Referrers.count, show (∅ : Referrers).get? id = none from rfl]
  | some r => simp [Referrers.mem_keys_iff (ht key r h).2]

/-- A registration counts up under its key. -/
theorem count_acquire (t : ReferrerTable) (key key' : String) (id id' : EntryId) :
    (t.acquire key id).count key' id' =
      t.count key' id' + if (key', id') = (key, id) then 1 else 0 := by
  unfold count under acquire
  rw [OrderedMap.getD_upsert]
  by_cases hkey : key' = key
  · rw [if_pos hkey, Referrers.count_acquire]
    simp [hkey]
  · rw [if_neg hkey]
    simp [hkey]

/-- A release counts down under its key. -/
theorem count_release (t : ReferrerTable) (key key' : String) (id id' : EntryId) :
    (t.release key id).count key' id' =
      t.count key' id' - if (key', id') = (key, id) then 1 else 0 := by
  unfold count under
  rw [release_eq_shrink,
    OrderedMap.getD_shrink (fun _ h => OrderedMap.isEmpty_eq_true_iff.1 h) rfl]
  by_cases hkey : key' = key
  · rw [if_pos hkey, Referrers.count_release]
    simp [hkey]
  · rw [if_neg hkey]
    simp [hkey]

/-- After a registration there is a key. -/
theorem isEmpty_acquire (t : ReferrerTable) (key : String) (id : EntryId) :
    (t.acquire key id).isEmpty = false := by
  rw [Bool.eq_false_iff]
  intro h
  have hcount := count_acquire t key key id id
  rw [OrderedMap.isEmpty_eq_true_iff.1 h, if_pos rfl] at hcount
  exact Nat.succ_ne_zero _ hcount.symm

/-- Without keys a release takes nothing. -/
theorem isEmpty_release {t : ReferrerTable} (h : t.isEmpty = true) (key : String) (id : EntryId) :
    (t.release key id).isEmpty = true := by
  rw [OrderedMap.isEmpty_eq_true_iff.1 h]
  rfl

/-- Registers entries one after another. -/
def acquireAll (t : ReferrerTable) (l : List (String × EntryId)) : ReferrerTable :=
  l.foldl (fun t (key, id) => t.acquire key id) t

/-- Takes registrations back one after another. -/
def releaseAll (t : ReferrerTable) (l : List (String × EntryId)) : ReferrerTable :=
  l.foldl (fun t (key, id) => t.release key id) t

/-- Registrations keep the table proper. -/
theorem Proper.acquireAll {t : ReferrerTable} (ht : t.Proper) (l : List (String × EntryId)) :
    (t.acquireAll l).Proper :=
  List.foldlRecOn l _ ht fun _ h (key, id) _ => h.acquire key id

/-- Releases keep the table proper. -/
theorem Proper.releaseAll {t : ReferrerTable} (ht : t.Proper) (l : List (String × EntryId)) :
    (t.releaseAll l).Proper :=
  List.foldlRecOn l _ ht fun _ h (key, id) _ => h.release key id

/-- Taking registrations back in their order restores the table. -/
theorem releaseAll_acquireAll {t : ReferrerTable} (ht : t.Proper) (l : List (String × EntryId)) :
    (t.acquireAll l).releaseAll l = t :=
  foldl_takeBack (fun t a b => release_comm t a.1 b.1 a.2 b.2)
    fun front a _ _ => release_acquire (ht.acquireAll front) a.1 a.2

/-- Registrations are counted. -/
theorem count_acquireAll (t : ReferrerTable) (l : List (String × EntryId)) (key : String)
    (id : EntryId) : (t.acquireAll l).count key id = t.count key id + l.count (key, id) := by
  induction l generalizing t with
  | nil => rfl
  | cons x l ih =>
    show ((t.acquire x.1 x.2).acquireAll l).count key id = _
    rw [ih, count_acquire, List.count_cons]
    grind

/-- Releases are counted. -/
theorem count_releaseAll (t : ReferrerTable) (l : List (String × EntryId)) (key : String)
    (id : EntryId) : (t.releaseAll l).count key id = t.count key id - l.count (key, id) := by
  induction l generalizing t with
  | nil => rfl
  | cons x l ih =>
    show ((t.release x.1 x.2).releaseAll l).count key id = _
    rw [ih, count_release, List.count_cons]
    grind

end ReferrerTable

/-! ## Files and names in them -/

namespace ExtensionTable

/-- Every file has names, each with entries that are registered at least once. -/
def Proper (t : ExtensionTable) : Prop :=
  t.Filled OrderedMap.isEmpty ReferrerTable.Proper

/-- The names in a file, none for a file that is not there. -/
def under (t : ExtensionTable) (file : String) : ReferrerTable :=
  (t.get? file).getD ∅

/-- How often an entry is registered as an extension of a name in a file. -/
def count (t : ExtensionTable) (file relative : String) (id : EntryId) : Nat :=
  (t.under file).count relative id

/-- A release shrinks the names in the file. -/
theorem release_eq_shrink (t : ExtensionTable) (file relative : String) (id : EntryId) :
    t.release file relative id =
      t.shrink OrderedMap.isEmpty file (ReferrerTable.release · relative id) := by
  rw [OrderedMap.shrink_eq_match]
  unfold release
  cases OrderedMap.get? t file <;> rfl

/-- Registrations are taken back in any order. -/
theorem release_comm (t : ExtensionTable) (file file' relative relative' : String)
    (id id' : EntryId) :
    (t.release file relative id).release file' relative' id' =
      (t.release file' relative' id').release file relative id := by
  simp only [release_eq_shrink]
  exact OrderedMap.shrink_comm (fun _ h => ReferrerTable.isEmpty_release h relative id)
    (fun _ h => ReferrerTable.isEmpty_release h relative' id')
    (fun names => ReferrerTable.release_comm names relative relative' id id') file file'

/-- Taking the last registration back restores the table. -/
theorem release_acquire {t : ExtensionTable} (ht : t.Proper) (file relative : String)
    (id : EntryId) : (t.acquire file relative id).release file relative id = t := by
  rw [release_eq_shrink]
  refine OrderedMap.shrink_upsert (fun names hn => ?_) ?_
  · exact ⟨(ht file names hn).1, ReferrerTable.release_acquire (ht file names hn).2 relative id⟩
  · show ((ReferrerTable.acquire ∅ relative id).release relative id).isEmpty = true
    rw [ReferrerTable.release_acquire ReferrerTable.proper_empty]
    rfl

/-- A registration keeps the table proper. -/
theorem Proper.acquire {t : ExtensionTable} (ht : t.Proper) (file relative : String)
    (id : EntryId) : (t.acquire file relative id).Proper :=
  OrderedMap.Filled.upsert ht ReferrerTable.proper_empty
    (fun names hn => ⟨ReferrerTable.isEmpty_acquire names relative id, hn.acquire relative id⟩) file

/-- A release keeps the table proper. -/
theorem Proper.release {t : ExtensionTable} (ht : t.Proper) (file relative : String)
    (id : EntryId) : (t.release file relative id).Proper := by
  rw [release_eq_shrink]
  exact OrderedMap.Filled.shrink ht (fun _ hn => hn.release relative id) file

/-- The table without files is proper. -/
theorem proper_empty : ExtensionTable.Proper ∅ := by
  intro file names h
  exact absurd h (Option.some_ne_none names).symm

/-- An entry is among those that extend a name exactly if it is registered at least once. -/
theorem Proper.exists_mem_keys_iff {t : ExtensionTable} (ht : t.Proper) {file relative : String}
    {id : EntryId} :
    (∃ r, t.referrers? file relative = some r ∧ id ∈ r.keys) ↔ 0 < t.count file relative id := by
  unfold count under referrers?
  cases h : t.get? file with
  | none => simp [ReferrerTable.count, ReferrerTable.under, Referrers.count,
      show (∅ : ReferrerTable).get? relative = none from rfl,
      show (∅ : Referrers).get? id = none from rfl]
  | some names =>
    rw [Option.bind_some, Option.getD_some]
    exact (ht file names h).2.exists_mem_keys_iff

/-- A registration counts up under its file and name. -/
theorem count_acquire (t : ExtensionTable) (file file' relative relative' : String)
    (id id' : EntryId) :
    (t.acquire file relative id).count file' relative' id' =
      t.count file' relative' id' +
        if (file', relative', id') = (file, relative, id) then 1 else 0 := by
  unfold count under acquire
  rw [OrderedMap.getD_upsert]
  by_cases hfile : file' = file
  · rw [if_pos hfile, ReferrerTable.count_acquire]
    simp [hfile]
  · rw [if_neg hfile]
    simp [hfile]

/-- A release counts down under its file and name. -/
theorem count_release (t : ExtensionTable) (file file' relative relative' : String)
    (id id' : EntryId) :
    (t.release file relative id).count file' relative' id' =
      t.count file' relative' id' -
        if (file', relative', id') = (file, relative, id) then 1 else 0 := by
  unfold count under
  rw [release_eq_shrink,
    OrderedMap.getD_shrink (fun _ h => OrderedMap.isEmpty_eq_true_iff.1 h) rfl]
  by_cases hfile : file' = file
  · rw [if_pos hfile, ReferrerTable.count_release]
    simp [hfile]
  · rw [if_neg hfile]
    simp [hfile]

/-- Registers extensions one after another. -/
def acquireAll (t : ExtensionTable) (l : List (String × String × EntryId)) : ExtensionTable :=
  l.foldl (fun t (file, relative, id) => t.acquire file relative id) t

/-- Takes registrations back one after another. -/
def releaseAll (t : ExtensionTable) (l : List (String × String × EntryId)) : ExtensionTable :=
  l.foldl (fun t (file, relative, id) => t.release file relative id) t

/-- Registrations keep the table proper. -/
theorem Proper.acquireAll {t : ExtensionTable} (ht : t.Proper)
    (l : List (String × String × EntryId)) : (t.acquireAll l).Proper :=
  List.foldlRecOn l _ ht fun _ h (file, relative, id) _ => h.acquire file relative id

/-- Releases keep the table proper. -/
theorem Proper.releaseAll {t : ExtensionTable} (ht : t.Proper)
    (l : List (String × String × EntryId)) : (t.releaseAll l).Proper :=
  List.foldlRecOn l _ ht fun _ h (file, relative, id) _ => h.release file relative id

/-- Taking registrations back in their order restores the table. -/
theorem releaseAll_acquireAll {t : ExtensionTable} (ht : t.Proper)
    (l : List (String × String × EntryId)) : (t.acquireAll l).releaseAll l = t :=
  foldl_takeBack (fun t a b => release_comm t a.1 b.1 a.2.1 b.2.1 a.2.2 b.2.2)
    fun front a _ _ => release_acquire (ht.acquireAll front) a.1 a.2.1 a.2.2

/-- Registrations are counted. -/
theorem count_acquireAll (t : ExtensionTable) (l : List (String × String × EntryId))
    (file relative : String) (id : EntryId) :
    (t.acquireAll l).count file relative id =
      t.count file relative id + l.count (file, relative, id) := by
  induction l generalizing t with
  | nil => rfl
  | cons x l ih =>
    show ((t.acquire x.1 x.2.1 x.2.2).acquireAll l).count file relative id = _
    rw [ih, count_acquire, List.count_cons]
    grind

/-- Releases are counted. -/
theorem count_releaseAll (t : ExtensionTable) (l : List (String × String × EntryId))
    (file relative : String) (id : EntryId) :
    (t.releaseAll l).count file relative id =
      t.count file relative id - l.count (file, relative, id) := by
  induction l generalizing t with
  | nil => rfl
  | cons x l ih =>
    show ((t.release x.1 x.2.1 x.2.2).releaseAll l).count file relative id = _
    rw [ih, count_release, List.count_cons]
    grind

end ExtensionTable

/-! ## Names of constants and handles -/

namespace CrossReferences

/-- Every name that is there is declared. -/
def Proper (t : CrossReferences) : Prop :=
  t.Filled OrderedSet.isEmpty fun _ => True

/-- The declarations of a name, none for a name that is not there. -/
def declared (t : CrossReferences) (name : String) : OrderedSet Declaration :=
  (t.get? name).getD ∅

/-- Taking a declaration out shrinks the declarations of the name. -/
theorem remove_eq_shrink (t : CrossReferences) (name : String) (d : Declaration) :
    t.remove name d = t.shrink OrderedSet.isEmpty name (OrderedSet.erase · d) := by
  rw [OrderedMap.shrink_eq_match]
  unfold remove
  cases OrderedMap.get? t name <;> rfl

/-- An empty set stays empty. -/
theorem isEmpty_erase {s : OrderedSet Declaration} (h : s.isEmpty = true) (d : Declaration) :
    (s.erase d).isEmpty = true := by
  rw [OrderedSet.isEmpty_eq_true_iff.1 h]
  rfl

/-- Declarations are taken out in any order. -/
theorem remove_comm (t : CrossReferences) (name name' : String) (d d' : Declaration) :
    (t.remove name d).remove name' d' = (t.remove name' d').remove name d := by
  simp only [remove_eq_shrink]
  exact OrderedMap.shrink_comm (fun _ h => isEmpty_erase h d) (fun _ h => isEmpty_erase h d')
    (fun s => OrderedSet.erase_comm s d d') name name'

/-- Taking a new declaration out again restores the table. -/
theorem remove_add {t : CrossReferences} (ht : t.Proper) {name : String} {d : Declaration}
    (hd : d ∉ t.declared name) : (t.add name d).remove name d = t := by
  rw [remove_eq_shrink]
  refine OrderedMap.shrink_upsert (fun s hs => ⟨(ht name s hs).1, ?_⟩) ?_
  · apply OrderedSet.erase_insert
    unfold declared at hd
    rwa [hs] at hd
  · rw [OrderedSet.erase_insert List.not_mem_nil]
    rfl

/-- A set with an element that was added is not empty. -/
theorem isEmpty_insert (s : OrderedSet Declaration) (d : Declaration) :
    (s.insert d).isEmpty = false :=
  OrderedSet.isEmpty_eq_false_iff.2 ⟨d, OrderedSet.mem_insert.2 (Or.inr rfl)⟩

/-- Adding a declaration keeps the table proper. -/
theorem Proper.add {t : CrossReferences} (ht : t.Proper) (name : String) (d : Declaration) :
    (t.add name d).Proper :=
  OrderedMap.Filled.upsert ht trivial (fun s _ => ⟨isEmpty_insert s d, trivial⟩) name

/-- Taking a declaration out keeps the table proper. -/
theorem Proper.remove {t : CrossReferences} (ht : t.Proper) (name : String) (d : Declaration) :
    (t.remove name d).Proper := by
  rw [remove_eq_shrink]
  exact OrderedMap.Filled.shrink ht (fun _ _ => trivial) name

/-- The table without names is proper. -/
theorem proper_empty : CrossReferences.Proper ∅ := by
  intro name s h
  exact absurd h (Option.some_ne_none s).symm

/-- A name is there with its declarations exactly if it has any. -/
theorem Proper.get?_eq_some_iff {t : CrossReferences} (ht : t.Proper) {name : String}
    {s : OrderedSet Declaration} :
    t.get? name = some s ↔ t.declared name = s ∧ ∃ d, d ∈ t.declared name := by
  unfold declared
  cases h : t.get? name with
  | none =>
    have hempty : ∀ d, d ∉ (∅ : OrderedSet Declaration) := fun _ => List.not_mem_nil
    simp [hempty]
  | some s' =>
    have hne := OrderedSet.isEmpty_eq_false_iff.1 (ht name s' h).1
    simp [hne]

/-- The declarations of a name after one was added. -/
theorem mem_declared_add {t : CrossReferences} {name name' : String} {d d' : Declaration} :
    d' ∈ (t.add name d).declared name' ↔ d' ∈ t.declared name' ∨ (name', d') = (name, d) := by
  unfold declared add
  rw [OrderedMap.getD_upsert]
  by_cases hname : name' = name
  · rw [if_pos hname, OrderedSet.mem_insert]
    simp [hname]
  · rw [if_neg hname]
    simp [hname]

/-- The declarations of a name after one was taken out. -/
theorem mem_declared_remove {t : CrossReferences} {name name' : String} {d d' : Declaration} :
    d' ∈ (t.remove name d).declared name' ↔ d' ∈ t.declared name' ∧ (name', d') ≠ (name, d) := by
  unfold declared
  rw [remove_eq_shrink,
    OrderedMap.getD_shrink (fun _ h => OrderedSet.isEmpty_eq_true_iff.1 h) rfl]
  by_cases hname : name' = name
  · rw [if_pos hname, OrderedSet.mem_erase]
    simp [hname]
  · rw [if_neg hname]
    simp [hname]

/-- Adds declarations of a document one after another. -/
def addAll (t : CrossReferences) (doc : DocumentId) (l : List (String × ElementId)) :
    CrossReferences :=
  l.foldl (fun t (name, e) => t.add name ⟨doc, e⟩) t

/-- Takes declarations of a document out one after another. -/
def removeAll (t : CrossReferences) (doc : DocumentId) (l : List (String × ElementId)) :
    CrossReferences :=
  l.foldl (fun t (name, e) => t.remove name ⟨doc, e⟩) t

/-- Added declarations keep the table proper. -/
theorem Proper.addAll {t : CrossReferences} (ht : t.Proper) (doc : DocumentId)
    (l : List (String × ElementId)) : (t.addAll doc l).Proper :=
  List.foldlRecOn l _ ht fun _ h (name, e) _ => h.add name ⟨doc, e⟩

/-- Removed declarations keep the table proper. -/
theorem Proper.removeAll {t : CrossReferences} (ht : t.Proper) (doc : DocumentId)
    (l : List (String × ElementId)) : (t.removeAll doc l).Proper :=
  List.foldlRecOn l _ ht fun _ h (name, e) _ => h.remove name ⟨doc, e⟩

/-- The declarations of a name after those of a document were added. -/
theorem mem_declared_addAll {t : CrossReferences} {doc : DocumentId} {l : List (String × ElementId)}
    {name : String} {d : Declaration} : d ∈ (t.addAll doc l).declared name ↔
      d ∈ t.declared name ∨ d.document = doc ∧ (name, d.element) ∈ l := by
  induction l generalizing t with
  | nil => simp [addAll]
  | cons x l ih =>
    show d ∈ ((t.add x.1 ⟨doc, x.2⟩).addAll doc l).declared name ↔ _
    rw [ih, mem_declared_add, List.mem_cons]
    obtain ⟨doc', element⟩ := d
    grind

/-- The declarations of a name after those of a document were taken out. -/
theorem mem_declared_removeAll {t : CrossReferences} {doc : DocumentId}
    {l : List (String × ElementId)} {name : String} {d : Declaration} :
    d ∈ (t.removeAll doc l).declared name ↔
      d ∈ t.declared name ∧ ¬ (d.document = doc ∧ (name, d.element) ∈ l) := by
  induction l generalizing t with
  | nil => simp [removeAll]
  | cons x l ih =>
    show d ∈ ((t.remove x.1 ⟨doc, x.2⟩).removeAll doc l).declared name ↔ _
    rw [ih, mem_declared_remove, List.mem_cons]
    obtain ⟨doc', element⟩ := d
    grind

/-- Taking the declarations of a document out in their order restores the table, if the document had
none before and none came twice. -/
theorem removeAll_addAll {t : CrossReferences} (ht : t.Proper) {doc : DocumentId}
    (hnew : ∀ name d, d ∈ t.declared name → d.document ≠ doc) {l : List (String × ElementId)}
    (hl : l.Nodup) : (t.addAll doc l).removeAll doc l = t := by
  refine foldl_takeBack (fun t a b => remove_comm t a.1 b.1 _ _) fun front a back hsplit => ?_
  refine remove_add (ht.addAll doc front) fun hmem => ?_
  rcases mem_declared_addAll.1 hmem with hold | ⟨-, hfront⟩
  · exact hnew _ _ hold rfl
  · rw [hsplit] at hl
    exact (List.nodup_append.1 hl).2.2 _ hfront _ List.mem_cons_self rfl

end CrossReferences

end LayoutMarkup
