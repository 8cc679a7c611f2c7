import LayoutMarkup.Proofs.Index.History
import Mathlib.Logic.Function.Iterate

/-!
# The arena of entries

An index keeps one tree in four ways: in the slots, in the list of free ones, in the scopes that
entries know, and in the names that scopes hold. After every history the four agree (`arena_run`).
The slots that are not free are those of the tree, a name leads from a scope to an entry exactly if
the entry knows the scope and the name, and going up from scope to scope ends at the root. So a path
belongs to one entry and leads to it, and so does its text, as long as the names in it can be told
apart again (`Name.splitPath_joinPath`).
-/

namespace LayoutMarkup

/-- Names that are not empty and do not contain the separator are found again in the path that they
make. -/
theorem Name.splitPath_joinPath {names : List String}
    (h : ∀ name ∈ names, name ≠ "" ∧ Name.separator ∉ name.toList) :
    Name.splitPath (Name.joinPath names) = names := by
  cases names with
  | nil => rfl
  | cons first rest =>
    set names := first :: rest with hnames
    have hjoin : (joinPath names).toList = [separator].intercalate (names.map String.toList) :=
      String.toList_intercalate
    have hfree : ∀ piece ∈ names.map String.toList, separator ∉ piece := by
      intro piece hpiece
      obtain ⟨name, hname, rfl⟩ := List.mem_map.1 hpiece
      exact (h name hname).2
    have hpieces : pieces (joinPath names).toList = names.map String.toList := by
      rw [hjoin]
      exact List.splitOn_intercalate separator hfree (List.cons_ne_nil _ _)
    -- No piece is empty, so none is left out.
    have hkept : ∀ piece ∈ names.map String.toList, (!piece.isEmpty) = true := by
      intro piece hpiece
      obtain ⟨name, hname, rfl⟩ := List.mem_map.1 hpiece
      have hne := (h name hname).1
      simpa using hne
    rw [splitPath, hpieces, List.filter_eq_self.2 hkept, List.map_map]
    exact (List.map_congr_left fun name _ => String.ofList_toList).trans (List.map_id names)

namespace Index

/-- The scope that an entry stands in. -/
def parent? (ix : Index) (id : EntryId) : Option EntryId :=
  (ix.entry? id).bind (·.parent)

/-- Going up from an entry as often as its path has names leads to the root. -/
theorem iterate_parent? {ix : Index} (h : Entries.Rooted ix.entry?) {id : EntryId} {e : Entry}
    (he : ix.entry? id = some e) :
    (fun scope => scope.bind ix.parent?)^[e.path.length] (some id) = some .root := by
  refine h.induction (P := fun id e =>
    (fun scope => scope.bind ix.parent?)^[e.path.length] (some id) = some .root)
    (fun {e} _ hnil => ?_) (fun {p s id e} _ hscope he hp _ hpath => ?_) he
  · rw [hnil]
    rfl
  · have hup : (some id).bind ix.parent? = some p := by
      rw [Option.bind_some, parent?, he, Option.bind_some, hp]
    rw [hpath, List.length_append, List.length_singleton, Function.iterate_succ_apply, hup, hscope]

/-- The slots, the free slots, the scopes and the names in them show one and the same tree. -/
structure Arena (ix : Index) : Prop where
  /-- The root has the first slot, and it is the only entry without a scope. -/
  root : ∃ e, ix.entry? .root = some e ∧ e.kind = .root ∧ e.parent = none ∧ e.path = []
  /-- No slot is free twice. -/
  nodup_free : ix.free.Nodup
  /-- The free slots are those without an entry. -/
  mem_free : ∀ id, id ∈ ix.free ↔ id < ix.slots.size ∧ ix.entry? id = none
  /-- The size is the number of entries. -/
  size : ix.size = {id | ix.entry? id ≠ none}.ncard
  /-- A scope holds an entry under a name exactly if the entry has that scope and that name. -/
  child : ∀ {p s}, ix.entry? p = some s → ∀ name id, s.children.get? name = some id ↔
    ∃ e, ix.entry? id = some e ∧ e.parent = some p ∧ e.name = name
  /-- Every entry but the root has a scope, and its path is that of the scope with its name
  behind. -/
  scope : ∀ {id e}, ix.entry? id = some e → id ≠ .root →
    ∃ p s, e.parent = some p ∧ ix.entry? p = some s ∧ e.path = s.path ++ [e.name]
  /-- Going up from scope to scope ends at the root. -/
  ascent : ∀ {id e}, ix.entry? id = some e →
    (fun scope => scope.bind ix.parent?)^[e.path.length] (some id) = some .root
  /-- The files are the names in the root. -/
  file : ∀ {id e}, ix.entry? id = some e → (e.kind = .file ↔ e.parent = some .root)
  /-- No two entries have the same path. -/
  injective : Set.InjOn ix.pathOf {id | ix.entry? id ≠ none}
  /-- The path of an entry leads to it. -/
  lookupNames? : ∀ id, ix.entry? id ≠ none → ix.lookupNames? .root (ix.pathOf id) = some id
  /-- The text of a path leads to its entry, if no name in it is empty or contains the
  separator. -/
  lookup? : ∀ id, ix.entry? id ≠ none →
    (∀ name ∈ ix.pathOf id, name ≠ "" ∧ Name.separator ∉ name.toList) →
    ix.lookup? (ix.fullName id) = some id

/-- The entries of a tree of names whose free slots are listed make an arena. -/
theorem FreeListed.arena {ix : Index} (hfree : ix.FreeListed) (h : Entries.Rooted ix.entry?) :
    ix.Arena := by
  -- The path of an entry leads to it from the root.
  have hlookup : ∀ id, ix.entry? id ≠ none → ix.lookupNames? .root (ix.pathOf id) = some id := by
    intro id hlive
    obtain ⟨e, he⟩ := Option.ne_none_iff_exists'.1 hlive
    rw [pathOf_eq he]
    exact lookupNames?_path h he
  refine ⟨?_, hfree.nodup, hfree.mem_free, size_eq_ncard hfree, fun {p s} hs name id => ?_,
    fun {id e} he hroot => ?_, fun he => iterate_parent? h he, fun {id e} he => ?_,
    fun id hid id' hid' hpath => ?_, hlookup, fun id hlive hnames => ?_⟩
  · obtain ⟨e, he, hkind, hpath, hparent⟩ := h.root
    exact ⟨e, he, hkind, hparent, hpath⟩
  · -- The names in an entry are those of the entries that have it as their scope.
    constructor
    · intro hget
      obtain ⟨e, he, hp, hpath⟩ := h.child hs hget
      have hname : e.name = name := by
        rw [Entry.name, hpath]
        simp
      exact ⟨e, he, hp, hname⟩
    · rintro ⟨e, he, hp, rfl⟩
      obtain ⟨s', hs', hget, -⟩ := h.scope_of_parent he hp
      rw [hs] at hs'
      cases hs'
      exact hget
  · obtain ⟨p, s, hp, -⟩ := h.scope he hroot
    obtain ⟨s, hs, -, hpath⟩ := h.scope_of_parent he hp
    exact ⟨p, s, hp, hs, hpath⟩
  · by_cases hroot : id = .root
    · subst hroot
      obtain ⟨r, hr, hkind, -, hparent⟩ := h.root
      rw [he] at hr
      cases hr
      rw [hkind, hparent]
      simp
    · -- Files stand in the root, and nothing else does.
      rcases h.kind he hroot with ⟨hkind, hparent⟩ | ⟨hscope, -, hparent⟩
      · exact ⟨fun _ => hparent, fun _ => hkind⟩
      · refine ⟨fun hkind => ?_, fun hp => absurd hp hparent⟩
        rw [hkind] at hscope
        exact Bool.noConfusion hscope
  · -- Two entries with one path are found at the same place.
    have hsame := hlookup id hid
    rw [hpath, hlookup id' hid'] at hsame
    exact (Option.some.inj hsame).symm
  · rw [Index.lookup?, fullName, Name.splitPath_joinPath hnames]
    exact hlookup id hlive

/-- After every history the entries make an arena: the slots, the free slots, the scopes and the
names in them agree, and every entry is found by its path. -/
theorem arena_run (limit : Nat) (commands : List Command) : (run limit commands).Arena := by
  have h := (sound_run limit commands).ordered
  exact h.freeListed.arena h.rooted

end Index

end LayoutMarkup
