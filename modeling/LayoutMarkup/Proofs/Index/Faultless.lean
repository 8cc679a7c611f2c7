import LayoutMarkup.Proofs.Index.Accounting

/-!
# Faults

Binding, unbinding and the questions about an index follow numbers of slots, and a number that leads
to no entry is a fault. In an index that commands have made there is none (`Sound.faultless`): what
the index holds are numbers of entries that are there.
-/

namespace LayoutMarkup.Index

/-- No number that an operation on the index follows leads nowhere. -/
structure Faultless (ix : Index) : Prop where
  /-- A document is bound, or it is refused since it is bound with another text. -/
  bind : ∀ schema id doc fault, ix.bind schema id doc ≠ .error (.fault fault)
  /-- A document is taken out, or it is not bound. -/
  unbind : ∀ id fault, ix.unbind id ≠ .error (.fault fault)
  /-- The entry of an element is looked up with every document, also one that was not bound. -/
  entryOfElement? : ∀ id doc element kind,
    ∃ found, ix.entryOfElement? id doc element kind = .ok found
  /-- The file of an entry is there, and has the name by which extensions are looked up. -/
  owningFile? : ∀ id e, ix.entry? id = some e → id ≠ .root → ∃ file f,
    ix.owningFile? id = some file ∧ ix.entry? file = some f ∧ f.kind = .file ∧
      e.path.head? = some f.name
  /-- All extensions of an entry are there. -/
  extensionsOf : ∀ id, ∀ other ∈ ix.extensionsOf id, ix.entry? other ≠ none

/-- The kind of an entry that is there can be asked for. -/
theorem exists_isOfKind_eq_ok {ix : Index} {id : EntryId} {e : Entry} (he : ix.entry? id = some e)
    (kind : Option EntryKind) : ∃ b, ix.isOfKind kind id = .ok b := by
  cases kind with
  | none => exact ⟨true, rfl⟩
  | some kind =>
    rw [isOfKind, entry_eq he]
    exact ⟨_, rfl⟩

/-- The first entry of a kind that one of some elements is bound to can be asked for. -/
theorem Sound.exists_firstBound?_eq_ok {ix : Index} (h : ix.Sound) {id : DocumentId} {r : Record}
    (hr : ix.records.get? id = some r) (kind : Option EntryKind) (elements : List ElementId) :
    ∃ found, ix.firstBound? r kind elements = .ok found := by
  induction elements with
  | nil => exact ⟨none, rfl⟩
  | cons element elements ih =>
    rw [firstBound?]
    split
    -- The root element is bound to the file entry of the record.
    next =>
      obtain ⟨e, he, -⟩ := h.exists_file hr
      obtain ⟨b, hb⟩ := exists_isOfKind_eq_ok he kind
      rw [hb]
      exact ⟨_, rfl⟩
    next =>
      split
      -- Any other one is bound by the record, whose entries are there.
      next entry hentry =>
        obtain ⟨e, he⟩ := h.exists_entry_of_bound hr
          (List.mem_map_of_mem (OrderedMap.get?_eq_some_iff.1 hentry))
        obtain ⟨b, hb⟩ := exists_isOfKind_eq_ok he kind
        rw [hb, ok_bind]
        split
        next => exact ⟨_, rfl⟩
        next => exact ih
      next => exact ih

/-- The file that the path of an entry begins with is there. -/
theorem Sound.exists_owningFile {ix : Index} (h : ix.Sound) {id : EntryId} {e : Entry}
    (he : ix.entry? id = some e) (hroot : id ≠ .root) : ∃ file f,
      ix.owningFile? id = some file ∧ ix.entry? file = some f ∧ f.kind = .file ∧
        e.path.head? = some f.name := by
  have hrooted := h.ordered.rooted
  -- The induction goes down from the root. A name in the root is itself the file.
  refine hrooted.induction (P := fun id e => id ≠ .root → ∃ file f,
    ix.owningFile? id = some file ∧ ix.entry? file = some f ∧ f.kind = .file ∧
      e.path.head? = some f.name) (fun _ _ hne => absurd rfl hne)
    (fun {p s id e} hs hscope he hp hget hpath hne => ?_) he hroot
  by_cases hproot : p = .root
  · subst hproot
    obtain ⟨r, hr, -, hnil, -⟩ := hrooted.root
    rw [hs] at hr
    cases hr
    rw [hnil, List.nil_append] at hpath
    refine ⟨id, e, ?_, he, ?_, by rw [hpath]; rfl⟩
    · rw [owningFile?, pathOf_eq he, hpath, List.head?_cons, Option.bind_some, child?, hs,
        Option.bind_some, hget]
    · rcases hrooted.kind he hne with ⟨hkind, -⟩ | ⟨-, -, hnot⟩
      · exact hkind
      · exact absurd hp hnot
  · obtain ⟨file, f, hfile, hf, hkind, hhead⟩ := hscope hproot
    have hsame : e.path.head? = s.path.head? := by
      rw [hpath, List.head?_append, hhead, Option.some_or]
    refine ⟨file, f, ?_, hf, hkind, hsame.trans hhead⟩
    rw [owningFile?, pathOf_eq he, hsame, ← pathOf_eq hs]
    exact hfile

/-- A sound index is faultless. -/
theorem Sound.faultless {ix : Index} (h : ix.Sound) : ix.Faultless := by
  have happly : ∀ (command : Command) (fault : Fault),
      command.apply ix ≠ .error (.fault fault) := by
    intro command fault herror
    rcases h.apply command with ⟨ix', hok, -⟩ | ⟨error, hrefused, hne⟩
    · rw [hok] at herror
      cases herror
    · rw [hrefused] at herror
      exact hne fault (Except.error.inj herror)
  refine ⟨fun schema id doc fault herror => ?_, fun id => happly (.unbind id),
    fun id doc element kind => ?_, fun id e he hroot => h.exists_owningFile he hroot,
    fun id other hother => h.entry?_of_mem_extensionsOf hother⟩
  · refine happly (.bind schema id doc) fault ?_
    rw [Command.apply, herror]
    rfl
  · unfold entryOfElement?
    cases hr : ix.records.get? id with
    | none => exact ⟨none, rfl⟩
    | some r => exact h.exists_firstBound?_eq_ok hr kind _

end LayoutMarkup.Index
