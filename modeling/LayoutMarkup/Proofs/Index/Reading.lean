import LayoutMarkup.Proofs.Index.History

/-!
# Readings

A reading of an index (`Index.reading`) is what it says when its tables are taken as sets, slots are
read as paths, and what the entries stand for is left out. The reading of a sound index is
determined by the outlines that its records make (`Sound.reading_eq`). These are the outlines of the
bound documents (`Holds`), as far as those are named. So the reading after a history depends only on
which documents are bound in the end, and not on the order in which they were bound or on what else
was bound in between (`reading_run`). What binding makes hold of the record of a document, and
depends only on paths, holds of all records at any time (`Lasting.recorded_run`).
-/

namespace LayoutMarkup

/-- What an index says, without order. -/
structure Reading where
  /-- The paths with their declarations. -/
  entries : Set (List String × Set Declaration)
  /-- The templates with the paths that refer to them. -/
  templates : Set (String × List String)
  /-- The files and names in them with the paths that extend them. -/
  extensions : Set (String × String × List String)
  /-- The constants with their declarations. -/
  constants : Set (String × Set Declaration)
  /-- The handles with their declarations. -/
  handles : Set (String × Set Declaration)

namespace Index

/-- What an index says, without order and slots. -/
def reading (ix : Index) : Reading where
  entries := {x | ∃ id e, ix.entry? id = some e ∧ x = (e.path, {d | d ∈ e.declarations})}
  templates := {x | ∃ id referrers, ix.templates.get? x.1 = some referrers ∧
    id ∈ referrers.keys ∧ x.2 = ix.pathOf id}
  extensions := {x | ∃ id referrers, ix.extensions.referrers? x.1 x.2.1 = some referrers ∧
    id ∈ referrers.keys ∧ x.2.2 = ix.pathOf id}
  constants := {x | ∃ s, ix.constants.get? x.1 = some s ∧ x.2 = {d | d ∈ s}}
  handles := {x | ∃ s, ix.handles.get? x.1 = some s ∧ x.2 = {d | d ∈ s}}

/-- What the records of an index say. -/
def outlines (ix : Index) (id : DocumentId) : Option Outline :=
  (ix.records.get? id).map (·.outline ix.pathOf)

end Index

/-- The elements that have a line in one of some outlines. -/
def Reading.declared (outlines : DocumentId → Option Outline)
    (lines : Outline → ElementId → Prop) : Set Declaration :=
  {d | ∃ o, outlines d.document = some o ∧ lines o d.element}

/-- What some outlines say together. -/
def Reading.ofOutlines (outlines : DocumentId → Option Outline) : Reading where
  entries := {x | x = ([], ∅) ∨ x.2.Nonempty ∧
    x.2 = declared outlines fun o element => (element, x.1) ∈ o.declarations}
  templates := {x | ∃ id o, outlines id = some o ∧ x ∈ o.templates}
  extensions := {x | ∃ id o, outlines id = some o ∧ x ∈ o.extensions}
  constants := {x | x.2.Nonempty ∧
    x.2 = declared outlines fun o element => (x.1, element) ∈ o.constants}
  handles := {x | x.2.Nonempty ∧
    x.2 = declared outlines fun o element => (x.1, element) ∈ o.handles}

namespace Index

/-! ## The reading of a sound index -/

/-- The outline that a record makes. -/
theorem outlines_eq_some_iff {ix : Index} {id : DocumentId} {o : Outline} :
    ix.outlines id = some o ↔
      ∃ r, ix.records.get? id = some r ∧ r.outline ix.pathOf = o :=
  Option.map_eq_some_iff

/-- The elements that declare an entry are those that declare its path. -/
theorem Sound.declarations_eq {ix : Index} (h : ix.Sound) {id : EntryId} {e : Entry}
    (he : ix.entry? id = some e) : {d | d ∈ e.declarations} =
      Reading.declared ix.outlines fun o element => (element, e.path) ∈ o.declarations := by
  ext d
  show d ∈ e.declarations ↔
    ∃ o, ix.outlines d.document = some o ∧ (d.element, e.path) ∈ o.declarations
  rw [h.ordered.accounted.declared he]
  constructor
  · intro hline
    cases hr : ix.records.get? d.document with
    | none =>
      rw [ledger_eq_nil hr] at hline
      exact absurd hline List.not_mem_nil
    | some r =>
      rw [ledger_eq hr] at hline
      refine ⟨_, outlines_eq_some_iff.2 ⟨r, hr, rfl⟩, List.mem_map.2 ⟨_, hline, ?_⟩⟩
      rw [pathOf_eq he]
  · rintro ⟨o, ho, hmem⟩
    obtain ⟨r, hr, rfl⟩ := outlines_eq_some_iff.1 ho
    obtain ⟨⟨element, j⟩, hline, heq⟩ := List.mem_map.1 hmem
    obtain ⟨hel, hpath⟩ := Prod.mk.inj heq
    rw [← ledger_eq hr] at hline
    obtain ⟨f, p, hf, -⟩ := h.ordered.accounted.exists_entry hline
    -- Only one entry has the path.
    dsimp only at hel hpath
    rw [pathOf_eq hf] at hpath
    have hj : j = id := h.ordered.rooted.id_eq_of_path_eq hf he hpath
    rw [← hel, ← hj]
    exact hline

/-- A path in an outline of the records is that of an entry. -/
theorem Sound.exists_entry_of_declared {ix : Index} (h : ix.Sound) {d : Declaration}
    {path : List String}
    (hd : d ∈ Reading.declared ix.outlines fun o element => (element, path) ∈ o.declarations) :
    ∃ id e, ix.entry? id = some e ∧ e.path = path := by
  obtain ⟨o, ho, hmem⟩ := hd
  obtain ⟨r, hr, rfl⟩ := outlines_eq_some_iff.1 ho
  obtain ⟨⟨element, id⟩, hline, heq⟩ := List.mem_map.1 hmem
  rw [← ledger_eq hr] at hline
  obtain ⟨e, p, he, -⟩ := h.ordered.accounted.exists_entry hline
  refine ⟨id, e, he, ?_⟩
  rw [← pathOf_eq he]
  exact (Prod.mk.inj heq).2

/-- What is recorded stands in the record of a bound document. -/
theorem mem_recorded_iff {α : Type} {ix : Index} {lines : Record → List α} {x : α} :
    x ∈ ix.recorded lines ↔ ∃ id r, ix.records.get? id = some r ∧ x ∈ lines r := by
  unfold recorded OrderedMap.values
  rw [List.mem_flatMap]
  constructor
  · rintro ⟨r, hr, hx⟩
    obtain ⟨⟨id, r'⟩, hmem, rfl⟩ := List.mem_map.1 hr
    exact ⟨id, r', OrderedMap.get?_eq_some_iff.2 hmem, hx⟩
  · rintro ⟨id, r, hr, hx⟩
    exact ⟨r, List.mem_map_of_mem (OrderedMap.get?_eq_some_iff.1 hr), hx⟩

/-- Nothing declares the root. -/
theorem Sound.declarations_root {ix : Index} (h : ix.Sound) {r : Entry}
    (hr : ix.entry? .root = some r) : {d | d ∈ r.declarations} = ∅ := by
  refine Set.eq_empty_iff_forall_notMem.2 fun d hd => ?_
  -- A line of a ledger is about an entry with a scope.
  obtain ⟨e, p, he, hp⟩ := h.ordered.accounted.exists_entry
    ((h.ordered.accounted.declared hr).1 hd)
  exact h.ordered.rooted.ne_root he hp rfl

/-- The paths in a reading are those in the outlines, and the empty one. -/
theorem Sound.entries_reading {ix : Index} (h : ix.Sound) :
    ix.reading.entries = (Reading.ofOutlines ix.outlines).entries := by
  ext ⟨path, declarations⟩
  constructor
  · rintro ⟨id, e, he, heq⟩
    obtain ⟨rfl, rfl⟩ := Prod.mk.inj heq
    by_cases hroot : id = .root
    · obtain ⟨r, hr, -, hpath, -⟩ := h.ordered.rooted.root
      rw [hroot, hr] at he
      cases he
      exact Or.inl (Prod.ext hpath (h.declarations_root hr))
    · exact Or.inr ⟨h.ordered.accounted.kept he hroot, h.declarations_eq he⟩
  · rintro (heq | ⟨⟨d, hd⟩, heq⟩)
    · obtain ⟨rfl, rfl⟩ := Prod.mk.inj heq
      obtain ⟨r, hr, -, hpath, -⟩ := h.ordered.rooted.root
      exact ⟨.root, r, hr, Prod.ext hpath.symm (h.declarations_root hr).symm⟩
    · dsimp only at heq hd
      rw [heq] at hd
      obtain ⟨id, e, he, rfl⟩ := h.exists_entry_of_declared hd
      exact ⟨id, e, he, Prod.ext rfl (heq.trans (h.declarations_eq he).symm)⟩

/-- The template references in a reading are those in the outlines. -/
theorem Sound.templates_reading {ix : Index} (h : ix.Sound) :
    ix.reading.templates = (Reading.ofOutlines ix.outlines).templates := by
  -- An entry is in the table exactly if some record has it.
  have hrecord : ∀ key id, (∃ referrers, ix.templates.get? key = some referrers ∧
      id ∈ referrers.keys) ↔ ∃ doc r, ix.records.get? doc = some r ∧ (key, id) ∈ r.templates := by
    intro key id
    rw [h.referenced.templates_proper.exists_mem_keys_iff, h.referenced.templates,
      List.count_pos_iff, mem_recorded_iff]
  ext ⟨key, path⟩
  constructor
  · rintro ⟨id, referrers, hget, hid, hpath⟩
    obtain ⟨doc, r, hr, hmem⟩ := (hrecord key id).1 ⟨referrers, hget, hid⟩
    refine ⟨doc, _, outlines_eq_some_iff.2 ⟨r, hr, rfl⟩, List.mem_map.2 ⟨_, hmem, ?_⟩⟩
    exact Prod.ext rfl hpath.symm
  · rintro ⟨doc, o, ho, hmem⟩
    obtain ⟨r, hr, rfl⟩ := outlines_eq_some_iff.1 ho
    obtain ⟨⟨key', id⟩, hline, heq⟩ := List.mem_map.1 hmem
    obtain ⟨rfl, rfl⟩ := Prod.mk.inj heq
    obtain ⟨referrers, hget, hid⟩ := (hrecord _ _).2 ⟨doc, r, hr, hline⟩
    exact ⟨id, referrers, hget, hid, rfl⟩

/-- The extensions in a reading are those in the outlines. -/
theorem Sound.extensions_reading {ix : Index} (h : ix.Sound) :
    ix.reading.extensions = (Reading.ofOutlines ix.outlines).extensions := by
  -- An entry refers to a file as often as the records say, so it is listed iff some record says so.
  have hrecord : ∀ file relative id, (∃ referrers,
      ix.extensions.referrers? file relative = some referrers ∧ id ∈ referrers.keys) ↔
      ∃ doc r, ix.records.get? doc = some r ∧ (file, relative, id) ∈ r.extensions := by
    intro file relative id
    rw [h.referenced.extensions_proper.exists_mem_keys_iff, h.referenced.extensions,
      List.count_pos_iff, mem_recorded_iff]
  ext ⟨file, relative, path⟩
  constructor
  · rintro ⟨id, referrers, hget, hid, hpath⟩
    obtain ⟨doc, r, hr, hmem⟩ := (hrecord file relative id).1 ⟨referrers, hget, hid⟩
    refine ⟨doc, _, outlines_eq_some_iff.2 ⟨r, hr, rfl⟩, List.mem_map.2 ⟨_, hmem, ?_⟩⟩
    exact Prod.ext rfl (Prod.ext rfl hpath.symm)
  · rintro ⟨doc, o, ho, hmem⟩
    obtain ⟨r, hr, rfl⟩ := outlines_eq_some_iff.1 ho
    obtain ⟨⟨file', relative', id⟩, hline, heq⟩ := List.mem_map.1 hmem
    obtain ⟨rfl, hrest⟩ := Prod.mk.inj heq
    obtain ⟨rfl, rfl⟩ := Prod.mk.inj hrest
    obtain ⟨referrers, hget, hid⟩ := (hrecord _ _ _).2 ⟨doc, r, hr, hline⟩
    exact ⟨id, referrers, hget, hid, rfl⟩

/-- The names in a table of declarations are those with a line in the outlines. -/
theorem reading_crossReferences {ix : Index} {t : CrossReferences} (ht : t.Proper)
    {lines : Record → List (String × ElementId)} {lines' : Outline → List (String × ElementId)}
    (hlines : ∀ r : Record, lines' (r.outline ix.pathOf) = lines r)
    (hdeclared : ∀ name d, d ∈ t.declared name ↔
      ∃ r, ix.records.get? d.document = some r ∧ (name, d.element) ∈ lines r) :
    {x : String × Set Declaration | ∃ s, t.get? x.1 = some s ∧ x.2 = {d | d ∈ s}} =
      {x | x.2.Nonempty ∧
        x.2 = Reading.declared ix.outlines fun o element => (x.1, element) ∈ lines' o} := by
  -- What a table lists under a name is what the outlines have a line for.
  have hset : ∀ name, {d | d ∈ t.declared name} =
      Reading.declared ix.outlines fun o element => (name, element) ∈ lines' o := by
    intro name
    ext d
    refine (hdeclared name d).trans ⟨?_, ?_⟩
    · rintro ⟨r, hr, hmem⟩
      rw [← hlines] at hmem
      exact ⟨_, outlines_eq_some_iff.2 ⟨r, hr, rfl⟩, hmem⟩
    · rintro ⟨o, ho, hmem⟩
      obtain ⟨r, hr, rfl⟩ := outlines_eq_some_iff.1 ho
      rw [hlines] at hmem
      exact ⟨r, hr, hmem⟩
  ext ⟨name, declarations⟩
  show (∃ s, t.get? name = some s ∧ declarations = {d | d ∈ s}) ↔
    declarations.Nonempty ∧ declarations = _
  rw [← hset name]
  constructor
  · rintro ⟨s, hget, rfl⟩
    -- A table lists no name in vain, so a name is in it iff its set is not empty.
    obtain ⟨rfl, hne⟩ := ht.get?_eq_some_iff.1 hget
    exact ⟨hne, rfl⟩
  · rintro ⟨hne, rfl⟩
    exact ⟨t.declared name, ht.get?_eq_some_iff.2 ⟨rfl, hne⟩, rfl⟩

/-- The outlines of the records determine the reading of a sound index. -/
theorem Sound.reading_eq {ix : Index} (h : ix.Sound) :
    ix.reading = Reading.ofOutlines ix.outlines := by
  have hconstants : ix.reading.constants = (Reading.ofOutlines ix.outlines).constants :=
    reading_crossReferences h.referenced.constants_proper (fun _ => rfl) h.referenced.constants
  have hhandles : ix.reading.handles = (Reading.ofOutlines ix.outlines).handles :=
    reading_crossReferences h.referenced.handles_proper (fun _ => rfl) h.referenced.handles
  calc ix.reading
      = ⟨ix.reading.entries, ix.reading.templates, ix.reading.extensions, ix.reading.constants,
          ix.reading.handles⟩ := rfl
    _ = Reading.ofOutlines ix.outlines := by
      rw [h.entries_reading, h.templates_reading, h.extensions_reading, hconstants, hhandles]

/-! ## What is held -/

/-- A document with the schema that it was read with. -/
structure Holding where
  /-- The schema. -/
  schema : Schema
  /-- The document. -/
  doc : Document

/-- What a command makes of the documents that are held. A document that is held stays as it is, for
it is bound with the same text or refused. -/
def Command.hold (held : OrderedMap DocumentId Holding) : Command → OrderedMap DocumentId Holding
  | bind schema id doc => if (held.get? id).isSome then held else held.insert id ⟨schema, doc⟩
  | unbind id => held.erase id
  | clear => ∅

/-- The documents that are held after a history of commands. -/
def held (commands : List Command) : OrderedMap DocumentId Holding :=
  commands.foldl Command.hold ∅

/-- The documents that are held are bound, and their records say what their outlines say. -/
structure Holds (ix : Index) (held : OrderedMap DocumentId Holding) : Prop where
  /-- The documents that are held are those that are bound. -/
  bound : ∀ id, held.get? id = none ↔ ix.records.get? id = none
  /-- The record of a document that is named says what the outline of the document says. -/
  outline : ∀ {id r b}, ix.records.get? id = some r → held.get? id = some b →
    b.doc.Named b.schema → r.outline ix.pathOf = b.doc.outline b.schema

/-- The index without documents holds none. -/
theorem holds_empty (limit : Nat) : (empty limit).Holds ∅ :=
  ⟨fun _ => ⟨fun _ => rfl, fun _ => rfl⟩, fun hr => nomatch hr⟩

/-- Entries that stay when lines of a ledger are unwound keep their places. -/
theorem unwound_eq_some {v : Entries} {doc : DocumentId} {lines : List (ElementId × EntryId)}
    {j : EntryId} {f' : Entry} (h : unwound v doc lines j = some f') :
    ∃ f, v j = some f ∧ Entries.SameLinks f f' := by
  induction lines generalizing f' with
  | nil => exact ⟨f', h, ⟨rfl, rfl, rfl⟩⟩
  | cons line lines ih =>
    obtain ⟨f₁, hf₁, hlinks₁, -⟩ := Entries.undeclared_eq_some h
    obtain ⟨f, hf, hlinks⟩ := ih hf₁
    exact ⟨f, hf, hlinks₁.kind.trans hlinks.kind, hlinks₁.path.trans hlinks.path,
      hlinks₁.parent.trans hlinks.parent⟩

/-- The entries in the ledger of a bound document have the same paths in an index from which the
ledger of another document is unwound. -/
theorem Sound.pathOf_of_unwound {ix ix' : Index} (h' : ix'.Sound) {doc : DocumentId}
    {lines : List (ElementId × EntryId)} (hun : unwound ix.entry? doc lines = ix'.entry?)
    {id : DocumentId} {r : Record} (hr : ix'.records.get? id = some r) {j : EntryId}
    (hj : j ∈ r.ledger.map Prod.snd) : ix.pathOf j = ix'.pathOf j := by
  obtain ⟨⟨element, j⟩, hline, rfl⟩ := List.mem_map.1 hj
  rw [← ledger_eq hr] at hline
  obtain ⟨f', -, hf', -⟩ := h'.ordered.accounted.exists_entry hline
  obtain ⟨f, hf, hlinks⟩ := unwound_eq_some (hun.symm ▸ hf')
  rw [pathOf_eq hf, pathOf_eq hf', hlinks.path]

/-- A record says the same in an index from which the ledger of another document is unwound. -/
theorem Sound.outline_of_unwound {ix ix' : Index} (h' : ix'.Sound) {doc : DocumentId}
    {lines : List (ElementId × EntryId)} (hun : unwound ix.entry? doc lines = ix'.entry?)
    {id : DocumentId} {r : Record} (hr : ix'.records.get? id = some r) :
    r.outline ix.pathOf = r.outline ix'.pathOf :=
  (h'.closed id r hr).outline_congr fun _ hj => h'.pathOf_of_unwound hun hr hj

/-- A document that is not held can be bound, and is held then. -/
theorem Holds.bind {ix : Index} {held : OrderedMap DocumentId Holding} (hh : ix.Holds held)
    (h : ix.Sound) {id : DocumentId} (hnew : held.get? id = none) (b : Holding) :
    ∃ ix', (Command.bind b.schema id b.doc).apply ix = .ok ix' ∧ ix'.Sound ∧
      ix'.Holds (held.insert id b) := by
  have hunbound := (hh.bound id).1 hnew
  -- The new record says what the document does, and the others say what they did.
  obtain ⟨w, hbind, hw, -, houtline⟩ := bind_spec h b.schema hunbound b.doc
  have hrecords : (w.sealed id).records = ix.records.insert id w.record := by
    unfold Walk.sealed
    rw [hw.records]
  refine ⟨w.sealed id, by rw [Command.apply, hbind]; rfl, hw.sound h hunbound, ?_, ?_⟩
  · intro id'
    rw [hrecords, OrderedMap.get?_insert, OrderedMap.get?_insert]
    by_cases hid : id' = id
    · simp [hid]
    · rw [if_neg hid, if_neg hid]
      exact hh.bound id'
  · intro id' r b' hr hb' hnamed
    rw [hrecords, OrderedMap.get?_insert] at hr
    rw [OrderedMap.get?_insert] at hb'
    by_cases hid : id' = id
    · rw [if_pos hid] at hr hb'
      cases hr
      cases hb'
      exact houtline hnamed
    · rw [if_neg hid] at hr hb'
      exact (h.outline_of_unwound hw.unwinds hr).trans (hh.outline hr hb' hnamed)

/-- A document that is held can be unbound, and is not held any more. -/
theorem Holds.unbind {ix : Index} {held : OrderedMap DocumentId Holding} (hh : ix.Holds held)
    (h : ix.Sound) {id : DocumentId} {r : Record} (hr : ix.records.get? id = some r) :
    ∃ ix', ix.unbind id = .ok ix' ∧ ix'.Holds (held.erase id) := by
  obtain ⟨ix', hunbind, hre, h'⟩ := unbind_spec h hr
  have hrecords : ix'.records = ix.records.erase id := by
    rw [hre.rest]
    rfl
  refine ⟨ix', hunbind, ?_, ?_⟩
  · intro id'
    rw [hrecords, OrderedMap.get?_erase, OrderedMap.get?_erase]
    by_cases hid : id' = id
    · simp [hid]
    · rw [if_neg hid, if_neg hid]
      exact hh.bound id'
  · intro id' r' b' hr' hb' hnamed
    -- The outlines of the other documents do not change when entries go away that are not theirs.
    rw [← h'.outline_of_unwound hre.view.symm hr']
    rw [hrecords, OrderedMap.get?_erase] at hr'
    rw [OrderedMap.get?_erase] at hb'
    by_cases hid : id' = id
    · rw [if_pos hid] at hr'
      exact absurd hr' (Option.some_ne_none r').symm
    · rw [if_neg hid] at hr' hb'
      exact hh.outline hr' hb' hnamed

/-- A bound document is held. -/
theorem Holds.isSome_of_bound {ix : Index} {held : OrderedMap DocumentId Holding}
    (hh : ix.Holds held) {id : DocumentId} {r : Record} (hr : ix.records.get? id = some r) :
    (held.get? id).isSome = true :=
  Option.isSome_iff_ne_none.2 fun hnone =>
    Option.some_ne_none r (hr.symm.trans ((hh.bound id).1 hnone))

/-- A command changes what is held as it changes what is bound. -/
theorem Holds.run {ix : Index} {held : OrderedMap DocumentId Holding} (hh : ix.Holds held)
    (h : ix.Sound) (command : Command) : (command.run ix).Holds (command.hold held) := by
  cases command with
  | bind schema id doc =>
    cases hr : ix.records.get? id with
    | none =>
      have hnew := (hh.bound id).2 hr
      obtain ⟨ix', happly, -, hh'⟩ := hh.bind h hnew ⟨schema, doc⟩
      rw [Command.run, happly, Command.hold, hnew]
      exact hh'
    | some r =>
      -- The document is bound again in vain.
      rw [run_bind_of_bound hr, Command.hold, if_pos (hh.isSome_of_bound hr)]
      exact hh
  | unbind id =>
    cases hr : ix.records.get? id with
    | none =>
      rw [run_unbind_of_not_bound hr, Command.hold, OrderedMap.erase_eq_self ((hh.bound id).2 hr)]
      exact hh
    | some r =>
      obtain ⟨ix', hunbind, hh'⟩ := hh.unbind h hr
      rw [Command.run, Command.apply, hunbind]
      exact hh'
  | clear => exact holds_empty _

/-- After every history what is held is bound. -/
theorem holds_run (limit : Nat) (commands : List Command) :
    (run limit commands).Holds (held commands) := by
  induction commands using List.reverseRecOn with
  | nil => exact holds_empty limit
  | append_singleton commands command ih =>
    unfold run held at ih ⊢
    rw [List.foldl_append, List.foldl_append]
    exact ih.run (sound_run limit commands) command

/-- A property of the record of a document, which may speak about the paths of entries, holds of the
records of all documents that are held. -/
def Recorded (P : Record → Holding → (EntryId → List String) → Prop) (ix : Index)
    (held : OrderedMap DocumentId Holding) : Prop :=
  ∀ id r b, ix.records.get? id = some r → held.get? id = some b → P r b ix.pathOf

/-- A property of records that other documents do not take away. -/
structure Lasting (P : Record → Holding → (EntryId → List String) → Prop) : Prop where
  /-- It depends only on the paths of the entries in a record. -/
  congr : ∀ r b pathOf pathOf', P r b pathOf →
    (∀ j ∈ r.ledger.map Prod.snd, pathOf' j = pathOf j) → P r b pathOf'
  /-- Binding a document makes it hold. -/
  bind : ∀ (ix : Index) (id : DocumentId) (b : Holding), ix.Sound → ix.records.get? id = none →
    ∃ w : Walk, ix.bind b.schema id b.doc = .ok (w.sealed id, w.record.file) ∧
      w.Follows ix id w.places.size ∧ P w.record b w.index.pathOf

namespace Lasting

variable {P : Record → Holding → (EntryId → List String) → Prop} {ix : Index}
  {held : OrderedMap DocumentId Holding}

/-- Unbinding a document keeps what holds of the records of the others. -/
theorem recorded_unbind (hP : Lasting P) (hall : Recorded P ix held) (h : ix.Sound)
    {id : DocumentId} {r : Record} (hr : ix.records.get? id = some r) :
    ∃ ix', ix.unbind id = .ok ix' ∧ Recorded P ix' (held.erase id) := by
  obtain ⟨ix', hunbind, hre, h'⟩ := unbind_spec h hr
  have hrecords : ix'.records = ix.records.erase id := by
    rw [hre.rest]
    rfl
  refine ⟨ix', hunbind, fun id' r' b' hr' hb' => ?_⟩
  have hpath := fun j hj => h'.pathOf_of_unwound hre.view.symm hr' (j := j) hj
  rw [hrecords, OrderedMap.get?_erase] at hr'
  rw [OrderedMap.get?_erase] at hb'
  by_cases hid : id' = id
  · rw [if_pos hid] at hr'
    exact absurd hr' (Option.some_ne_none r').symm
  · rw [if_neg hid] at hr' hb'
    exact hP.congr r' b' _ _ (hall id' r' b' hr' hb') fun j hj => (hpath j hj).symm

/-- Binding a document adds one record that has the property, and keeps the others. -/
theorem recorded_bind (hP : Lasting P) (hall : Recorded P ix held) (h : ix.Sound)
    {id : DocumentId} (hnew : ix.records.get? id = none) (b : Holding) :
    ∃ ix', (Command.bind b.schema id b.doc).apply ix = .ok ix' ∧
      Recorded P ix' (held.insert id b) := by
  obtain ⟨w, hbind, hw, hrecord⟩ := hP.bind ix id b h hnew
  have hrecords : (w.sealed id).records = ix.records.insert id w.record := by
    unfold Walk.sealed
    rw [hw.records]
  refine ⟨w.sealed id, by rw [Command.apply, hbind]; rfl, fun id' r' b' hr' hb' => ?_⟩
  rw [hrecords, OrderedMap.get?_insert] at hr'
  rw [OrderedMap.get?_insert] at hb'
  by_cases hid : id' = id
  · rw [if_pos hid] at hr' hb'
    cases hr'
    cases hb'
    exact hrecord
  · rw [if_neg hid] at hr' hb'
    exact hP.congr r' b' _ _ (hall id' r' b' hr' hb') fun j hj =>
      h.pathOf_of_unwound hw.unwinds hr' hj

/-- A command keeps a lasting property of the records. -/
theorem recorded (hP : Lasting P) (hall : Recorded P ix held) (h : ix.Sound) (hh : ix.Holds held)
    (command : Command) : Recorded P (command.run ix) (command.hold held) := by
  cases command with
  | clear => exact fun _ _ _ hr => nomatch hr
  | unbind id =>
    cases hr : ix.records.get? id with
    | none =>
      rw [run_unbind_of_not_bound hr, Command.hold, OrderedMap.erase_eq_self ((hh.bound id).2 hr)]
      exact hall
    | some r =>
      obtain ⟨ix', hunbind, hall'⟩ := hP.recorded_unbind hall h hr
      rw [Command.run, Command.apply, hunbind]
      exact hall'
  | bind schema id doc =>
    cases hr : ix.records.get? id with
    | some r =>
      -- The document is bound again in vain.
      rw [run_bind_of_bound hr, Command.hold, if_pos (hh.isSome_of_bound hr)]
      exact hall
    | none =>
      obtain ⟨ix', happly, hall'⟩ := hP.recorded_bind hall h hr ⟨schema, doc⟩
      rw [Command.run, happly, Command.hold, (hh.bound id).2 hr]
      exact hall'

/-- A lasting property holds of the records of all bound documents after every history. -/
theorem recorded_run (hP : Lasting P) (limit : Nat) (commands : List Command) :
    Recorded P (run limit commands) (Index.held commands) := by
  induction commands using List.reverseRecOn with
  | nil => exact fun _ _ _ hr => nomatch hr
  | append_singleton commands command ih =>
    have hh := holds_run limit commands
    unfold run Index.held at ih hh ⊢
    rw [List.foldl_append, List.foldl_append]
    exact hP.recorded ih (sound_run limit commands) hh command

end Lasting

/-- That a record has the text and the name of its document is lasting. -/
theorem lasting_heads : Lasting fun r b pathOf => r.Heads b.doc pathOf where
  congr := fun _ _ _ _ h hpath => ⟨h.text, (hpath _ List.mem_cons_self).trans h.file⟩
  bind := fun _ _ b h hnew => by
    obtain ⟨w, hbind, hw, hheads, -⟩ := bind_spec h b.schema hnew b.doc
    exact ⟨w, hbind, hw, hheads⟩

/-- What the records say if all documents that are held are named. -/
theorem Holds.outlines_eq {ix : Index} {held : OrderedMap DocumentId Holding} (hh : ix.Holds held)
    (hnamed : ∀ id b, held.get? id = some b → b.doc.Named b.schema) :
    ix.outlines = fun id => (held.get? id).map fun b => b.doc.outline b.schema := by
  funext id
  unfold outlines
  cases hb : held.get? id with
  | none =>
    rw [(hh.bound id).1 hb]
    rfl
  | some b =>
    cases hr : ix.records.get? id with
    | none =>
      rw [(hh.bound id).2 hr] at hb
      exact absurd hb (Option.some_ne_none b).symm
    | some r => rw [Option.map_some, Option.map_some, hh.outline hr hb (hnamed id b hb)]

/-- Documents with different numbers that are not held can be bound one after another. -/
theorem Holds.bindAll {ix : Index} {held : OrderedMap DocumentId Holding} (hh : ix.Holds held)
    (h : ix.Sound) {order : List (DocumentId × Holding)}
    (hnew : ((held.entries ++ order).map Prod.fst).Nodup) :
    ∃ ix' held', order.foldlM (fun ix x => (Command.bind x.2.schema x.1 x.2.doc).apply ix) ix =
        .ok ix' ∧ ix'.Sound ∧ ix'.Holds held' ∧ held'.entries = held.entries ++ order := by
  induction order generalizing ix held with
  | nil => exact ⟨ix, held, rfl, h, hh, (List.append_nil _).symm⟩
  | cons x order ih =>
    have hx : held.get? x.1 = none := by
      refine OrderedMap.get?_eq_none_iff.2 fun hmem => ?_
      rw [List.map_append] at hnew
      exact (List.nodup_append.1 hnew).2.2 _ hmem _ (List.mem_map_of_mem List.mem_cons_self) rfl
    obtain ⟨ix₁, happly, h₁, hh₁⟩ := hh.bind h hx x.2
    have hentries : (held.insert x.1 x.2).entries ++ order = held.entries ++ x :: order := by
      rw [OrderedMap.entries_insert_of_get?_eq_none hx, List.append_assoc]
      rfl
    obtain ⟨ix', held', hrest, h', hh', heq⟩ := ih hh₁ h₁ (by rw [hentries]; exact hnew)
    refine ⟨ix', held', ?_, h', hh', heq.trans hentries⟩
    rw [List.foldlM_cons, happly]
    exact hrest

/-- The reading after a history is the one that binding just the documents that are held in the end
gives, in any order, if these are named. -/
theorem reading_run (limit limit' : Nat) (commands : List Command)
    (order : List (DocumentId × Holding)) (horder : order.Perm (held commands).entries)
    (hnamed : ∀ x ∈ order, x.2.doc.Named x.2.schema) :
    ∃ ix, order.foldlM (fun ix x => (Command.bind x.2.schema x.1 x.2.doc).apply ix)
        (empty limit') = .ok ix ∧ ix.reading = (run limit commands).reading := by
  have hkeys : (((∅ : OrderedMap DocumentId Holding).entries ++ order).map Prod.fst).Nodup :=
    ((horder.map Prod.fst).nodup_iff).2 (held commands).nodup
  obtain ⟨ix, held', hall, h, hh, hentries⟩ :=
    (holds_empty limit').bindAll (sound_empty limit') hkeys
  -- The same documents are held, so the records of both indices say the same.
  have hsame : ∀ id b, held'.get? id = some b ↔ (held commands).get? id = some b := by
    intro id b
    rw [OrderedMap.get?_eq_some_iff, OrderedMap.get?_eq_some_iff, hentries]
    exact horder.mem_iff
  have hget : held'.get? = (held commands).get? := by
    funext id
    exact Option.ext (hsame id)
  have hheld : ∀ id b, (held commands).get? id = some b → b.doc.Named b.schema := fun id b hb =>
    hnamed (id, b) (horder.mem_iff.2 (OrderedMap.get?_eq_some_iff.1 hb))
  refine ⟨ix, hall, ?_⟩
  rw [h.reading_eq, (sound_run limit commands).reading_eq,
    (holds_run limit commands).outlines_eq hheld,
    hh.outlines_eq fun id b hb => hheld id b ((hsame id b).1 hb), hget]

/-- Three documents are bound, and one of them is unbound again. -/
def buttonCommands : List Command :=
  [.bind frameSchema 0 (buttonDocument "Main"), .bind frameSchema 1 (buttonDocument "Other"),
    .bind frameSchema 2 (buttonDocument "Main"), .unbind 1]

/-- The documents that are left, the last one first. -/
def buttonOrder : List (DocumentId × Holding) :=
  [(2, ⟨frameSchema, buttonDocument "Main"⟩), (0, ⟨frameSchema, buttonDocument "Main"⟩)]

/-- Two documents are left of three, and they may be bound in the other order. -/
theorem reading_run_buttons :
    buttonOrder.Perm (held buttonCommands).entries ∧
      (∀ x ∈ buttonOrder, x.2.doc.Named x.2.schema) ∧
      ∃ ix, buttonOrder.foldlM (fun ix x => (Command.bind x.2.schema x.1 x.2.doc).apply ix)
          (empty 1) = .ok ix ∧ ix.reading = (run 1 buttonCommands).reading := by
  have hperm : buttonOrder.Perm (held buttonCommands).entries := List.Perm.swap ..
  have hnamed : ∀ x ∈ buttonOrder, x.2.doc.Named x.2.schema := by decide +kernel
  exact ⟨hperm, hnamed, reading_run 1 1 buttonCommands buttonOrder hperm hnamed⟩

end Index

end LayoutMarkup
