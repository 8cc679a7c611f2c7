import LayoutMarkup.Proofs.Index.References
import LayoutMarkup.Proofs.Index.Steps

/-!
# Sound indices

An index is sound (`Index.Sound`) if its slots are in order with the ledgers that the records make,
and if its tables hold what the records say and nothing else. A document that is not bound is taken
out of a sound index by dropping its references and its ledger (`removeDocument_spec`), and the
result is sound again.
-/

namespace LayoutMarkup

/-- The lines that a record has in the ledger: the file, then the elements in the order of
binding. -/
def Record.ledger (r : Record) : List (ElementId × EntryId) :=
  (.root, r.file) :: r.bindings.entries

/-- The references in a record are those of entries that it binds. -/
structure Record.Closed (r : Record) : Prop where
  /-- An entry that refers to a template is bound. -/
  templates : ∀ x ∈ r.templates, x.2 ∈ r.bindings.values
  /-- An entry that extends another one is bound. -/
  extensions : ∀ x ∈ r.extensions, x.2.2 ∈ r.bindings.values

namespace Index

/-- The ledgers of the bound documents. -/
def ledger (ix : Index) : Ledger := fun doc =>
  (ix.records.get? doc).elim [] Record.ledger

/-- The lines of one kind in all records. -/
def recorded {α : Type} (ix : Index) (lines : Record → List α) : List α :=
  ix.records.values.flatMap lines

/-- The tables hold what the records say. -/
structure Referenced (ix : Index) : Prop where
  /-- There is no empty place in the table of templates. -/
  templates_proper : ix.templates.Proper
  /-- There is no empty place in the table of extensions. -/
  extensions_proper : ix.extensions.Proper
  /-- There is no empty place in the table of constants. -/
  constants_proper : ix.constants.Proper
  /-- There is no empty place in the table of handles. -/
  handles_proper : ix.handles.Proper
  /-- An entry is registered under a template as often as in the records. -/
  templates : ∀ key id, ix.templates.count key id = (ix.recorded Record.templates).count (key, id)
  /-- An entry is registered as an extension as often as in the records. -/
  extensions : ∀ file relative id, ix.extensions.count file relative id =
    (ix.recorded Record.extensions).count (file, relative, id)
  /-- A constant is declared by the elements in the records. -/
  constants : ∀ name d, d ∈ ix.constants.declared name ↔
    ∃ r, ix.records.get? d.document = some r ∧ (name, d.element) ∈ r.constants
  /-- A handle is declared by the elements in the records. -/
  handles : ∀ name d, d ∈ ix.handles.declared name ↔
    ∃ r, ix.records.get? d.document = some r ∧ (name, d.element) ∈ r.handles

/-- The slots and the tables of the index are in order with its records. -/
structure Sound (ix : Index) : Prop where
  /-- The entries and their declarations. -/
  ordered : ix.Ordered ix.ledger
  /-- The tables. -/
  referenced : ix.Referenced
  /-- The records by themselves. -/
  closed : ∀ doc r, ix.records.get? doc = some r → r.Closed

/-! ## The index without documents -/

/-- The only entry of an index without documents is the root. -/
theorem entry?_empty (limit : Nat) : entry? (empty limit) =
    Function.update (fun _ => none) .root
      (some { kind := .root, path := [], parent := none }) := by
  funext j
  unfold entry? empty
  by_cases hj : j = .root
  · subst hj
    rfl
  · rw [Function.update_of_ne hj]
    have hj' : j ≠ 0 := hj
    rw [Array.getElem?_singleton, if_neg hj']
    rfl

/-- The slots of the index without documents are in order. -/
theorem ordered_empty (limit : Nat) : (empty limit).Ordered fun _ => [] := by
  -- The only entry is the root, which has nothing in it and is not declared.
  have hroot : ∀ {j e}, entry? (empty limit) j = some e →
      j = .root ∧ e = { kind := .root, path := [], parent := none } := by
    intro j e he
    rw [entry?_empty] at he
    by_cases hj : j = .root
    · subst hj
      rw [Function.update_self] at he
      exact ⟨rfl, (Option.some.inj he).symm⟩
    · rw [Function.update_of_ne hj] at he
      exact absurd he (Option.some_ne_none e).symm
  -- First the slots, then the tree, then the accounts.
  refine ⟨⟨List.nodup_nil, fun id => ?_⟩, ⟨?_, ?_, ?_, ?_⟩, ⟨?_, ?_, ?_, ?_⟩⟩
  · rw [entry?_empty]
    constructor
    · exact fun h => absurd h List.not_mem_nil
    · rintro ⟨hlt, hnone⟩
      have hid : id = .root := Nat.lt_one_iff.1 hlt
      subst hid
      rw [Function.update_self] at hnone
      exact absurd hnone (Option.some_ne_none _)
  · exact ⟨_, by rw [entry?_empty, Function.update_self], rfl, rfl, rfl⟩
  · intro p s name id hs hc
    obtain ⟨-, rfl⟩ := hroot hs
    exact absurd hc (Option.some_ne_none id).symm
  · intro id e he hne
    exact absurd (hroot he).1 hne
  · intro id e he hne
    exact absurd (hroot he).1 hne
  · intro id e d he
    obtain ⟨-, rfl⟩ := hroot he
    exact ⟨fun h => absurd h List.not_mem_nil, fun h => absurd h List.not_mem_nil⟩
  · intro id e he hne
    exact absurd (hroot he).1 hne
  · intro doc front x back h
    exact absurd h.symm (by simp)
  · intro doc
    exact List.nodup_nil

/-- The tables of the index without documents hold nothing. -/
theorem referenced_empty (limit : Nat) : (empty limit).Referenced where
  templates_proper := ReferrerTable.proper_empty
  extensions_proper := ExtensionTable.proper_empty
  constants_proper := CrossReferences.proper_empty
  handles_proper := CrossReferences.proper_empty
  templates _ _ := rfl
  extensions _ _ _ := rfl
  constants _ _ := ⟨fun h => absurd h List.not_mem_nil, fun ⟨_, hr, _⟩ => nomatch hr⟩
  handles _ _ := ⟨fun h => absurd h List.not_mem_nil, fun ⟨_, hr, _⟩ => nomatch hr⟩

/-- The index without documents is sound. -/
theorem sound_empty (limit : Nat) : (empty limit).Sound :=
  ⟨ordered_empty limit, referenced_empty limit, fun _ _ hr => nomatch hr⟩

/-! ## The records -/

/-- The ledger of a bound document is that of its record. -/
theorem ledger_eq {ix : Index} {doc : DocumentId} {r : Record} (h : ix.records.get? doc = some r) :
    ix.ledger doc = r.ledger := by
  unfold ledger
  rw [h, Option.elim_some]

/-- The ledger of a document that is not bound is empty. -/
theorem ledger_eq_nil {ix : Index} {doc : DocumentId} (h : ix.records.get? doc = none) :
    ix.ledger doc = [] := by
  unfold ledger
  rw [h, Option.elim_none]

/-- A new record puts its lines into the ledger. -/
theorem ledger_of_records_insert {ix ix' : Index} {doc : DocumentId} {r : Record}
    (h : ix'.records = ix.records.insert doc r) :
    ix'.ledger = Function.update ix.ledger doc r.ledger := by
  funext doc'
  unfold ledger
  rw [h, OrderedMap.get?_insert]
  by_cases hdoc : doc' = doc
  · rw [if_pos hdoc, hdoc, Function.update_self, Option.elim_some]
  · rw [if_neg hdoc, Function.update_of_ne hdoc]

/-- With its record a document loses its ledger. -/
theorem ledger_of_records_erase {ix ix' : Index} {doc : DocumentId}
    (h : ix'.records = ix.records.erase doc) : ix'.ledger = Function.update ix.ledger doc [] := by
  funext doc'
  unfold ledger
  rw [h, OrderedMap.get?_erase]
  by_cases hdoc : doc' = doc
  · rw [if_pos hdoc, hdoc, Function.update_self, Option.elim_none]
  · rw [if_neg hdoc, Function.update_of_ne hdoc]

/-- What is recorded with a new record. -/
theorem count_recorded_insert {α : Type} [BEq α] {ix ix' : Index} {doc : DocumentId} {r : Record}
    (hnew : ix.records.get? doc = none) (h : ix'.records = ix.records.insert doc r)
    (lines : Record → List α) (x : α) :
    (ix'.recorded lines).count x = (ix.recorded lines).count x + (lines r).count x := by
  unfold recorded
  rw [h, OrderedMap.values_insert hnew, List.flatMap_append, List.count_append,
    List.flatMap_singleton]

/-- What is recorded without a record. -/
theorem count_recorded_erase {α : Type} [BEq α] {ix ix' : Index} {doc : DocumentId} {r : Record}
    (hr : ix.records.get? doc = some r) (h : ix'.records = ix.records.erase doc)
    (lines : Record → List α) (x : α) :
    (ix'.recorded lines).count x = (ix.recorded lines).count x - (lines r).count x := by
  have hperm := ((OrderedMap.perm_values_erase hr).flatMap_right lines).count_eq x
  unfold recorded
  rw [h, hperm, List.flatMap_cons, List.count_append]
  exact (Nat.add_sub_cancel_left ..).symm

/-- Slots that did not change are still in order. -/
theorem Ordered.of_slots_eq {ix ix' : Index} {ledger : Ledger} (h : ix.Ordered ledger)
    (hslots : ix'.slots = ix.slots) (hfree : ix'.free = ix.free) : ix'.Ordered ledger := by
  have hview : ix'.entry? = ix.entry? := by
    funext j
    unfold entry?
    rw [hslots]
  refine ⟨⟨?_, fun id => ?_⟩, ?_, ?_⟩
  · rw [hfree]
    exact h.freeListed.nodup
  · rw [hfree, hslots, hview]
    exact h.freeListed.mem_free id
  · rw [hview]
    exact h.rooted
  · rw [hview]
    exact h.accounted

/-! ## Taking a document out -/

/-- What is left of an index, apart from its slots, when a document is taken out. -/
def withoutRecord (ix : Index) (doc : DocumentId) (r : Record) : Index :=
  { ix with
    records := ix.records.erase doc
    constants := ix.constants.removeAll doc r.constants
    handles := ix.handles.removeAll doc r.handles
    templates := ix.templates.releaseAll r.templates
    extensions := ix.extensions.releaseAll r.extensions }

/-- The tables without the references of a document hold what the other records say. -/
theorem Referenced.withoutRecord {ix : Index} (h : ix.Referenced) {doc : DocumentId} {r : Record}
    (hr : ix.records.get? doc = some r) : (ix.withoutRecord doc r).Referenced := by
  -- A declaration stays exactly if it stands in the record of another document.
  have hother : ∀ {lines : Record → List (String × ElementId)} {name : String} {d : Declaration},
      (∃ r', ix.records.get? d.document = some r' ∧ (name, d.element) ∈ lines r') ∧
        ¬ (d.document = doc ∧ (name, d.element) ∈ lines r) ↔
      ∃ r', (ix.records.erase doc).get? d.document = some r' ∧ (name, d.element) ∈ lines r' := by
    intro lines name d
    rw [OrderedMap.get?_erase]
    by_cases hd : d.document = doc
    · rw [if_pos hd, hd, hr]
      simp
    · rw [if_neg hd]
      simp [hd]
  refine ⟨h.templates_proper.releaseAll _, h.extensions_proper.releaseAll _,
    h.constants_proper.removeAll _ _, h.handles_proper.removeAll _ _, fun key id => ?_,
    fun file relative id => ?_, fun name d => ?_, fun name d => ?_⟩
  · rw [count_recorded_erase hr rfl, ← h.templates]
    exact ReferrerTable.count_releaseAll ..
  · rw [count_recorded_erase hr rfl, ← h.extensions]
    exact ExtensionTable.count_releaseAll ..
  · exact (CrossReferences.mem_declared_removeAll.trans
      (and_congr_left' (h.constants name d))).trans hother
  · exact (CrossReferences.mem_declared_removeAll.trans
      (and_congr_left' (h.handles name d))).trans hother

/-- Taking a bound document out of a sound index succeeds: the references of the document go, its
ledger is unwound, and the index stays sound. -/
theorem removeDocument_spec {ix : Index} (h : ix.Sound) {doc : DocumentId} {r : Record}
    (hr : ix.records.get? doc = some r) :
    ∃ ix', ix.removeDocument doc r = .ok ix' ∧
      (ix.withoutRecord doc r).Reslotted (unwound ix.entry? doc r.ledger) ix' ∧ ix'.Sound := by
  have hord : (ix.withoutRecord doc r).Ordered ix.ledger := h.ordered.of_slots_eq rfl rfl
  obtain ⟨ix', hdrop, hre, hord'⟩ := dropLedger_spec hord (ledger_eq hr)
  rw [ledger_eq hr] at hre
  have hrecords : ix'.records = ix.records.erase doc := by rw [hre.rest]; rfl
  refine ⟨ix', hdrop, hre, ⟨?_, ?_, fun doc' r' hr' => ?_⟩⟩
  · rw [ledger_of_records_erase hrecords]
    exact hord'
  · have href := h.referenced.withoutRecord hr
    rw [hre.rest]
    exact ⟨href.templates_proper, href.extensions_proper, href.constants_proper,
      href.handles_proper, href.templates, href.extensions, href.constants, href.handles⟩
  · rw [hrecords, OrderedMap.get?_erase] at hr'
    split at hr'
    next => exact absurd hr' (Option.some_ne_none r').symm
    next => exact h.closed doc' r' hr'

end Index

end LayoutMarkup
