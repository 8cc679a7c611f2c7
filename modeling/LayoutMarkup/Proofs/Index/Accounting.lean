import LayoutMarkup.Proofs.Index.Reading

/-!
# The accounts of the tables

What the tables of an index hold can be counted on the bound documents themselves. A record mirrors
its document (`Record.Mirrors`): each of its references is the `template` or the `file` of an
element that it binds, in the order of binding, and an extension is registered under the name that
its entry has in its file. Every step of a walk keeps this (`Walk.Follows.mirrors_visits`), and so
does every history (`mirrored_run`). With the soundness of the index it follows that an entry stands
in a table as often as there are bound elements that refer from it (`accounts_run`), and that the
extensions of an entry are exactly the other entries that reopen its file under its name.
-/

namespace LayoutMarkup

/-- The elements that a record binds, each with its entry. -/
def Record.boundElements (r : Record) (element? : ElementId → Option Element) :
    List (Element × EntryId) :=
  r.bindings.entries.filterMap fun x => (element? x.1).map (·, x.2)

/-- The values that bound elements give to an attribute, each with the entry of its element. -/
def attributeValues (key : String) (bound : List (Element × EntryId)) : List (String × EntryId) :=
  bound.filterMap fun x => (x.1.attributeValue? key).map (·, x.2)

/-- How often an attribute has a value on elements that are bound to an entry. -/
theorem count_attributeValues (key value : String) (id : EntryId)
    (bound : List (Element × EntryId)) : (attributeValues key bound).count (value, id) =
      bound.countP fun x => x.1.attributeValue? key = some value ∧ x.2 = id := by
  rw [attributeValues, List.count_eq_countP, List.countP_filterMap]
  refine List.countP_congr fun x _ => ?_
  cases x.1.attributeValue? key <;> simp

/-- The value of one more element comes last. -/
theorem attributeValues_concat (key : String) (bound : List (Element × EntryId)) (e : Element)
    (id : EntryId) : attributeValues key (bound ++ [(e, id)]) =
      attributeValues key bound ++ ((e.attributeValue? key).map (·, id)).toList := by
  rw [attributeValues, List.filterMap_append]
  cases h : e.attributeValue? key <;> simp [attributeValues, h]

/-! ## Records -/

/-- A record says what the elements that it names say: its references are those of the elements that
it binds, and its constants and handles are named by their elements. -/
structure Record.Mirrors (r : Record) (schema : Schema) (element? : ElementId → Option Element)
    (pathOf : EntryId → List String) : Prop where
  /-- What is bound is there. -/
  bound : ∀ x ∈ r.bindings.entries, ∃ e, element? x.1 = some e
  /-- The templates are those that bound elements name. -/
  templates : r.templates = attributeValues "template" (r.boundElements element?)
  /-- The extensions are those of bound elements, under the names of their entries. -/
  extensions : r.extensions = (attributeValues "file" (r.boundElements element?)).map fun x =>
    (x.1, Name.joinPath ((pathOf x.2).drop 1), x.2)
  /-- A constant is named by its element. -/
  constants : ∀ x ∈ r.constants, ∃ e, element? x.2 = some e ∧ e.kind schema = .constant ∧
    e.attributeValue? "name" = some x.1
  /-- A handle is named by its element. -/
  handles : ∀ x ∈ r.handles, ∃ e, element? x.2 = some e ∧ e.kind schema = .frameProperty ∧
    e.handle? schema = some x.1

namespace Record.Mirrors

variable {r : Record} {schema : Schema} {element? element?' : ElementId → Option Element}
  {pathOf pathOf' : EntryId → List String}

/-- A record mirrors more elements as well, and its entries may be read in any way that gives them
the same paths. -/
theorem congr (h : r.Mirrors schema element? pathOf)
    (hmore : ∀ {id e}, element? id = some e → element?' id = some e)
    (hpath : ∀ id ∈ r.bindings.values, pathOf' id = pathOf id) :
    r.Mirrors schema element?' pathOf' := by
  have hbound : r.boundElements element?' = r.boundElements element? := by
    refine List.filterMap_congr fun x hx => ?_
    obtain ⟨e, he⟩ := h.bound x hx
    rw [he, hmore he]
  refine ⟨fun x hx => ?_, ?_, ?_, fun x hx => ?_, fun x hx => ?_⟩
  · obtain ⟨e, he⟩ := h.bound x hx
    exact ⟨e, hmore he⟩
  · rw [hbound]
    exact h.templates
  · -- The file is named by a bound element, whose entry has the same path.
    rw [hbound, h.extensions]
    refine List.map_congr_left fun x hx => ?_
    obtain ⟨⟨e, id⟩, hmem, hvalue⟩ := List.mem_filterMap.1 hx
    obtain ⟨file, -, rfl⟩ := Option.map_eq_some_iff.1 hvalue
    obtain ⟨line, hline, hpair⟩ := List.mem_filterMap.1 hmem
    obtain ⟨e', -, heq⟩ := Option.map_eq_some_iff.1 hpair
    obtain ⟨-, rfl⟩ := Prod.mk.inj heq
    rw [hpath _ (List.mem_map_of_mem hline)]
  · obtain ⟨e, he, hkind⟩ := h.constants x hx
    exact ⟨e, hmore he, hkind⟩
  · obtain ⟨e, he, hkind⟩ := h.handles x hx
    exact ⟨e, hmore he, hkind⟩

/-- A record still mirrors its elements when one more of them is bound and its references are
noted. -/
theorem declare (h : r.Mirrors schema element? pathOf) {element : ElementId} {e : Element}
    (hkey : r.bindings.get? element = none) (he : element? element = some e) (id : EntryId) :
    Record.Mirrors { r with
      bindings := r.bindings.insert element id
      templates := r.templates ++ ((e.attributeValue? "template").map (·, id)).toList
      extensions := r.extensions ++ ((e.attributeValue? "file").map
        fun file => (file, Name.joinPath ((pathOf id).drop 1), id)).toList }
      schema element? pathOf := by
  have hentries := OrderedMap.entries_insert_of_get?_eq_none hkey id
  -- The new binding is the last one, so its element comes behind those bound before.
  have hbound : Record.boundElements { r with bindings := r.bindings.insert element id } element? =
      r.boundElements element? ++ [(e, id)] := by
    unfold Record.boundElements
    rw [hentries, List.filterMap_append]
    simp [he]
  refine ⟨fun x hx => ?_, ?_, ?_, h.constants, h.handles⟩
  · rw [hentries] at hx
    rcases List.mem_append.1 hx with hold | hnew
    · exact h.bound x hold
    · rw [List.mem_singleton.1 hnew]
      exact ⟨e, he⟩
  · show r.templates ++ _ = attributeValues "template"
      (Record.boundElements { r with bindings := r.bindings.insert element id } element?)
    rw [hbound, h.templates, attributeValues_concat]
  · show r.extensions ++ _ = (attributeValues "file"
      (Record.boundElements { r with bindings := r.bindings.insert element id } element?)).map _
    rw [hbound, h.extensions, attributeValues_concat, List.map_append]
    cases e.attributeValue? "file" <;> rfl

end Record.Mirrors

namespace Index

/-! ## Walks -/

namespace Walk

/-- The record of a walk mirrors the elements that were visited. -/
structure MirrorsAll (w : Walk) (schema : Schema) (done : List Element) : Prop where
  /-- There is a place for each of them. -/
  length : done.length = w.places.size
  /-- The record says what they say. -/
  record : w.record.Mirrors schema (done[·]?) w.index.pathOf

/-- A walk that leaves an element without touching record and index mirrors one more element. -/
theorem MirrorsAll.leave {w w₁ : Walk} {schema : Schema} {done : List Element}
    (h : w.MirrorsAll schema done) (hplaces : w₁.places = w.places) {e : Element}
    (hrecord : w₁.record.Mirrors schema ((done ++ [e])[·]?) w₁.index.pathOf)
    (place : Option Place) :
    (w₁.leave place).MirrorsAll schema (done ++ [e]) := by
  refine ⟨?_, hrecord⟩
  rw [size_leave, hplaces, List.length_append, h.length, List.length_singleton]

/-- The visit of an element keeps the record a mirror. -/
theorem Follows.mirrors_visits {ix : Index} {id : DocumentId} {w : Walk}
    (hw : w.Follows ix id w.places.size) {schema : Schema} {doc : Document} {done : List Element}
    (h : w.MirrorsAll schema done) {e : Element} {w' : Walk} (hw' : w.Visits schema id doc e w') :
    w'.MirrorsAll schema (done ++ [e]) := by
  -- The elements from before keep their places, and the visited one is the next.
  have hmore : ∀ {i : ElementId} {f}, done[i]? = some f → (done ++ [e])[i]? = some f := by
    intro i f hf
    obtain ⟨hi, -⟩ := List.getElem?_eq_some_iff.1 hf
    rw [List.getElem?_append_left hi, hf]
  have hlast : (done ++ [e])[w.places.size]? = some e := by
    rw [← h.length, List.getElem?_append_right (Nat.le_refl _), Nat.sub_self]
    rfl
  have hsame : w.record.Mirrors schema ((done ++ [e])[·]?) w.index.pathOf :=
    h.record.congr hmore fun _ _ => rfl
  cases hw' with
  -- Without a declaration the record stays as it is.
  | outside => exact h.leave rfl hsame none
  | within => exact h.leave rfl hsame _
  | unnamed => exact h.leave rfl hsame none
  | constant hplace hkind =>
    cases hname : e.attributeValue? "name" with
    | none => exact h.leave rfl hsame none
    | some name =>
      have hplaces : (w.addConstant ⟨id, w.places.size⟩ name).places = w.places := rfl
      have hrecord : (w.addConstant ⟨id, w.places.size⟩ name).record.Mirrors schema
          ((done ++ [e])[·]?) w.index.pathOf := by
        refine { hsame with constants := fun x hx => ?_ }
        rcases List.mem_append.1 hx with hold | hnew
        · exact hsame.constants x hold
        · rw [List.mem_singleton.1 hnew]
          exact ⟨e, hlast, hkind, hname⟩
      exact h.leave hplaces hrecord none
  | property hplace hkind =>
    cases hname : e.handle? schema with
    | none => exact h.leave rfl hsame none
    | some name =>
      have hplaces : (w.addHandle ⟨id, w.places.size⟩ name).places = w.places := rfl
      have hrecord : (w.addHandle ⟨id, w.places.size⟩ name).record.Mirrors schema
          ((done ++ [e])[·]?) w.index.pathOf := by
        refine { hsame with handles := fun x hx => ?_ }
        rcases List.mem_append.1 hx with hold | hnew
        · exact hsame.handles x hold
        · rw [List.mem_singleton.1 hnew]
          exact ⟨e, hlast, hkind, hname⟩
      exact h.leave hplaces hrecord none
  | @declares place kind name index entry v' hplace hkind hdeclares hname hd hre =>
    -- Entries from before keep their paths, and the element is bound for the first time.
    have hkeep : ∀ j ∈ w.record.bindings.values, index.pathOf j = w.index.pathOf j := by
      intro j hj
      obtain ⟨line, hline, rfl⟩ := List.mem_map.1 hj
      exact hw.pathOf_of_declares hd hre (List.mem_map_of_mem (List.mem_cons_of_mem _ hline))
    have hkey : w.record.bindings.get? w.places.size = none := OrderedMap.get?_eq_none_iff.2
      fun hmem => absurd (hw.bindings _ hmem) (Nat.lt_irrefl _)
    refine h.leave (places_declared ..) ?_ _
    rw [pathOf_declared, record_declared]
    exact (h.record.congr hmore hkeep).declare hkey hlast entry

end Walk

/-- Binding a document that is not bound gives a record that mirrors it. -/
theorem bind_mirrors {ix : Index} (h : ix.Sound) (schema : Schema) {id : DocumentId}
    (hnew : ix.records.get? id = none) (doc : Document) :
    ∃ w : Walk, ix.bind schema id doc = .ok (w.sealed id, w.record.file) ∧
      w.Follows ix id w.places.size ∧ w.record.Mirrors schema doc.get? w.index.pathOf := by
  obtain ⟨w, hadd, hw, hmirrors⟩ := addDocument_spec h schema hnew doc
    (P := fun done w => w.MirrorsAll schema done)
    (fun _ _ => ⟨rfl, ⟨fun _ hx => absurd hx List.not_mem_nil, rfl, rfl,
      fun _ hx => absurd hx List.not_mem_nil, fun _ hx => absurd hx List.not_mem_nil⟩⟩)
    (fun hw hdone hvisits => hw.mirrors_visits hdone hvisits)
  refine ⟨w, ?_, hw, hmirrors.record.congr (fun hget => ?_) fun _ _ => rfl⟩
  · unfold bind
    rw [hnew]
    dsimp only
    rw [hadd]
    rfl
  · rw [Document.get?, ← Array.getElem?_toList]
    exact hget

/-! ## Histories -/

/-- The records of an index mirror the documents that are held. -/
structure Mirrored (ix : Index) (held : OrderedMap DocumentId Holding) : Prop where
  /-- The documents that are held are those that are bound. -/
  bound : ∀ id, held.get? id = none ↔ ix.records.get? id = none
  /-- The record of a document mirrors it. -/
  mirrors : ∀ {id r b}, ix.records.get? id = some r → held.get? id = some b →
    r.Mirrors b.schema b.doc.get? ix.pathOf

/-- A bound document is held. -/
theorem Mirrored.exists_held {ix : Index} {held : OrderedMap DocumentId Holding}
    (h : ix.Mirrored held) {id : DocumentId} {r : Record} (hr : ix.records.get? id = some r) :
    ∃ b, held.get? id = some b ∧ r.Mirrors b.schema b.doc.get? ix.pathOf := by
  cases hb : held.get? id with
  | none =>
    rw [(h.bound id).1 hb] at hr
    exact absurd hr (Option.some_ne_none r).symm
  | some b => exact ⟨b, rfl, h.mirrors hr hb⟩

/-- That a record mirrors its document is lasting. -/
theorem lasting_mirrors : Lasting fun r b pathOf => r.Mirrors b.schema b.doc.get? pathOf where
  congr := fun r b _ _ h hpath => by
    refine h.congr (fun he => he) fun j hj => hpath j ?_
    obtain ⟨line, hline, rfl⟩ := List.mem_map.1 hj
    exact List.mem_map_of_mem (List.mem_cons_of_mem _ hline)
  bind := fun _ _ b h hnew => bind_mirrors h b.schema hnew b.doc

/-- After every history the records mirror the documents that are held. -/
theorem mirrored_run (limit : Nat) (commands : List Command) :
    (run limit commands).Mirrored (held commands) where
  bound := (holds_run limit commands).bound
  mirrors := fun {id r b} => lasting_mirrors.recorded_run limit commands id r b

/-! ## Accounts -/

/-- The elements that are bound, each with its entry. -/
def boundElements (ix : Index) (held : OrderedMap DocumentId Holding) : List (Element × EntryId) :=
  ix.records.entries.flatMap fun x =>
    x.2.boundElements fun element => (held.get? x.1).bind (·.doc.get? element)

/-- The number of elements that are bound to an entry and give a value to an attribute. -/
def referring (ix : Index) (held : OrderedMap DocumentId Holding) (key value : String)
    (id : EntryId) : Nat :=
  (ix.boundElements held).countP fun x => x.1.attributeValue? key = some value ∧ x.2 = id

/-- The number of registrations as it stands in a table: what is not registered is not there. -/
def registered (n : Nat) : Option Nat :=
  if n = 0 then none else some n

end Index

/-- A map that is not empty has keys. -/
theorem OrderedMap.keys_ne_nil {κ ν : Type} {m : OrderedMap κ ν} (h : m.isEmpty = false) :
    m.keys ≠ [] := by
  intro hnil
  rw [OrderedMap.isEmpty, List.map_eq_nil_iff.1 hnil] at h
  exact Bool.noConfusion h

/-- An entry stands under a key with the number of its registrations. -/
theorem Referrers.Proper.get?_eq {r : Referrers} (hr : r.Proper) (id : EntryId) :
    r.get? id = Index.registered (r.count id) := by
  unfold Referrers.count Index.registered
  cases h : r.get? id with
  | none => rfl
  | some count =>
    have hpos := hr id count h
    rw [Option.getD_some, if_neg (by omega)]

/-- An entry stands in a table with the number of its registrations. -/
theorem ReferrerTable.Proper.get?_eq {t : ReferrerTable} (ht : t.Proper) (key : String)
    (id : EntryId) : (t.get? key).bind (·.get? id) = Index.registered (t.count key id) := by
  unfold ReferrerTable.count ReferrerTable.under
  cases h : t.get? key with
  | none => rfl
  | some r => exact (ht key r h).2.get?_eq id

/-- An entry stands in a table of extensions with the number of its registrations. -/
theorem ExtensionTable.Proper.get?_eq {t : ExtensionTable} (ht : t.Proper) (file relative : String)
    (id : EntryId) : (t.referrers? file relative).bind (·.get? id) =
      Index.registered (t.count file relative id) := by
  unfold ExtensionTable.count ExtensionTable.under ExtensionTable.referrers?
  cases h : t.get? file with
  | none => rfl
  | some names => exact (ht file names h).2.get?_eq relative id

/-- A name stands in a table exactly with its declarations. -/
theorem CrossReferences.exists_mem_iff {t : CrossReferences} {name : String} {d : Declaration} :
    (∃ s, t.get? name = some s ∧ d ∈ s) ↔ d ∈ t.declared name := by
  unfold CrossReferences.declared
  cases t.get? name with
  | none =>
    rw [Option.getD_none]
    constructor
    · rintro ⟨s, hs, -⟩
      exact absurd hs (Option.some_ne_none s).symm
    · exact fun hd => absurd hd List.not_mem_nil
  | some s => simp

namespace Index

variable {ix : Index} {held : OrderedMap DocumentId Holding}

/-- What all records bind is what each of them binds in its document. -/
theorem Mirrored.recorded_eq (hm : ix.Mirrored held) {α : Type} {lines : Record → List α}
    {f : Element × EntryId → Option α}
    (hlines : ∀ {r : Record} {b : Holding}, r.Mirrors b.schema b.doc.get? ix.pathOf →
      lines r = (r.boundElements b.doc.get?).filterMap f) :
    ix.recorded lines = (ix.boundElements held).filterMap f := by
  unfold recorded boundElements OrderedMap.values
  rw [List.flatMap_map, List.filterMap_flatMap]
  refine List.flatMap_congr fun x hx => ?_
  obtain ⟨b, hb, hmirrors⟩ := hm.exists_held (OrderedMap.get?_eq_some_iff.2 hx)
  rw [hlines hmirrors, hb]
  rfl

/-- An entry is registered under a template as often as bound elements name the template. -/
theorem Mirrored.count_templates (hm : ix.Mirrored held) (h : ix.Sound) (key : String)
    (id : EntryId) : ix.templates.count key id = ix.referring held "template" key id := by
  rw [h.referenced.templates, referring, ← count_attributeValues,
    hm.recorded_eq fun hmirrors => hmirrors.templates]
  rfl

/-- An entry is registered as an extension under the name it has in its file, as often as bound
elements name the file that is extended. -/
theorem Mirrored.count_extensions (hm : ix.Mirrored held) (h : ix.Sound) (file relative : String)
    (id : EntryId) : ix.extensions.count file relative id =
      if relative = ix.relativeName id then ix.referring held "file" file id else 0 := by
  have hrecorded : ix.recorded Record.extensions =
      (attributeValues "file" (ix.boundElements held)).map fun x =>
        (x.1, ix.relativeName x.2, x.2) := by
    rw [attributeValues, List.map_filterMap]
    exact hm.recorded_eq fun hmirrors => by
      rw [hmirrors.extensions, attributeValues, List.map_filterMap]
      rfl
  rw [h.referenced.extensions, hrecorded, List.count_eq_countP, List.countP_map, referring,
    ← count_attributeValues, List.count_eq_countP]
  by_cases hrel : relative = ix.relativeName id
  · rw [if_pos hrel]
    refine List.countP_congr fun x _ => ?_
    simp only [Function.comp, beq_iff_eq, Prod.mk.injEq]
    constructor
    · rintro ⟨hfile, -, hid⟩
      exact Prod.ext hfile hid
    · rintro rfl
      exact ⟨rfl, hrel.symm, rfl⟩
  · -- Elements register an entry under one name only, that in its file.
    rw [if_neg hrel, List.countP_eq_zero]
    intro x _
    simp only [Function.comp, beq_iff_eq, Prod.mk.injEq]
    rintro ⟨-, hname, rfl⟩
    exact hrel hname.symm

/-- Only entries that are there are bound. -/
theorem Sound.exists_entry_of_bound (h : ix.Sound) {doc : DocumentId} {r : Record}
    (hr : ix.records.get? doc = some r) {id : EntryId} (hid : id ∈ r.bindings.values) :
    ∃ e, ix.entry? id = some e := by
  obtain ⟨line, hline, rfl⟩ := List.mem_map.1 hid
  have hmem : line ∈ ix.ledger doc := by
    rw [ledger_eq hr]
    exact List.mem_cons_of_mem _ hline
  obtain ⟨e, -, he, -⟩ := h.ordered.accounted.exists_entry hmem
  exact ⟨e, he⟩

/-- A bound element has an entry. -/
theorem Sound.exists_entry_of_boundElements (h : ix.Sound) {e : Element} {id : EntryId}
    (hbound : (e, id) ∈ ix.boundElements held) : ∃ f, ix.entry? id = some f := by
  obtain ⟨⟨doc, r⟩, hr, hmem⟩ := List.mem_flatMap.1 hbound
  obtain ⟨line, hline, hpair⟩ := List.mem_filterMap.1 hmem
  obtain ⟨e', -, heq⟩ := Option.map_eq_some_iff.1 hpair
  obtain ⟨-, rfl⟩ := Prod.mk.inj heq
  exact h.exists_entry_of_bound (OrderedMap.get?_eq_some_iff.2 hr) (List.mem_map_of_mem hline)

/-- Only entries that are there are registered under a template. -/
theorem Sound.exists_entry_of_template (h : ix.Sound) {key : String} {r : Referrers}
    (hr : ix.templates.get? key = some r) {id : EntryId} (hid : id ∈ r.keys) :
    ∃ e, ix.entry? id = some e := by
  have hpos := h.referenced.templates_proper.exists_mem_keys_iff.1 ⟨r, hr, hid⟩
  rw [h.referenced.templates, List.count_pos_iff, mem_recorded_iff] at hpos
  obtain ⟨doc, record, hrecord, hmem⟩ := hpos
  exact h.exists_entry_of_bound hrecord ((h.closed doc record hrecord).templates _ hmem)

/-- Only entries that are there are registered as extensions. -/
theorem Sound.exists_entry_of_extension (h : ix.Sound) {file relative : String} {r : Referrers}
    (hr : ix.extensions.referrers? file relative = some r) {id : EntryId} (hid : id ∈ r.keys) :
    ∃ e, ix.entry? id = some e := by
  have hpos := h.referenced.extensions_proper.exists_mem_keys_iff.1 ⟨r, hr, hid⟩
  rw [h.referenced.extensions, List.count_pos_iff, mem_recorded_iff] at hpos
  obtain ⟨doc, record, hrecord, hmem⟩ := hpos
  exact h.exists_entry_of_bound hrecord ((h.closed doc record hrecord).extensions _ hmem)

/-- The extensions of an entry are the other entries with a registration under its file and name. -/
theorem Sound.mem_extensionsOf (h : ix.Sound) {id other : EntryId} :
    other ∈ ix.extensionsOf id ↔ other ≠ id ∧ ∃ file, (ix.pathOf id).head? = some file ∧
      0 < ix.extensions.count file (ix.relativeName id) other := by
  unfold extensionsOf
  cases (ix.pathOf id).head? with
  | none => simp
  | some file =>
    dsimp only
    rw [List.mem_filter, decide_eq_true_iff, and_comm]
    simp only [Option.some.injEq, exists_eq_left',
      ← h.referenced.extensions_proper.exists_mem_keys_iff]
    cases ix.extensions.referrers? file (ix.relativeName id) <;> simp

/-- The extensions of an entry are there. -/
theorem Sound.entry?_of_mem_extensionsOf (h : ix.Sound) {id other : EntryId}
    (hother : other ∈ ix.extensionsOf id) : ix.entry? other ≠ none := by
  obtain ⟨-, file, -, hpos⟩ := h.mem_extensionsOf.1 hother
  obtain ⟨r, hr, hmem⟩ := h.referenced.extensions_proper.exists_mem_keys_iff.2 hpos
  obtain ⟨e, he⟩ := h.exists_entry_of_extension hr hmem
  rw [he]
  exact Option.some_ne_none e

/-- A bound element is counted. -/
theorem referring_pos_iff {key value : String} {id : EntryId} :
    0 < ix.referring held key value id ↔
      ∃ e, (e, id) ∈ ix.boundElements held ∧ e.attributeValue? key = some value := by
  unfold referring
  rw [List.countP_pos_iff]
  constructor
  · rintro ⟨⟨e, j⟩, hmem, hx⟩
    obtain ⟨hvalue, rfl⟩ := of_decide_eq_true hx
    exact ⟨e, hmem, hvalue⟩
  · rintro ⟨e, hmem, hvalue⟩
    exact ⟨(e, id), hmem, decide_eq_true ⟨hvalue, rfl⟩⟩

/-- The extensions of an entry are the other entries that have its name in their file and a bound
element whose `file` is the file of the entry. -/
theorem Mirrored.mem_extensionsOf (hm : ix.Mirrored held) (h : ix.Sound) {id other : EntryId} :
    other ∈ ix.extensionsOf id ↔ other ≠ id ∧ ix.relativeName other = ix.relativeName id ∧
      ∃ file e, (ix.pathOf id).head? = some file ∧ (e, other) ∈ ix.boundElements held ∧
        e.attributeValue? "file" = some file := by
  rw [h.mem_extensionsOf]
  refine and_congr_right fun _ => ?_
  constructor
  · rintro ⟨file, hfile, hpos⟩
    rw [hm.count_extensions h] at hpos
    split at hpos
    next hname =>
      obtain ⟨e, hmem, hvalue⟩ := referring_pos_iff.1 hpos
      exact ⟨hname.symm, file, e, hfile, hmem, hvalue⟩
    next => exact absurd hpos (Nat.lt_irrefl 0)
  · rintro ⟨hname, file, e, hfile, hmem, hvalue⟩
    refine ⟨file, hfile, ?_⟩
    rw [hm.count_extensions h, if_pos hname.symm]
    exact referring_pos_iff.2 ⟨e, hmem, hvalue⟩

/-- No entry is listed twice among the extensions of another. -/
theorem nodup_extensionsOf (ix : Index) (id : EntryId) : (ix.extensionsOf id).Nodup := by
  unfold extensionsOf
  cases (ix.pathOf id).head? with
  | none => exact List.nodup_nil
  | some file =>
    refine List.Nodup.filter _ ?_
    cases ix.extensions.referrers? file (ix.relativeName id) with
    | none => exact List.nodup_nil
    | some r => exact r.nodup

/-- The tables of an index and the bound documents agree. -/
structure Accounts (ix : Index) (held : OrderedMap DocumentId Holding) : Prop where
  /-- A document with a record is held, and the elements that are bound stand in it. -/
  bound : ∀ {doc r}, ix.records.get? doc = some r → ∃ b, held.get? doc = some b ∧
    ∀ element ∈ r.bindings.keys, ∃ e, b.doc.get? element = some e
  /-- An entry is registered under a template once for each element that is bound to it and names
  the template. -/
  templates : ∀ key id, (ix.templates.get? key).bind (·.get? id) =
    registered (ix.referring held "template" key id)
  /-- An entry is registered as an extension once for each element that is bound to it and names the
  file, under the name that the entry has in its own file, and under no other name. -/
  extensions : ∀ file relative id, (ix.extensions.referrers? file relative).bind (·.get? id) =
    registered (if relative = ix.relativeName id then ix.referring held "file" file id else 0)
  /-- Every template in the table has referrers, and they are entries. -/
  templates_filled : ∀ {key r}, ix.templates.get? key = some r →
    r.keys ≠ [] ∧ ∀ id ∈ r.keys, ∃ e, ix.entry? id = some e
  /-- Every file in the table has names, every name has extensions, and they are entries. -/
  extensions_filled : ∀ {file names}, ix.extensions.get? file = some names →
    names.keys ≠ [] ∧ ∀ {relative r}, names.get? relative = some r →
      r.keys ≠ [] ∧ ∀ id ∈ r.keys, ∃ e, ix.entry? id = some e
  /-- Under the name of a constant stand the elements that bound documents register there. -/
  constants : ∀ name d, (∃ s, ix.constants.get? name = some s ∧ d ∈ s) ↔
    ∃ r, ix.records.get? d.document = some r ∧ (name, d.element) ∈ r.constants
  /-- Under the name of a handle stand the elements that bound documents register there. -/
  handles : ∀ name d, (∃ s, ix.handles.get? name = some s ∧ d ∈ s) ↔
    ∃ r, ix.records.get? d.document = some r ∧ (name, d.element) ∈ r.handles
  /-- No name stands for nothing. -/
  names_filled : ∀ {name s}, ix.constants.get? name = some s ∨ ix.handles.get? name = some s →
    ∃ d, d ∈ s
  /-- What is registered as a constant or as a handle is an element with that name. -/
  names : ∀ {doc r b}, ix.records.get? doc = some r → held.get? doc = some b →
    (∀ x ∈ r.constants, ∃ e, b.doc.get? x.2 = some e ∧ e.kind b.schema = .constant ∧
      e.attributeValue? "name" = some x.1) ∧
    ∀ x ∈ r.handles, ∃ e, b.doc.get? x.2 = some e ∧ e.kind b.schema = .frameProperty ∧
      e.handle? b.schema = some x.1
  /-- The extensions of an entry are, each once, the other entries that have its name in their file
  and a bound element that names the file of the entry. -/
  extensionsOf : ∀ id, (ix.extensionsOf id).Nodup ∧ ∀ other, other ∈ ix.extensionsOf id ↔
    (∃ e, ix.entry? other = some e) ∧ other ≠ id ∧ ix.relativeName other = ix.relativeName id ∧
      ∃ file e, (ix.pathOf id).head? = some file ∧ (e, other) ∈ ix.boundElements held ∧
        e.attributeValue? "file" = some file

/-- After every history the tables count the bound elements: an entry is registered under a template
or as an extension exactly as often as elements that are bound to it say so, nothing in a table is
empty or points to no entry, and the extensions of an entry are the entries that reopen it. -/
theorem accounts_run (limit : Nat) (commands : List Command) :
    (run limit commands).Accounts (Index.held commands) := by
  -- The tables agree with the records, and the records with the documents.
  have h := sound_run limit commands
  have hm := mirrored_run limit commands
  have href := h.referenced
  exact
    { bound := fun hr => by
        obtain ⟨b, hb, hmirrors⟩ := hm.exists_held hr
        refine ⟨b, hb, fun element hmem => ?_⟩
        obtain ⟨line, hline, rfl⟩ := List.mem_map.1 hmem
        exact hmirrors.bound line hline
      templates := fun key id => by rw [href.templates_proper.get?_eq, hm.count_templates h]
      extensions := fun file relative id => by
        rw [href.extensions_proper.get?_eq, hm.count_extensions h]
      templates_filled := fun {key r} hr =>
        ⟨OrderedMap.keys_ne_nil (href.templates_proper key r hr).1,
          fun id hid => h.exists_entry_of_template hr hid⟩
      extensions_filled := fun {file names} hnames => by
        obtain ⟨hfilled, hproper⟩ := href.extensions_proper file names hnames
        refine ⟨OrderedMap.keys_ne_nil hfilled, fun {relative r} hr => ?_⟩
        have hreferrers : (run limit commands).extensions.referrers? file relative = some r := by
          rw [ExtensionTable.referrers?, hnames, Option.bind_some, hr]
        exact ⟨OrderedMap.keys_ne_nil (hproper relative r hr).1,
          fun id hid => h.exists_entry_of_extension hreferrers hid⟩
      constants := fun name d => CrossReferences.exists_mem_iff.trans (href.constants name d)
      handles := fun name d => CrossReferences.exists_mem_iff.trans (href.handles name d)
      names_filled := fun {name s} hs => by
        rcases hs with hs | hs
        · exact OrderedSet.isEmpty_eq_false_iff.1 (href.constants_proper name s hs).1
        · exact OrderedSet.isEmpty_eq_false_iff.1 (href.handles_proper name s hs).1
      names := fun hr hb => ⟨(hm.mirrors hr hb).constants, (hm.mirrors hr hb).handles⟩
      extensionsOf := fun id => by
        refine ⟨nodup_extensionsOf _ id, fun other => ?_⟩
        rw [hm.mem_extensionsOf h]
        refine ⟨fun hall => ⟨?_, hall⟩, And.right⟩
        -- Who extends something is bound to by an element, so it is there.
        obtain ⟨-, -, file, e, -, hbound, -⟩ := hall
        exact h.exists_entry_of_boundElements hbound }

end Index

end LayoutMarkup
