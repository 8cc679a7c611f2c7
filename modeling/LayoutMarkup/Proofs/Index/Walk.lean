import LayoutMarkup.Proofs.Index.Soundness

/-!
# Walking through a document

Binding visits the elements of a document one after another. `Walk.Follows` is what holds between
two visits, whatever the document: the slots are in order, with the lines of the record as the
ledger of the document; unwinding these lines gives the entries from before; and the tables are
those from before with the references of the record on top. A visit never fails and does one of the
things that `Walk.Visits` lists (`Walk.visit_spec`), each of which keeps this
(`Walk.Follows.visits`). So adding a document that is not bound never fails (`addDocument_spec`) and
leaves a sound index (`Walk.Follows.sound`).
-/

namespace LayoutMarkup

/-- Only frames, animations and groups of states get entries. -/
theorem EntryKind.ofNodeKind?_eq_some {kind : NodeKind} {entryKind : EntryKind}
    (h : EntryKind.ofNodeKind? kind = some entryKind) :
    entryKind.isScope = false ∧ entryKind ≠ .undeclared := by
  cases kind <;> cases h <;> decide

namespace Index

/-! ## Steps in one piece -/

/-- Where the first declaration of a document goes. -/
theorem beginBinding_eq (ix : Index) (id : DocumentId) (doc : Document) :
    ix.beginBinding id doc = (do
      let (ix, file) ← ix.declareIn ⟨id, .root⟩ .root doc.name .file
      return { index := ix, record := { file, text := doc.text } }) := by
  unfold beginBinding declareIn
  cases ix.child .root doc.name .file with
  | error fault => rfl
  | ok p =>
    obtain ⟨ix', file⟩ := p
    dsimp only [ok_bind]
    cases ix'.adjust file fun e => { e with declarations := e.declarations.insert ⟨id, .root⟩ } with
    | error fault => rfl
    | ok ix'' => rfl

namespace Walk

/-- The walk with an element bound to an entry of a new index, and with its references. -/
def declared (w : Walk) (d : Declaration) (e : Element) (index : Index) (id : EntryId) : Walk :=
  let w := { w with
    index
    record := { w.record with bindings := w.record.bindings.insert d.element id } }
  let w := (e.attributeValue? "file").elim w (w.addExtension id)
  (e.attributeValue? "template").elim w (w.addTemplate id)

/-- After a visit one more place is noted. -/
theorem size_leave (w : Walk) (place : Option Place) :
    (w.leave place).places.size = w.places.size + 1 :=
  Array.size_push ..

/-- Binding an element does not touch the places. -/
theorem places_declared (w : Walk) (d : Declaration) (e : Element) (index : Index) (id : EntryId) :
    (w.declared d e index id).places = w.places := by
  unfold declared
  dsimp only
  cases e.attributeValue? "file" <;> cases e.attributeValue? "template" <;> rfl

/-- Binding an element that has a name. -/
theorem declare_eq {w : Walk} {d : Declaration} {e : Element} {scope : EntryId} {kind : EntryKind}
    {name : String} (hname : w.index.nameFor? scope e = .ok (some name)) {index : Index}
    {id : EntryId} (hd : w.index.declareIn d scope name kind = .ok (index, id)) :
    w.declare d e scope kind = .ok (some (w.declared d e index id, id)) := by
  -- Declaring the name does the same, but also notes the binding in the record.
  have hadd : w.addDeclaration d scope name kind = .ok ({ w with
      index
      record := { w.record with bindings := w.record.bindings.insert d.element id } }, id) := by
    unfold declareIn at hd
    unfold addDeclaration
    cases hc : w.index.child scope name kind with
    | error fault =>
      rw [hc] at hd
      cases hd
    | ok p =>
      obtain ⟨ix', id'⟩ := p
      rw [hc, ok_bind] at hd
      dsimp only [ok_bind] at hd ⊢
      -- Both adjust the same entry, and fail only if that does.
      cases ha : ix'.adjust id' fun e => { e with declarations := e.declarations.insert d } with
      | error fault =>
        rw [ha] at hd
        cases hd
      | ok ix'' =>
        rw [ha] at hd
        cases hd
        rfl
  unfold declare
  rw [hname, ok_bind]
  dsimp only
  rw [hadd]
  rfl

/-- An element without a name is left out. -/
theorem declare_eq_none {w : Walk} {d : Declaration} {e : Element} {scope : EntryId}
    {kind : EntryKind} (hname : w.index.nameFor? scope e = .ok none) :
    w.declare d e scope kind = .ok none := by
  unfold declare
  rw [hname]
  rfl

end Walk

/-- In a scope that is there the search for a name succeeds. -/
theorem nameFor?_eq_ok {ix : Index} {scope : EntryId} {s : Entry} (hs : ix.entry? scope = some s)
    (e : Element) : ∃ name, ix.nameFor? scope e = .ok name := by
  unfold nameFor?
  cases e.attributeValue? "name" with
  | some name => exact ⟨some name, rfl⟩
  | none =>
    rw [entry_eq hs]
    exact ⟨_, rfl⟩

/-! ## A new line in a ledger -/

/-- A declaration in a scope that is open for a document puts a new last line into the ledger of the
document, and the ledger with that line unwinds to the same entries as before. -/
theorem Ordered.line {ix ix' : Index} {ledger : Ledger} {doc : DocumentId}
    {lines : List (ElementId × EntryId)} (h : ix.Ordered (Function.update ledger doc lines))
    {element : ElementId} {scope id : EntryId} {name : String} {kind : EntryKind} {v' : Entries}
    (hd : Entries.Declares ix.entry? ⟨doc, element⟩ scope name kind id v')
    (hre : ix.Reslotted v' ix') (hopen : Ledger.Opens lines scope)
    (hkind : scope = .root ∧ kind = .file ∨
      scope ≠ .root ∧ kind.isScope = false ∧ kind ≠ .undeclared)
    (hfresh : ∀ {id e}, ix.entry? id = some e → (element, id) ∈ lines → e.parent ≠ some scope) :
    ix'.Ordered (Function.update ledger doc (lines ++ [(element, id)])) ∧
      unwound ix'.entry? doc (lines ++ [(element, id)]) = unwound ix.entry? doc lines := by
  obtain ⟨s', e', hs', he', hp', -⟩ := hd.exists_entry h.rooted
  have hlines : Function.update ledger doc lines doc = lines := Function.update_self ..
  -- The element does not declare the entry yet, since the entry is in the scope.
  have hnew : (element, id) ∉ lines := by
    intro hmem
    obtain ⟨e, p, he, hp⟩ := h.accounted.exists_entry (hlines.symm ▸ hmem)
    obtain ⟨f, hf, hlinks⟩ := hd.exists_sameLinks he
    rw [he'] at hf
    cases hf
    exact hfresh he hmem (hlinks.parent ▸ hp')
  have h' := h.declares hd hre hkind (hlines.symm ▸ hopen) (hlines.symm ▸ hnew)
  rw [hlines, Function.update_idem] at h'
  refine ⟨h', ?_⟩
  -- The new line is the first one to be unwound.
  have hback : Entries.undeclared ix'.entry? ⟨doc, element⟩ id = ix.entry? := by
    rw [hre.view]
    refine Entries.undeclared_of_declares hd fun e he => ⟨fun hmem => ?_, ?_⟩
    · have hline := (h.accounted.declared he).1 hmem
      rw [hlines] at hline
      exact hnew hline
    · rw [← hre.view] at he'
      exact OrderedSet.isEmpty_eq_false_iff.2 (h.accounted.kept he (h'.rooted.ne_root he' hp'))
  rw [unwound, List.foldr_append, List.foldr_cons, List.foldr_nil, hback]
  rfl

namespace Walk

/-- What holds of a walk through a document that began at an index, when some of its elements have
been visited. -/
structure Follows (ix : Index) (doc : DocumentId) (visited : Nat) (w : Walk) : Prop where
  /-- The record is the ledger of the document. -/
  ordered : w.index.Ordered (Function.update ix.ledger doc w.record.ledger)
  /-- Without the lines of the record the entries are those from before. -/
  unwinds : unwound w.index.entry? doc w.record.ledger = ix.entry?
  /-- The records of the other documents stay. -/
  records : w.index.records = ix.records
  /-- The limit for numbered names stays. -/
  nameLimit : w.index.nameLimit = ix.nameLimit
  /-- Declarations go only to entries of the document. -/
  places : ∀ p, some p ∈ w.places → p.scope ∈ w.record.ledger.map Prod.snd
  /-- Only elements that were visited are bound. -/
  bindings : ∀ element ∈ w.record.bindings.keys, element < visited
  /-- The references in the record are those of entries it binds. -/
  closed : w.record.Closed
  /-- The table of templates has grown by the record. -/
  templates : w.index.templates = ix.templates.acquireAll w.record.templates
  /-- The table of extensions has grown by the record. -/
  extensions : w.index.extensions = ix.extensions.acquireAll w.record.extensions
  /-- The table of constants has grown by the record. -/
  constants : w.index.constants = ix.constants.addAll doc w.record.constants
  /-- The table of handles has grown by the record. -/
  handles : w.index.handles = ix.handles.addAll doc w.record.handles
  /-- Every constant is declared once. -/
  constants_nodup : w.record.constants.Nodup
  /-- Every handle is declared once. -/
  handles_nodup : w.record.handles.Nodup
  /-- Only elements that were visited declare constants. -/
  constants_lt : ∀ x ∈ w.record.constants, x.2 < visited
  /-- Only elements that were visited declare handles. -/
  handles_lt : ∀ x ∈ w.record.handles, x.2 < visited

variable {ix : Index} {doc : DocumentId} {visited : Nat} {w : Walk}

/-- An element may be visited without effect. -/
theorem Follows.skip (h : w.Follows ix doc visited) : w.Follows ix doc (visited + 1) :=
  { h with
    bindings := fun element he => Nat.lt_succ_of_lt (h.bindings element he)
    constants_lt := fun x hx => Nat.lt_succ_of_lt (h.constants_lt x hx)
    handles_lt := fun x hx => Nat.lt_succ_of_lt (h.handles_lt x hx) }

/-- After a visit the place of the element is noted. -/
theorem Follows.leave (h : w.Follows ix doc visited) {place : Option Place}
    (hp : ∀ p, place = some p → p.scope ∈ w.record.ledger.map Prod.snd) :
    (w.leave place).Follows ix doc visited :=
  { h with
    places := fun p hmem => by
      rcases Array.mem_push.1 hmem with hold | hnew
      · exact h.places p hold
      · exact hp p hnew.symm }

/-- A constant is registered. -/
theorem Follows.addConstant (h : w.Follows ix doc visited) (name : String) :
    (w.addConstant ⟨doc, visited⟩ name).Follows ix doc (visited + 1) :=
  { h.skip with
    ordered := h.ordered.of_slots_eq rfl rfl
    closed := ⟨h.closed.templates, h.closed.extensions⟩
    constants := by
      show w.index.constants.add name ⟨doc, visited⟩ =
        ix.constants.addAll doc (w.record.constants ++ [(name, visited)])
      rw [h.constants, CrossReferences.addAll, CrossReferences.addAll, List.foldl_append]
      rfl
    constants_nodup := OrderedSet.nodup_append_new h.constants_nodup
      fun hmem => absurd (h.constants_lt _ hmem) (Nat.lt_irrefl visited)
    constants_lt := fun x hx => by
      rcases List.mem_append.1 hx with hold | hnew
      · exact Nat.lt_succ_of_lt (h.constants_lt x hold)
      · rw [List.mem_singleton.1 hnew]
        exact Nat.lt_succ_self visited }

/-- A handle is registered. -/
theorem Follows.addHandle (h : w.Follows ix doc visited) (name : String) :
    (w.addHandle ⟨doc, visited⟩ name).Follows ix doc (visited + 1) :=
  { h.skip with
    ordered := h.ordered.of_slots_eq rfl rfl
    closed := ⟨h.closed.templates, h.closed.extensions⟩
    handles := by
      show w.index.handles.add name ⟨doc, visited⟩ =
        ix.handles.addAll doc (w.record.handles ++ [(name, visited)])
      rw [h.handles, CrossReferences.addAll, CrossReferences.addAll, List.foldl_append]
      rfl
    handles_nodup := OrderedSet.nodup_append_new h.handles_nodup
      fun hmem => absurd (h.handles_lt _ hmem) (Nat.lt_irrefl visited)
    handles_lt := fun x hx => by
      rcases List.mem_append.1 hx with hold | hnew
      · exact Nat.lt_succ_of_lt (h.handles_lt x hold)
      · rw [List.mem_singleton.1 hnew]
        exact Nat.lt_succ_self visited }

/-- A bound entry is registered as an extension. -/
theorem Follows.addExtension (h : w.Follows ix doc visited) {id : EntryId}
    (hid : id ∈ w.record.bindings.values) (file : String) :
    (w.addExtension id file).Follows ix doc visited :=
  { h with
    ordered := h.ordered.of_slots_eq rfl rfl
    closed := ⟨h.closed.templates, fun x hx => by
      rcases List.mem_append.1 hx with hold | hnew
      · exact h.closed.extensions x hold
      · rw [List.mem_singleton.1 hnew]
        exact hid⟩
    extensions := by
      show w.index.extensions.acquire file (w.index.relativeName id) id =
        ix.extensions.acquireAll (w.record.extensions ++ [(file, w.index.relativeName id, id)])
      rw [h.extensions, ExtensionTable.acquireAll, ExtensionTable.acquireAll, List.foldl_append]
      rfl }

/-- A bound entry is registered as one that refers to a template. -/
theorem Follows.addTemplate (h : w.Follows ix doc visited) {id : EntryId}
    (hid : id ∈ w.record.bindings.values) (template : String) :
    (w.addTemplate id template).Follows ix doc visited :=
  { h with
    ordered := h.ordered.of_slots_eq rfl rfl
    closed := ⟨fun x hx => by
      rcases List.mem_append.1 hx with hold | hnew
      · exact h.closed.templates x hold
      · rw [List.mem_singleton.1 hnew]
        exact hid, h.closed.extensions⟩
    templates := by
      show w.index.templates.acquire template id =
        ix.templates.acquireAll (w.record.templates ++ [(template, id)])
      rw [h.templates, ReferrerTable.acquireAll, ReferrerTable.acquireAll, List.foldl_append]
      rfl }

/-- A place for declarations is an entry of the document, and not the root. -/
theorem Follows.exists_scope (h : w.Follows ix doc visited) {scope : EntryId}
    (hscope : scope ∈ w.record.ledger.map Prod.snd) :
    ∃ s, w.index.entry? scope = some s ∧ scope ≠ .root := by
  obtain ⟨⟨element, id⟩, hmem, rfl⟩ := List.mem_map.1 hscope
  obtain ⟨s, p, hs, hp⟩ := h.ordered.accounted.exists_entry
    (show (element, id) ∈ Function.update ix.ledger doc w.record.ledger doc by
      rw [Function.update_self]; exact hmem)
  exact ⟨s, hs, h.ordered.rooted.ne_root hs hp⟩

/-- The file of the document stands in the root. -/
theorem Follows.parent_file (h : w.Follows ix doc visited) {e : Entry}
    (he : w.index.entry? w.record.file = some e) : e.parent = some .root := by
  have hl : Function.update ix.ledger doc w.record.ledger doc =
      [] ++ (.root, w.record.file) :: w.record.bindings.entries := Function.update_self ..
  obtain ⟨e', p, he', hp, hopen⟩ := h.ordered.accounted.nested hl
  rw [he] at he'
  cases he'
  rcases hopen with ⟨-, rfl⟩ | hmem
  · exact hp
  · exact absurd hmem List.not_mem_nil

/-- An element is bound to an entry. -/
theorem Follows.bind (h : w.Follows ix doc visited) {scope id : EntryId} {name : String}
    {kind : EntryKind} {v' : Entries} {index : Index}
    (hscope : scope ∈ w.record.ledger.map Prod.snd)
    (hkind : kind.isScope = false ∧ kind ≠ .undeclared)
    (hd : Entries.Declares w.index.entry? ⟨doc, visited⟩ scope name kind id v')
    (hre : w.index.Reslotted v' index) :
    { w with
      index
      record := { w.record with bindings := w.record.bindings.insert visited id } }.Follows
        ix doc (visited + 1) := by
  obtain ⟨s, hs, hroot⟩ := h.exists_scope hscope
  have hkey : w.record.bindings.get? visited = none := OrderedMap.get?_eq_none_iff.2
    fun hmem => absurd (h.bindings visited hmem) (Nat.lt_irrefl visited)
  -- So the ledger gets one line.
  have hledger : Record.ledger { w.record with bindings := w.record.bindings.insert visited id } =
      w.record.ledger ++ [(visited, id)] := by
    unfold Record.ledger
    rw [OrderedMap.entries_insert_of_get?_eq_none hkey]
    rfl
  -- The element is new, and the file is not in the scope.
  have hfresh : ∀ {j e}, w.index.entry? j = some e → (visited, j) ∈ w.record.ledger →
      e.parent ≠ some scope := by
    intro j e he hmem
    rcases List.mem_cons.1 hmem with hfile | hold
    · obtain ⟨-, rfl⟩ := Prod.mk.inj hfile
      rw [h.parent_file he]
      exact fun hsame => hroot (Option.some.inj hsame).symm
    · exact absurd (h.bindings visited (List.mem_map_of_mem hold)) (Nat.lt_irrefl visited)
  obtain ⟨hord, hun⟩ := h.ordered.line hd hre (Or.inr hscope) (Or.inr ⟨hroot, hkind⟩) hfresh
  -- What was bound is still bound, so templates and extensions still belong to bound entries.
  have hvalues : ∀ {j}, j ∈ w.record.bindings.values →
      j ∈ (w.record.bindings.insert visited id).values := by
    intro j hj
    rw [OrderedMap.values_insert hkey]
    exact List.mem_append_left _ hj
  have hrest := hre.rest
  exact
    { ordered := hledger ▸ hord
      unwinds := by
        rw [hledger, hun]
        exact h.unwinds
      records := by rw [hrest]; exact h.records
      nameLimit := by rw [hrest]; exact h.nameLimit
      places := fun p hp => by
        rw [hledger, List.map_append]
        exact List.mem_append_left _ (h.places p hp)
      bindings := fun element hel => by
        rw [OrderedMap.keys_insert] at hel
        split at hel
        next => exact Nat.lt_succ_of_lt (h.bindings element hel)
        next =>
          rcases List.mem_append.1 hel with hold | hnew
          · exact Nat.lt_succ_of_lt (h.bindings element hold)
          · rw [List.mem_singleton.1 hnew]
            exact Nat.lt_succ_self visited
      closed := ⟨fun x hx => hvalues (h.closed.templates x hx),
        fun x hx => hvalues (h.closed.extensions x hx)⟩
      templates := by rw [hrest]; exact h.templates
      extensions := by rw [hrest]; exact h.extensions
      constants := by rw [hrest]; exact h.constants
      handles := by rw [hrest]; exact h.handles
      constants_nodup := h.constants_nodup
      handles_nodup := h.handles_nodup
      constants_lt := h.skip.constants_lt
      handles_lt := h.skip.handles_lt }

/-- An element is bound to an entry and its references are registered. -/
theorem Follows.declared (h : w.Follows ix doc visited) {e : Element} {scope id : EntryId}
    {name : String} {kind : EntryKind} {v' : Entries} {index : Index}
    (hscope : scope ∈ w.record.ledger.map Prod.snd)
    (hkind : kind.isScope = false ∧ kind ≠ .undeclared)
    (hd : Entries.Declares w.index.entry? ⟨doc, visited⟩ scope name kind id v')
    (hre : w.index.Reslotted v' index) :
    (w.declared ⟨doc, visited⟩ e index id).Follows ix doc (visited + 1) ∧
      id ∈ (w.declared ⟨doc, visited⟩ e index id).record.bindings.values := by
  have hbound : id ∈ (w.record.bindings.insert visited id).values := by
    have hget : (w.record.bindings.insert visited id).get? visited = some id := by
      rw [OrderedMap.get?_insert, if_pos rfl]
    exact List.mem_map_of_mem (OrderedMap.get?_eq_some_iff.1 hget)
  have hw := h.bind hscope hkind hd hre
  -- The two references are noted one after the other, each if there is one.
  unfold Walk.declared
  dsimp only
  cases e.attributeValue? "file" with
  | none =>
    cases e.attributeValue? "template" with
    | none => exact ⟨hw, hbound⟩
    | some template => exact ⟨hw.addTemplate hbound template, hbound⟩
  | some file =>
    have hext := hw.addExtension hbound file
    cases e.attributeValue? "template" with
    | none => exact ⟨hext, hbound⟩
    | some template => exact ⟨hext.addTemplate hbound template, hbound⟩

/-! ## One visit -/

/-- What the visit of the next element can do to a walk. -/
inductive Visits (w : Walk) (schema : Schema) (id : DocumentId) (doc : Document) (e : Element) :
    Walk → Prop where
  /-- The element is in no place for declarations. -/
  | outside (hplace : w.placeOf doc w.places.size e = none) :
      Visits w schema id doc e (w.leave none)
  /-- The element is a constant. -/
  | constant {place : Place} (hplace : w.placeOf doc w.places.size e = some place)
      (hkind : e.kind schema = .constant) :
      Visits w schema id doc e
        (((e.attributeValue? "name").elim w (w.addConstant ⟨id, w.places.size⟩)).leave none)
  /-- The element is a property. -/
  | property {place : Place} (hplace : w.placeOf doc w.places.size e = some place)
      (hkind : e.kind schema = .frameProperty) :
      Visits w schema id doc e
        (((e.handle? schema).elim w (w.addHandle ⟨id, w.places.size⟩)).leave none)
  /-- The element declares nothing, but what is in it may. -/
  | within {place : Place} (hplace : w.placeOf doc w.places.size e = some place)
      (hconstant : e.kind schema ≠ .constant) (hproperty : e.kind schema ≠ .frameProperty)
      (hdeclares : place.declares = true → EntryKind.ofNodeKind? (e.kind schema) = none) :
      Visits w schema id doc e (w.leave (some place))
  /-- The element would declare an entry, but there is no name for it. -/
  | unnamed {place : Place} {kind : EntryKind}
      (hplace : w.placeOf doc w.places.size e = some place)
      (hkind : EntryKind.ofNodeKind? (e.kind schema) = some kind)
      (hdeclares : place.declares = true)
      (hname : w.index.nameFor? place.scope e = .ok none) :
      Visits w schema id doc e (w.leave none)
  /-- The element declares an entry. -/
  | declares {place : Place} {kind : EntryKind} {name : String} {index : Index} {entry : EntryId}
      {v' : Entries} (hplace : w.placeOf doc w.places.size e = some place)
      (hkind : EntryKind.ofNodeKind? (e.kind schema) = some kind)
      (hdeclares : place.declares = true)
      (hname : w.index.nameFor? place.scope e = .ok (some name))
      (hd : Entries.Declares w.index.entry? ⟨id, w.places.size⟩ place.scope name kind entry v')
      (hre : w.index.Reslotted v' index) :
      Visits w schema id doc e ((w.declared ⟨id, w.places.size⟩ e index entry).leave
        (some ⟨entry, e.kind schema = .frame⟩))

/-- A place for declarations is an entry of the document. -/
theorem Follows.scope_mem (h : w.Follows ix doc visited) {document : Document} {e : Element}
    {element : ElementId} {place : Place} (hplace : w.placeOf document element e = some place) :
    place.scope ∈ w.record.ledger.map Prod.snd := by
  unfold placeOf at hplace
  split at hplace
  next => exact absurd hplace (Option.some_ne_none place).symm
  next parent hparent =>
    split at hplace
    next =>
      -- The first top-level element stands in the file.
      split at hplace
      next =>
        cases hplace
        exact List.mem_cons_self
      next => exact absurd hplace (Option.some_ne_none place).symm
    next =>
      exact h.places place (Array.mem_of_getElem? (Option.join_eq_some_iff.1 hplace))

/-- The visit of an element in its place never fails. -/
theorem visitIn_spec (h : w.Follows ix doc w.places.size) (schema : Schema) {document : Document}
    {e : Element} {place : Place} (hplace : w.placeOf document w.places.size e = some place) :
    ∃ w', w.visitIn schema ⟨doc, w.places.size⟩ e place = .ok w' ∧
      w.Visits schema doc document e w' := by
  obtain ⟨s, hs, -⟩ := h.exists_scope (h.scope_mem hplace)
  unfold visitIn
  split
  next hkind => exact ⟨_, rfl, .constant hplace hkind⟩
  next hkind => exact ⟨_, rfl, .property hplace hkind⟩
  next hconstant hproperty =>
    split
    next kind hkind =>
      -- A place may be one where elements of this kind declare nothing.
      cases hdeclares : place.declares with
      | false =>
        refine ⟨_, rfl, .within hplace hconstant hproperty fun htrue => ?_⟩
        rw [hdeclares] at htrue
        exact Bool.noConfusion htrue
      | true =>
        rw [if_pos rfl]
        -- An element without a name gets one if one is free, and is passed over if not.
        obtain ⟨name?, hname⟩ := nameFor?_eq_ok hs e
        cases name? with
        | none =>
          rw [declare_eq_none hname, ok_bind]
          exact ⟨_, rfl, .unnamed hplace hkind hdeclares hname⟩
        | some name =>
          obtain ⟨index, entry, v', hdecl, hd, hre⟩ := declareIn_spec h.ordered.freeListed
            h.ordered.rooted hs ⟨doc, w.places.size⟩ name kind
          rw [declare_eq hname hdecl, ok_bind]
          exact ⟨_, rfl, .declares hplace hkind hdeclares hname hd hre⟩
    next hkind => exact ⟨_, rfl, .within hplace hconstant hproperty fun _ => hkind⟩

/-- The visit of an element never fails. -/
theorem visit_spec (h : w.Follows ix doc w.places.size) (schema : Schema) (document : Document)
    (e : Element) :
    ∃ w', w.visit schema doc document e = .ok w' ∧ w.Visits schema doc document e w' := by
  cases hplace : w.placeOf document w.places.size e with
  | none =>
    refine ⟨w.leave none, ?_, .outside hplace⟩
    unfold visit
    dsimp only
    rw [hplace]
    rfl
  | some place =>
    obtain ⟨w', hvisit, hw'⟩ := visitIn_spec h schema hplace
    refine ⟨w', ?_, hw'⟩
    unfold visit
    dsimp only
    rw [hplace]
    exact hvisit

/-- A visit keeps what holds of a walk. -/
theorem Follows.visits (h : w.Follows ix doc w.places.size) {schema : Schema} {document : Document}
    {e : Element} {w' : Walk} (hw' : w.Visits schema doc document e w') :
    w'.Follows ix doc w'.places.size := by
  cases hw' with
  | outside => exact size_leave w none ▸ h.skip.leave fun p hp => nomatch hp
  | constant hplace hkind =>
    cases e.attributeValue? "name" with
    | none => exact size_leave w none ▸ h.skip.leave fun p hp => nomatch hp
    | some name => exact size_leave w none ▸ (h.addConstant name).leave fun p hp => nomatch hp
  | property hplace hkind =>
    cases e.handle? schema with
    | none => exact size_leave w none ▸ h.skip.leave fun p hp => nomatch hp
    | some name => exact size_leave w none ▸ (h.addHandle name).leave fun p hp => nomatch hp
  | @within place hplace =>
    refine size_leave w (some place) ▸ h.skip.leave fun p hp => ?_
    cases hp
    exact h.scope_mem hplace
  | unnamed => exact size_leave w none ▸ h.skip.leave fun p hp => nomatch hp
  | @declares place kind name index entry v' hplace hkind hdeclares hname hd hre =>
    -- What stands in the element is declared in its entry, which is bound now.
    obtain ⟨hw, hbound⟩ := h.declared (e := e) (h.scope_mem hplace)
      (EntryKind.ofNodeKind?_eq_some hkind) hd hre
    rw [size_leave, places_declared]
    refine hw.leave fun p hp => ?_
    cases hp
    obtain ⟨line, hline, rfl⟩ := List.mem_map.1 hbound
    exact List.mem_map_of_mem (List.mem_cons_of_mem _ hline)

/-- The index at the end of a walk, with the record of the document. -/
def sealed (w : Walk) (id : DocumentId) : Index :=
  { w.index with records := w.index.records.insert id w.record }

/-- At the end of a walk that began at a sound index the index is sound again. -/
theorem Follows.sound (h : w.Follows ix doc visited) (hix : ix.Sound)
    (hnew : ix.records.get? doc = none) : (w.sealed doc).Sound := by
  have hrecords : (w.sealed doc).records = ix.records.insert doc w.record := by
    unfold sealed
    rw [h.records]
  -- A declaration is new exactly if it stands in the new record.
  have hdeclared : ∀ {lines : Record → List (String × ElementId)} {name : String} {d : Declaration},
      (∃ r, ix.records.get? d.document = some r ∧ (name, d.element) ∈ lines r) ∨
        d.document = doc ∧ (name, d.element) ∈ lines w.record ↔
      ∃ r, (ix.records.insert doc w.record).get? d.document = some r ∧
        (name, d.element) ∈ lines r := by
    intro lines name d
    rw [OrderedMap.get?_insert]
    by_cases hd : d.document = doc
    · rw [if_pos hd, hd, hnew]
      simp
    · rw [if_neg hd]
      simp [hd]
  refine ⟨?_, ⟨?_, ?_, ?_, ?_, fun key id => ?_, fun file relative id => ?_, fun name d => ?_,
    fun name d => ?_⟩, fun doc' r hr => ?_⟩
  · rw [ledger_of_records_insert hrecords]
    exact h.ordered.of_slots_eq rfl rfl
  · exact h.templates ▸ hix.referenced.templates_proper.acquireAll _
  · exact h.extensions ▸ hix.referenced.extensions_proper.acquireAll _
  · exact h.constants ▸ hix.referenced.constants_proper.addAll _ _
  · exact h.handles ▸ hix.referenced.handles_proper.addAll _ _
  · -- The tables have counted what the new record adds.
    rw [count_recorded_insert hnew hrecords, ← hix.referenced.templates]
    exact h.templates ▸ ReferrerTable.count_acquireAll ..
  · rw [count_recorded_insert hnew hrecords, ← hix.referenced.extensions]
    exact h.extensions ▸ ExtensionTable.count_acquireAll ..
  · -- The tables have listed what the new record declares.
    rw [hrecords, ← hdeclared, ← hix.referenced.constants]
    exact h.constants ▸ CrossReferences.mem_declared_addAll
  · rw [hrecords, ← hdeclared, ← hix.referenced.handles]
    exact h.handles ▸ CrossReferences.mem_declared_addAll
  · rw [hrecords, OrderedMap.get?_insert] at hr
    split at hr
    next =>
      cases hr
      exact h.closed
    next => exact hix.closed doc' r hr

end Walk

/-! ## A whole document -/

/-- The first declaration of a document succeeds and begins a walk. -/
theorem beginBinding_spec {ix : Index} (h : ix.Sound) {id : DocumentId}
    (hnew : ix.records.get? id = none) (doc : Document) :
    ∃ index file v', ix.beginBinding id doc =
        .ok { index, record := { file, text := doc.text } } ∧
      Entries.Declares ix.entry? ⟨id, .root⟩ .root doc.name .file file v' ∧
      ix.Reslotted v' index ∧
      Walk.Follows ix id 0 { index, record := { file, text := doc.text } } := by
  obtain ⟨r, hr, -⟩ := h.ordered.rooted.root
  obtain ⟨index, file, v', hdecl, hd, hre⟩ := declareIn_spec h.ordered.freeListed
    h.ordered.rooted hr ⟨id, .root⟩ doc.name .file
  refine ⟨index, file, v', by rw [beginBinding_eq, hdecl]; rfl, hd, hre, ?_⟩
  -- Without a record the ledger of the document is empty, and the file makes its first line.
  have hord : ix.Ordered (Function.update ix.ledger id []) := by
    rw [← ledger_eq_nil hnew, Function.update_eq_self]
    exact h.ordered
  obtain ⟨hord', hun⟩ := hord.line hd hre (Or.inl ⟨rfl, rfl⟩) (Or.inl ⟨rfl, rfl⟩)
    fun _ hmem => absurd hmem List.not_mem_nil
  have hrest := hre.rest
  exact
    { ordered := hord'
      unwinds := hun
      records := by rw [hrest]
      nameLimit := by rw [hrest]
      places := fun p hp => absurd hp (Array.not_mem_empty _)
      bindings := fun _ hmem => absurd hmem List.not_mem_nil
      closed := ⟨fun _ hx => absurd hx List.not_mem_nil, fun _ hx => absurd hx List.not_mem_nil⟩
      templates := by rw [hrest]; rfl
      extensions := by rw [hrest]; rfl
      constants := by rw [hrest]; rfl
      handles := by rw [hrest]; rfl
      constants_nodup := List.nodup_nil
      handles_nodup := List.nodup_nil
      constants_lt := fun _ hx => absurd hx List.not_mem_nil
      handles_lt := fun _ hx => absurd hx List.not_mem_nil }

/-- A fold whose steps succeed and keep a property, which may speak about what was folded,
succeeds and ends with the property. -/
theorem exists_foldlM_eq_ok {ε α β : Type} {f : β → α → Except ε β} {P : List α → β → Prop}
    {l : List α} (step : ∀ {done b a}, a ∈ l → P done b → ∃ b', f b a = .ok b' ∧ P (done ++ [a]) b')
    (done : List α) {b : β} (h : P done b) : ∃ b', l.foldlM f b = .ok b' ∧ P (done ++ l) b' := by
  induction l generalizing done b with
  | nil => exact ⟨b, rfl, by rw [List.append_nil]; exact h⟩
  | cons a l ih =>
    obtain ⟨b₁, hb₁, h₁⟩ := step List.mem_cons_self h
    obtain ⟨b', hb', h'⟩ := ih (fun ha => step (List.mem_cons_of_mem a ha)) (done ++ [a]) h₁
    refine ⟨b', ?_, by simpa using h'⟩
    rw [List.foldlM_cons, hb₁, ok_bind, hb']

/-- The visits of elements one after another never fail. What every visit keeps, holds in the end;
it may speak about the elements that were visited. -/
theorem Walk.visitAll_spec {ix : Index} {id : DocumentId} {w : Walk}
    (h : w.Follows ix id w.places.size) (schema : Schema) (doc : Document)
    {P : List Element → Walk → Prop} (hP : P [] w)
    (step : ∀ {done w e w'}, w.Follows ix id w.places.size → P done w →
      w.Visits schema id doc e w' → P (done ++ [e]) w') (elements : List Element) :
    ∃ w', elements.foldlM (fun w e => w.visit schema id doc e) w = .ok w' ∧
      w'.Follows ix id w'.places.size ∧ P elements w' := by
  refine exists_foldlM_eq_ok (P := fun done (w : Walk) => w.Follows ix id w.places.size ∧ P done w)
    (fun {_ _ e} _ ⟨hw, hdone⟩ => ?_) [] ⟨h, hP⟩
  obtain ⟨w', hvisit, hw'⟩ := Walk.visit_spec hw schema doc e
  exact ⟨w', hvisit, hw.visits hw', step hw hdone hw'⟩

/-- Adding a document that is not bound to a sound index succeeds: it is a walk through the
document. What holds at its beginning and is kept by every visit, holds in the end. -/
theorem addDocument_spec {ix : Index} (h : ix.Sound) (schema : Schema) {id : DocumentId}
    (hnew : ix.records.get? id = none) (doc : Document) {P : List Element → Walk → Prop}
    (start : ∀ {index file v'},
      Entries.Declares ix.entry? ⟨id, .root⟩ .root doc.name .file file v' →
      ix.Reslotted v' index → P [] { index, record := { file, text := doc.text } })
    (step : ∀ {done w e w'}, w.Follows ix id w.places.size → P done w →
      w.Visits schema id doc e w' → P (done ++ [e]) w') :
    ∃ w, ix.addDocument schema id doc = .ok (w.sealed id, w.record.file) ∧
      w.Follows ix id w.places.size ∧ P doc.elements.toList w := by
  obtain ⟨index, file, v', hbegin, hd, hre, hw₀⟩ := beginBinding_spec h hnew doc
  obtain ⟨w, hfold, hw, hP⟩ := Walk.visitAll_spec
    (w := { index, record := { file, text := doc.text } }) hw₀ schema doc (start hd hre) step
    doc.elements.toList
  refine ⟨w, ?_, hw, hP⟩
  unfold addDocument
  rw [hbegin, ok_bind]
  dsimp only
  rw [hfold, ok_bind]
  rfl

end Index

end LayoutMarkup
