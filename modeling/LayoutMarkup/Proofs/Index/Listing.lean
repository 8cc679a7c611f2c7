import LayoutMarkup.Hierarchy.Expansion
import LayoutMarkup.Proofs.Index.Tenure

/-!
# The order of declarations

The declarations of an entry, of a constant and of a handle are listed in one order: by the place of
their documents among the bound ones, and in a document by the numbers of its elements (`Listed`).
Nothing sorts them. A walk adds to each list only at its end, and what it adds stands in the newest
document, at the element that is visited and so behind all others (`Walk.Follows.precedes`). Taking
a document out leaves the rest of each list in its order, and leaves the other documents in theirs
(`Listed.of_sublist`).

So the first declaration of an entry, by which its template, its file and its type are found, is the
first one in the document that was bound before all others that declare the entry (`listed_run`).
-/

namespace LayoutMarkup

/-- A declaration comes before another one: its document stands in front of the other document, or
it is an earlier element of the same one. -/
def Declaration.Precedes (order : List DocumentId) (d d' : Declaration) : Prop :=
  order.idxOf d.document < order.idxOf d'.document ∨
    d.document = d'.document ∧ d.element < d'.element

/-- Declarations of some documents, in the order of the documents and of their elements. -/
structure Listed (order : List DocumentId) (s : OrderedSet Declaration) : Prop where
  /-- They stand in these documents. -/
  known : ∀ d ∈ s, d.document ∈ order
  /-- Each comes before all later ones. -/
  sorted : s.elements.Pairwise (Declaration.Precedes order)

/-! ## Documents that come and go -/

/-- A declaration of a new last document comes behind those of the other documents and behind those
of earlier elements. -/
theorem Declaration.precedes_last {order : List DocumentId} {doc : DocumentId} (hnew : doc ∉ order)
    {d : Declaration} {element : ElementId}
    (h : d.document ∈ order ∨ d.document = doc ∧ d.element < element) :
    d.Precedes (order ++ [doc]) ⟨doc, element⟩ := by
  rcases h with hold | hown
  · left
    have hlt := List.idxOf_lt_length_of_mem hold
    rw [List.idxOf_append_of_mem hold, List.idxOf_append_of_notMem hnew]
    omega
  · exact Or.inr hown

/-- When a document is taken out, the others stay in their order. -/
theorem idxOf_lt_idxOf_erase {order : List DocumentId} {doc a b : DocumentId} (ha : a ≠ doc)
    (hb : b ≠ doc) (h : order.idxOf a < order.idxOf b) :
    (order.erase doc).idxOf a < (order.erase doc).idxOf b := by
  induction order with
  | nil => simp at h
  | cons c order ih =>
    rw [List.idxOf_cons, List.idxOf_cons] at h
    rw [List.erase_cons]
    grind

namespace Listed

variable {order : List DocumentId} {s s' : OrderedSet Declaration} {doc : DocumentId}

/-- No declarations are in any order. -/
theorem empty (order : List DocumentId) : Listed order ∅ :=
  ⟨fun _ hd => absurd hd List.not_mem_nil, List.Pairwise.nil⟩

/-- A declaration may be added behind those that come before it. -/
theorem insert (h : Listed order s) {d : Declaration} (hdoc : d.document ∈ order)
    (hlast : ∀ d' ∈ s, d'.Precedes order d) : Listed order (s.insert d) := by
  refine ⟨fun d' hd' => ?_, ?_⟩
  · rcases OrderedSet.mem_insert.1 hd' with hold | rfl
    · exact h.known d' hold
    · exact hdoc
  · by_cases hd : d ∈ s
    · have hsame : s.insert d = s := dif_pos hd
      rw [hsame]
      exact h.sorted
    · rw [OrderedSet.elements_insert hd, List.pairwise_append]
      refine ⟨h.sorted, List.pairwise_singleton .., fun d' hd' d'' hd'' => ?_⟩
      rw [List.mem_singleton.1 hd'']
      exact hlast d' hd'

/-- A new last document does not change the order. -/
theorem concat (h : Listed order s) (doc : DocumentId) : Listed (order ++ [doc]) s := by
  refine ⟨fun d hd => List.mem_append_left _ (h.known d hd), ?_⟩
  refine h.sorted.imp_of_mem fun {d d'} hd hd' hlt => ?_
  unfold Declaration.Precedes
  rw [List.idxOf_append_of_mem (h.known d hd), List.idxOf_append_of_mem (h.known d' hd')]
  exact hlt

/-- What is left without a document is in the order that is left. -/
theorem of_sublist (h : Listed order s) (hsub : s'.elements.Sublist s.elements)
    (hout : ∀ d ∈ s', d.document ≠ doc) : Listed (order.erase doc) s' := by
  refine ⟨fun d hd => ?_, ?_⟩
  · exact (List.mem_erase_of_ne (hout d hd)).2 (h.known d (hsub.subset hd))
  · refine (h.sorted.sublist hsub).imp_of_mem fun {d d'} hd hd' hlt => ?_
    exact hlt.imp_left (idxOf_lt_idxOf_erase (hout d hd) (hout d' hd'))

/-- The first declaration stands in the first of the documents, and no other element of that
document comes before it. -/
theorem first (h : Listed order s) {d : Declaration} (hd : s.first? = some d) :
    ∀ d' ∈ s, order.idxOf d.document ≤ order.idxOf d'.document ∧
      (d'.document = d.document → d.element ≤ d'.element) := by
  obtain ⟨rest, hrest⟩ := List.head?_eq_some_iff.1 hd
  intro d' hd'
  have hmem : d' ∈ d :: rest := hrest ▸ hd'
  have hsorted := h.sorted
  rw [hrest, List.pairwise_cons] at hsorted
  rcases List.mem_cons.1 hmem with rfl | hlater
  · exact ⟨Nat.le_refl _, fun _ => Nat.le_refl _⟩
  · rcases hsorted.1 d' hlater with hlt | ⟨hsame, hlt⟩
    · refine ⟨Nat.le_of_lt hlt, fun hdoc => ?_⟩
      rw [hdoc] at hlt
      exact absurd hlt (Nat.lt_irrefl _)
    · exact ⟨by rw [hsame], fun _ => Nat.le_of_lt hlt⟩

end Listed

/-! ## Tables -/

namespace CrossReferences

/-- The declarations of a name in a table with one more. -/
theorem declared_add (t : CrossReferences) (name name' : String) (d : Declaration) :
    (t.add name d).declared name' =
      if name' = name then (t.declared name').insert d else t.declared name' :=
  OrderedMap.getD_upsert ..

/-- The declarations of a name in a table with one less. -/
theorem declared_remove (t : CrossReferences) (name name' : String) (d : Declaration) :
    (t.remove name d).declared name' =
      if name' = name then (t.declared name').erase d else t.declared name' := by
  rw [remove_eq_shrink]
  exact OrderedMap.getD_shrink (fun _ h => OrderedSet.isEmpty_eq_true_iff.1 h) rfl ..

/-- Declarations of a new last document keep all names in order, if they are added in the order of
their elements. -/
theorem listed_addAll {t : CrossReferences} {order : List DocumentId} {doc : DocumentId}
    (hnew : doc ∉ order) (h : ∀ name, Listed order (t.declared name))
    {lines : List (String × ElementId)} (hlines : lines.Pairwise fun x y => x.2 < y.2)
    (name : String) : Listed (order ++ [doc]) ((t.addAll doc lines).declared name) := by
  induction lines using List.reverseRecOn generalizing name with
  | nil => exact (h name).concat doc
  | append_singleton lines x ih =>
    obtain ⟨hfront, -, hbefore⟩ := List.pairwise_append.1 hlines
    have hadd : t.addAll doc (lines ++ [x]) = (t.addAll doc lines).add x.1 ⟨doc, x.2⟩ :=
      List.foldl_concat ..
    rw [hadd, declared_add]
    split
    · refine (ih hfront name).insert (by simp) fun d hd => Declaration.precedes_last hnew ?_
      rcases mem_declared_addAll.1 hd with hold | ⟨hdoc, hline⟩
      · exact Or.inl ((h name).known d hold)
      · exact Or.inr ⟨hdoc, hbefore _ hline x (List.mem_singleton_self x)⟩
    · exact ih hfront name

/-- Taking declarations out leaves the others in their order. -/
theorem sublist_removeAll (t : CrossReferences) (doc : DocumentId)
    (lines : List (String × ElementId)) (name : String) :
    ((t.removeAll doc lines).declared name).elements.Sublist (t.declared name).elements := by
  induction lines generalizing t with
  | nil => exact List.Sublist.refl _
  | cons x lines ih =>
    refine (ih (t.remove x.1 ⟨doc, x.2⟩)).trans ?_
    rw [declared_remove]
    split
    · exact List.filter_sublist
    · exact List.Sublist.refl _

end CrossReferences

/-! ## Entries -/

/-- A declaration keeps the order, if those that its entry has come before it. -/
theorem Entries.Declares.listed {v v' : Entries} {d : Declaration} {scope id : EntryId}
    {name : String} {kind : EntryKind} (h : Entries.Declares v d scope name kind id v')
    {order : List DocumentId} (hv : ∀ {j f}, v j = some f → Listed order f.declarations)
    (hdoc : d.document ∈ order)
    (hlast : ∀ {f}, v id = some f → ∀ d' ∈ f.declarations, d'.Precedes order d)
    {j : EntryId} {f' : Entry} (hf' : v' j = some f') : Listed order f'.declarations := by
  rcases h.entry_cases hf' with ⟨f, hf, -, ⟨-, hsame⟩ | ⟨rfl, hmore⟩⟩ | ⟨-, -, -, hnew⟩
  · rw [hsame]
    exact hv hf
  · rw [hmore]
    exact (hv hf).insert hdoc (hlast hf)
  · rw [hnew]
    exact (Listed.empty order).insert hdoc fun d' hd' => absurd hd' List.not_mem_nil

namespace Index

/-- All declarations of an index are in the order in which the documents were bound. -/
structure AllListed (ix : Index) : Prop where
  /-- Those of an entry. -/
  entries : ∀ {id e}, ix.entry? id = some e → Listed ix.records.keys e.declarations
  /-- Those of a constant. -/
  constants : ∀ name, Listed ix.records.keys (ix.constants.declared name)
  /-- Those of a handle. -/
  handles : ∀ name, Listed ix.records.keys (ix.handles.declared name)

/-! ## Binding -/

namespace Walk

/-- A walk has the declarations of its document behind those of other documents, and the references
of its record in the order of the elements. -/
structure Lists (w : Walk) (order : List DocumentId) : Prop where
  /-- The declarations of the entries are in order. -/
  entries : ∀ {id e}, w.index.entry? id = some e → Listed order e.declarations
  /-- The constants were recorded in order. -/
  constants : w.record.constants.Pairwise fun x y => x.2 < y.2
  /-- The handles were recorded in order. -/
  handles : w.record.handles.Pairwise fun x y => x.2 < y.2

variable {ix : Index} {id : DocumentId} {w : Walk}

/-- What a walk finds at an entry below a file comes before what it declares next. -/
theorem Follows.precedes (h : w.Follows ix id w.places.size) {order : List DocumentId}
    (hnew : id ∉ order) {j : EntryId} {e : Entry} (he : w.index.entry? j = some e)
    (hknown : ∀ d ∈ e.declarations, d.document ∈ order ++ [id]) (hparent : e.parent ≠ some .root) :
    ∀ d ∈ e.declarations, d.Precedes (order ++ [id]) ⟨id, w.places.size⟩ := by
  intro d hd
  refine Declaration.precedes_last hnew ?_
  rcases List.mem_append.1 (hknown d hd) with hold | hown
  · exact Or.inl hold
  · -- A line of the document is that of its file or of an element that was visited.
    have hdoc : d.document = id := List.mem_singleton.1 hown
    have hline := (h.ordered.accounted.declared he).1 hd
    rw [hdoc, Function.update_self] at hline
    rcases List.mem_cons.1 hline with hfile | hbound
    · obtain ⟨-, rfl⟩ := Prod.mk.inj hfile
      exact absurd (h.parent_file he) hparent
    · exact Or.inr ⟨hdoc, h.bindings _ (List.mem_map_of_mem hbound)⟩

/-- A visit keeps the order. -/
theorem Follows.lists_visits (h : w.Follows ix id w.places.size) {order : List DocumentId}
    (hnew : id ∉ order) (hl : w.Lists (order ++ [id])) {schema : Schema} {doc : Document}
    {e : Element} {w' : Walk} (hw' : w.Visits schema id doc e w') : w'.Lists (order ++ [id]) := by
  -- What is recorded at the element visited comes behind what was recorded before.
  have hrecord : ∀ {lines : List (String × ElementId)} {name : String},
      (∀ x ∈ lines, x.2 < w.places.size) → (lines.Pairwise fun x y => x.2 < y.2) →
      (lines ++ [(name, w.places.size)]).Pairwise fun x y => x.2 < y.2 := by
    intro lines name hlt hlines
    refine List.pairwise_append.2 ⟨hlines, List.pairwise_singleton .., fun x hx y hy => ?_⟩
    rw [List.mem_singleton.1 hy]
    exact hlt x hx
  cases hw' with
  | outside => exact ⟨hl.entries, hl.constants, hl.handles⟩
  | within => exact ⟨hl.entries, hl.constants, hl.handles⟩
  | unnamed => exact ⟨hl.entries, hl.constants, hl.handles⟩
  | constant =>
    cases e.attributeValue? "name" with
    | none => exact ⟨hl.entries, hl.constants, hl.handles⟩
    | some name => exact ⟨hl.entries, hrecord h.constants_lt hl.constants, hl.handles⟩
  | property =>
    cases e.handle? schema with
    | none => exact ⟨hl.entries, hl.constants, hl.handles⟩
    | some name => exact ⟨hl.entries, hl.constants, hrecord h.handles_lt hl.handles⟩
  | @declares place kind name index entry v' hplace hkind hdeclares hname hd hre =>
    obtain ⟨s, hs, hroot⟩ := h.exists_scope (h.scope_mem hplace)
    refine ⟨fun {j f} hf => ?_, ?_, ?_⟩
    · have hf' : v' j = some f := by
        rw [← hre.view, ← entry?_declared w ⟨id, w.places.size⟩ e index entry]
        exact hf
      refine hd.listed hl.entries (by simp) (fun {g} hg => ?_) hf'
      -- The entry stands in a scope that is not the root, and keeps its place.
      obtain ⟨-, f₁, -, hf₁, hparent, -⟩ := hd.exists_entry h.ordered.rooted
      obtain ⟨f₂, hf₂, hlinks⟩ := hd.exists_sameLinks hg
      rw [hf₁] at hf₂
      cases hf₂
      refine h.precedes hnew hg (hl.entries hg).known ?_
      rw [← hlinks.parent, hparent]
      exact fun hsame => hroot (Option.some.inj hsame)
    · show (w.declared _ e index entry).record.constants.Pairwise _
      rw [record_declared]
      exact hl.constants
    · show (w.declared _ e index entry).record.handles.Pairwise _
      rw [record_declared]
      exact hl.handles

end Walk

/-- Binding a document that is not bound keeps the order: the document comes last. -/
theorem AllListed.bind {ix : Index} (hl : ix.AllListed) (h : ix.Sound) (schema : Schema)
    {id : DocumentId} (hnew : ix.records.get? id = none) (doc : Document) :
    ((Command.bind schema id doc).run ix).AllListed := by
  have hkey : id ∉ ix.records.keys := OrderedMap.get?_eq_none_iff.1 hnew
  obtain ⟨w, hadd, hw, hlists⟩ := addDocument_spec h schema hnew doc
    (P := fun _ w => w.Lists (ix.records.keys ++ [id]))
    (fun {index file v'} hd hre => by
      refine ⟨fun {j f} hf => ?_, List.Pairwise.nil, List.Pairwise.nil⟩
      have hf' : v' j = some f := hre.view ▸ hf
      refine hd.listed (fun hg => (hl.entries hg).concat id) (by simp) (fun {g} hg d hd => ?_) hf'
      exact Declaration.precedes_last hkey (Or.inl ((hl.entries hg).known d hd)))
    (fun hw hdone hvisits => hw.lists_visits hkey hdone hvisits)
  -- The document is sealed, and so comes behind those that were bound.
  have hkeys : (w.sealed id).records.keys = ix.records.keys ++ [id] := by
    rw [hw.records_sealed, OrderedMap.keys_insert, if_neg hkey]
  rw [run_bind_of_added hnew hadd]
  refine ⟨fun he => ?_, fun name => ?_, fun name => ?_⟩
  · rw [hkeys]
    exact hlists.entries he
  · rw [hkeys]
    show Listed _ (w.index.constants.declared name)
    rw [hw.constants]
    exact CrossReferences.listed_addAll hkey hl.constants hlists.constants name
  · rw [hkeys]
    show Listed _ (w.index.handles.declared name)
    rw [hw.handles]
    exact CrossReferences.listed_addAll hkey hl.handles hlists.handles name

/-! ## Unbinding -/

/-- When a document is taken out, an entry that stays was there and keeps its place, and its
declarations are those it had in the other documents. -/
theorem Sound.elements_unwound {ix ix' : Index} (h : ix.Sound) (h' : ix'.Sound) {id : DocumentId}
    {r : Record} (hr : ix.records.get? id = some r)
    (hre : (ix.withoutRecord id r).Reslotted (unwound ix.entry? id r.ledger) ix') {j : EntryId}
    {e' : Entry} (he' : ix'.entry? j = some e') :
    ∃ e, ix.entry? j = some e ∧ Entries.SameLinks e e' ∧
      e'.declarations.elements = e.elsewhere id := by
  obtain ⟨e, he, hlinks⟩ := unwound_eq_some (hre.view ▸ he')
  have halike := Entries.alikeElsewhere_unwound h.ordered.rooted h.ordered.accounted (ledger_eq hr)
  have hsame := halike.declarations j
  rw [← hre.view, Entries.elsewhere_eq he, Entries.elsewhere_eq he'] at hsame
  refine ⟨e, he, hlinks, ?_⟩
  rw [← hsame]
  -- Nothing is declared by a document that is not bound.
  refine (List.filter_eq_self.2 fun d hd => decide_eq_true ?_).symm
  rintro rfl
  obtain ⟨s, hs, -⟩ := (h'.mem_declarations he' d).1 hd
  rw [hre.rest] at hs
  have herase : (ix.records.erase d.document).get? d.document = some s := hs
  rw [OrderedMap.get?_erase, if_pos rfl] at herase
  exact Option.some_ne_none s herase.symm

/-- Taking a document out keeps the order of the others. -/
theorem AllListed.withoutRecord {ix ix' : Index} (hl : ix.AllListed) (h : ix.Sound)
    (h' : ix'.Sound) {id : DocumentId} {r : Record} (hr : ix.records.get? id = some r)
    (hre : (ix.withoutRecord id r).Reslotted (unwound ix.entry? id r.ledger) ix') :
    ix'.AllListed := by
  have hrecords : ix'.records = ix.records.erase id := by
    rw [hre.rest]
    rfl
  have hgone : ix'.records.get? id = none := by
    rw [hrecords, OrderedMap.get?_erase, if_pos rfl]
  have hkeys : ix'.records.keys = ix.records.keys.erase id := by
    rw [hrecords, OrderedMap.keys_erase]
  -- Nothing stands in a document that is not bound.
  have hout : ∀ {d : Declaration} {lines : Record → Prop},
      (∃ s, ix'.records.get? d.document = some s ∧ lines s) → d.document ≠ id := by
    rintro d lines ⟨s, hs, -⟩ rfl
    rw [hgone] at hs
    exact Option.some_ne_none s hs.symm
  refine ⟨fun {j e'} he' => ?_, fun name => ?_, fun name => ?_⟩
  · rw [hkeys]
    obtain ⟨e, he, -, helements⟩ := h.elements_unwound h' hr hre he'
    refine (hl.entries he).of_sublist ?_ fun d hd => hout ((h'.mem_declarations he' d).1 hd)
    rw [helements]
    exact List.filter_sublist
  · -- The tables have lost the lines of the document, and nothing else.
    have htable : ix'.constants = ix.constants.removeAll id r.constants := by
      rw [hre.rest]
      rfl
    rw [hkeys]
    refine (hl.constants name).of_sublist ?_ fun d hd =>
      hout ((h'.referenced.constants name d).1 hd)
    rw [htable]
    exact CrossReferences.sublist_removeAll ..
  · have htable : ix'.handles = ix.handles.removeAll id r.handles := by
      rw [hre.rest]
      rfl
    rw [hkeys]
    refine (hl.handles name).of_sublist ?_ fun d hd => hout ((h'.referenced.handles name d).1 hd)
    rw [htable]
    exact CrossReferences.sublist_removeAll ..

/-! ## Histories -/

/-- The index without documents has no declarations. -/
theorem allListed_empty (limit : Nat) : (empty limit).AllListed where
  entries := fun he => by
    rw [eq_of_entry?_empty he]
    exact Listed.empty _
  constants := fun _ => Listed.empty _
  handles := fun _ => Listed.empty _

/-- All declarations are in order after every history. -/
theorem allListed_run (limit : Nat) (commands : List Command) : (run limit commands).AllListed := by
  induction commands using run_induction limit with
  | start => exact allListed_empty limit
  | idle ih hrun => exact hrun ▸ ih
  | bind ih hnew => exact run_concat .. ▸ ih.bind (sound_run limit _) _ hnew _
  | unbind ih hr hre => exact ih.withoutRecord (sound_run limit _) (sound_run limit _) hr hre
  | clear hrun => exact hrun ▸ allListed_empty _

/-- After every history the declarations of every entry, constant and handle are those of bound
documents, sorted by the place of the document among the bound ones and then by the number of the
element. Every entry but the root has a first declaration. It stands in the document that was bound
before all others that declare the entry, and is the first element of that document that does; and
it is the element by which hierarchies find the template, the file and the type of the entry. -/
theorem listed_run (limit : Nat) (commands : List Command) :
    (∀ id e, entry? (run limit commands) id = some e →
      Listed (run limit commands).records.keys e.declarations) ∧
    (∀ name s, (run limit commands).constants.get? name = some s →
      Listed (run limit commands).records.keys s) ∧
    (∀ name s, (run limit commands).handles.get? name = some s →
      Listed (run limit commands).records.keys s) ∧
    (∀ id e, entry? (run limit commands) id = some e → id ≠ .root →
      ∃ d, e.declarations.first? = some d ∧
        (∀ d' ∈ e.declarations,
          (run limit commands).records.keys.idxOf d.document ≤
            (run limit commands).records.keys.idxOf d'.document ∧
          (d'.document = d.document → d.element ≤ d'.element)) ∧
        ∀ src : Hierarchy.Sources, src.index = run limit commands →
          src.firstElement? id = src.element? d) := by
  have h := sound_run limit commands
  have hl := allListed_run limit commands
  refine ⟨fun id e he => hl.entries he, fun name s hs => ?_, fun name s hs => ?_,
    fun id e he hid => ?_⟩
  · -- The tables list what the records declare.
    rw [← (h.referenced.constants_proper.get?_eq_some_iff.1 hs).1]
    exact hl.constants name
  · rw [← (h.referenced.handles_proper.get?_eq_some_iff.1 hs).1]
    exact hl.handles name
  · obtain ⟨d₀, hd₀⟩ := h.ordered.accounted.kept he hid
    obtain ⟨d, hd⟩ : ∃ d, e.declarations.first? = some d :=
      Option.isSome_iff_exists.1 (List.isSome_head?.2 (List.ne_nil_of_mem hd₀))
    -- Hierarchies pass over the first element of the root only.
    have hkind : e.kind ≠ .root := by
      rcases h.ordered.rooted.kind he hid with ⟨hfile, -⟩ | ⟨hscope, -⟩
      · rw [hfile]
        decide
      · intro hroot
        rw [hroot] at hscope
        exact Bool.noConfusion hscope
    refine ⟨d, hd, (hl.entries he).first hd, fun src hsrc => ?_⟩
    unfold Hierarchy.Sources.firstElement?
    rw [hsrc, he]
    simp [hkind, hd]

/-- A document that is unbound and bound again comes behind those that stayed. -/
example : (Index.entry? (run 1 [.bind frameSchema 0 (buttonDocument "Main"),
    .bind frameSchema 1 (buttonDocument "Main"), .unbind 0,
    .bind frameSchema 0 (buttonDocument "Main")]) 2).map (·.declarations.elements) =
      some [⟨1, 1⟩, ⟨0, 1⟩] := by
  decide +kernel

end Index

end LayoutMarkup
