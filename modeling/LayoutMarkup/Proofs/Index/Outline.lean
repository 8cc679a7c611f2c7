import LayoutMarkup.Proofs.Index.Walk

/-!
# Outlines

What a document declares can be said without an index: each element that gets an entry declares a
path, namely that of its scope with its own name behind. This is the outline of the document
(`Document.outline`), written by a walk through the elements that keeps paths where binding keeps
slots. It is what the record of the document says once slots are read as paths
(`addDocument_outline`), as long as every element that declares an entry has a name: a numbered name
depends on what other documents declare.
-/

namespace LayoutMarkup

/-- What a document declares and refers to, with paths for entries. -/
structure Outline where
  /-- The elements that declare a path, the root element with the path of the file first. -/
  declarations : List (ElementId × List String)
  /-- The templates that paths refer to. -/
  templates : List (String × List String) := []
  /-- The extensions: file, name in the file, and path. -/
  extensions : List (String × String × List String) := []
  /-- The constants declared. -/
  constants : List (String × ElementId) := []
  /-- The handles declared. -/
  handles : List (String × ElementId) := []

/-- The outline with one more element, which declares a path. -/
def Outline.declare (o : Outline) (element : ElementId) (e : Element) (path : List String) :
    Outline :=
  { o with
    declarations := o.declarations ++ [(element, path)]
    templates := o.templates ++ ((e.attributeValue? "template").map (·, path)).toList
    extensions := o.extensions ++ ((e.attributeValue? "file").map
      fun file => (file, Name.joinPath (path.drop 1), path)).toList }

/-- The outline of the first elements of a document. -/
structure Sketch where
  /-- What they declare. -/
  outline : Outline
  /-- For each of them the path that the declarations below it go to, if any, and whether they get
  paths of their own. -/
  places : Array (Option (List String × Bool)) := #[]

/-- The kinds that declare a name are those that get entries. -/
theorem NodeKind.isDeclaration_eq_isSome (kind : NodeKind) :
    kind.isDeclaration = (EntryKind.ofNodeKind? kind).isSome := by
  cases kind <;> rfl

namespace Sketch

/-- Notes where the declarations below the last element go. -/
def leave (k : Sketch) (place : Option (List String × Bool)) : Sketch :=
  { k with places := k.places.push place }

/-- Where the next element belongs. -/
def placeOf (k : Sketch) (doc : Document) (e : Element) : Option (List String × Bool) :=
  match e.parent with
  | none => none
  | some parent =>
    if parent = .root then
      if doc.declared? = some k.places.size then some ([doc.name], true) else none
    else
      k.places[parent]?.join

/-- Adds the next element in its place. -/
def visitIn (k : Sketch) (schema : Schema) (e : Element) (scope : List String) (declares : Bool) :
    Sketch :=
  match e.kind schema with
  | .constant =>
    let constant := (e.attributeValue? "name").map (·, k.places.size)
    { k with outline.constants := k.outline.constants ++ constant.toList }.leave none
  | .frameProperty =>
    let handle := (e.handle? schema).map (·, k.places.size)
    { k with outline.handles := k.outline.handles ++ handle.toList }.leave none
  | kind =>
    if declares && kind.isDeclaration then
      match e.attributeValue? "name" with
      | some name =>
        let path := scope ++ [name]
        { k with outline := k.outline.declare k.places.size e path }.leave
          (some (path, kind = NodeKind.frame))
      | none => k.leave none
    else
      k.leave (some (scope, declares))

/-- Adds the next element. -/
def visit (k : Sketch) (schema : Schema) (doc : Document) (e : Element) : Sketch :=
  match k.placeOf doc e with
  | some (scope, declares) => k.visitIn schema e scope declares
  | none => k.leave none

/-- An element that declares a path where paths are declared. -/
theorem visitIn_of_name {k : Sketch} {schema : Schema} {e : Element} {name : String}
    (hkind : (e.kind schema).isDeclaration = true) (hname : e.attributeValue? "name" = some name)
    (scope : List String) :
    k.visitIn schema e scope true =
      { k with outline := k.outline.declare k.places.size e (scope ++ [name]) }.leave
        (some (scope ++ [name], e.kind schema = NodeKind.frame)) := by
  unfold visitIn
  split
  next hconstant =>
    rw [hconstant] at hkind
    exact Bool.noConfusion hkind
  next hproperty =>
    rw [hproperty] at hkind
    exact Bool.noConfusion hkind
  next => rw [hkind, Bool.and_self, if_pos rfl, hname]

/-- An element that declares nothing by itself, but may hold declarations. -/
theorem visitIn_of_within {k : Sketch} {schema : Schema} {e : Element} {declares : Bool}
    (hconstant : e.kind schema ≠ .constant) (hproperty : e.kind schema ≠ .frameProperty)
    (hdeclares : declares = true → (e.kind schema).isDeclaration = false) (scope : List String) :
    k.visitIn schema e scope declares = k.leave (some (scope, declares)) := by
  unfold visitIn
  split
  next hkind => exact absurd hkind hconstant
  next hkind => exact absurd hkind hproperty
  next =>
    refine if_neg fun hboth => ?_
    obtain ⟨htrue, hkind⟩ := Bool.and_eq_true_iff.1 hboth
    rw [hdeclares htrue] at hkind
    exact Bool.noConfusion hkind

/-- The outline before the first element: only the file is declared. -/
def begin (doc : Document) : Sketch :=
  { outline := { declarations := [(.root, [doc.name])] } }

end Sketch

/-- What a document declares and refers to. -/
def Document.outline (doc : Document) (schema : Schema) : Outline :=
  (doc.elements.toList.foldl (·.visit schema doc ·) (Sketch.begin doc)).outline

/-- Every element that declares an entry has a name. -/
def Document.Named (doc : Document) (schema : Schema) : Prop :=
  ∀ e ∈ doc.elements.toList, (e.kind schema).isDeclaration = true → e.attributeValue? "name" ≠ none

instance (doc : Document) (schema : Schema) : Decidable (doc.Named schema) :=
  inferInstanceAs (Decidable (∀ e ∈ doc.elements.toList, _))

/-! ## Reading slots as paths -/

/-- What a record says when slots are read as paths. -/
def Record.outline (r : Record) (pathOf : EntryId → List String) : Outline where
  declarations := r.ledger.map fun x => (x.1, pathOf x.2)
  templates := r.templates.map fun x => (x.1, pathOf x.2)
  extensions := r.extensions.map fun x => (x.1, x.2.1, pathOf x.2.2)
  constants := r.constants
  handles := r.handles

/-- A record is that of a document: it has the text of the document, and its file has the name. -/
structure Record.Heads (r : Record) (doc : Document) (pathOf : EntryId → List String) : Prop where
  /-- The text is that of the document. -/
  text : r.text = doc.text
  /-- The path of the file is the name of the document. -/
  file : pathOf r.file = [doc.name]

/-- Only the paths of the entries in its ledger matter for what a record says. -/
theorem Record.Closed.outline_congr {r : Record} (hr : r.Closed) {p q : EntryId → List String}
    (h : ∀ id ∈ r.ledger.map Prod.snd, p id = q id) : r.outline p = r.outline q := by
  have hbound : ∀ {id}, id ∈ r.bindings.values → p id = q id := fun hid => by
    obtain ⟨line, hline, rfl⟩ := List.mem_map.1 hid
    exact h _ (List.mem_map_of_mem (List.mem_cons_of_mem _ hline))
  unfold Record.outline
  congr 1
  · exact List.map_congr_left fun x hx => by rw [h _ (List.mem_map_of_mem hx)]
  · exact List.map_congr_left fun x hx => by rw [hbound (hr.templates x hx)]
  · exact List.map_congr_left fun x hx => by rw [hbound (hr.extensions x hx)]

namespace Index

/-- The path of an entry that is there. -/
theorem pathOf_eq {ix : Index} {id : EntryId} {e : Entry} (h : ix.entry? id = some e) :
    ix.pathOf id = e.path := by
  unfold pathOf
  rw [h]
  rfl

/-- Paths stay when something is declared. -/
theorem pathOf_of_declares {ix ix' : Index} {d : Declaration} {scope id j : EntryId} {name : String}
    {kind : EntryKind} {v' : Entries} (hd : Entries.Declares ix.entry? d scope name kind id v')
    (hre : ix.Reslotted v' ix') {f : Entry} (hf : ix.entry? j = some f) :
    ix'.pathOf j = ix.pathOf j := by
  obtain ⟨f', hf', hlinks⟩ := hd.exists_sameLinks hf
  rw [← hre.view] at hf'
  rw [pathOf_eq hf', pathOf_eq hf, hlinks.path]

namespace Walk

/-- What a walk has written so far when slots are read as paths. -/
def sketch (w : Walk) : Sketch where
  outline := w.record.outline w.index.pathOf
  places := w.places.map (Option.map fun p => (w.index.pathOf p.scope, p.declares))

variable {ix : Index} {id : DocumentId} {visited : Nat} {w : Walk}

/-- A sketch has as many places as the walk. -/
theorem size_sketch (w : Walk) : w.sketch.places.size = w.places.size :=
  Array.size_map ..

/-- Leaving an element is seen in the sketch. -/
theorem sketch_leave (w : Walk) (place : Option Place) :
    (w.leave place).sketch =
      w.sketch.leave (place.map fun p => (w.index.pathOf p.scope, p.declares)) := by
  unfold sketch leave Sketch.leave
  rw [Array.map_push]

/-- A constant is seen in the sketch. -/
theorem sketch_addConstant (w : Walk) (d : Declaration) (name : Option String) :
    (name.elim w (w.addConstant d)).sketch =
      { w.sketch with
        outline.constants := w.sketch.outline.constants ++ (name.map (·, d.element)).toList } := by
  cases name with
  | none => simp
  | some name => rfl

/-- A handle is seen in the sketch. -/
theorem sketch_addHandle (w : Walk) (d : Declaration) (name : Option String) :
    (name.elim w (w.addHandle d)).sketch =
      { w.sketch with
        outline.handles := w.sketch.outline.handles ++ (name.map (·, d.element)).toList } := by
  cases name with
  | none => simp
  | some name => rfl

/-- The place of an element in the sketch is its place in the walk, read as a path. -/
theorem placeOf_sketch {doc : Document} (hfile : w.index.pathOf w.record.file = [doc.name])
    (e : Element) : w.sketch.placeOf doc e =
      (w.placeOf doc w.places.size e).map fun p => (w.index.pathOf p.scope, p.declares) := by
  unfold Sketch.placeOf placeOf
  rw [size_sketch]
  cases e.parent with
  | none => rfl
  | some parent =>
    dsimp only
    split
    next =>
      split
      next => rw [Option.map_some, hfile]
      next => rfl
    next =>
      show (Array.map _ w.places)[parent]?.join = _
      rw [Array.getElem?_map]
      cases w.places[parent]? <;> rfl

/-- Entries in the ledger of a walk keep their paths when something is declared. -/
theorem Follows.pathOf_of_declares (h : w.Follows ix id visited) {d : Declaration}
    {scope entry : EntryId} {name : String} {kind : EntryKind} {v' : Entries} {index : Index}
    (hd : Entries.Declares w.index.entry? d scope name kind entry v')
    (hre : w.index.Reslotted v' index) {j : EntryId} (hj : j ∈ w.record.ledger.map Prod.snd) :
    index.pathOf j = w.index.pathOf j := by
  obtain ⟨f, hf, -⟩ := h.exists_scope hj
  exact Index.pathOf_of_declares hd hre hf

/-- Binding an element to an entry changes no path after its declaration. -/
theorem pathOf_declared (w : Walk) (d : Declaration) (e : Element) (index : Index)
    (entry : EntryId) : (w.declared d e index entry).index.pathOf = index.pathOf := by
  unfold declared
  dsimp only
  cases e.attributeValue? "file" <;> cases e.attributeValue? "template" <;> rfl

/-- What is recorded when an element is bound to an entry. -/
theorem record_declared (w : Walk) (d : Declaration) (e : Element) (index : Index)
    (entry : EntryId) : (w.declared d e index entry).record =
      { w.record with
        bindings := w.record.bindings.insert d.element entry
        templates := w.record.templates ++ ((e.attributeValue? "template").map (·, entry)).toList
        extensions := w.record.extensions ++ ((e.attributeValue? "file").map
          fun file => (file, index.relativeName entry, entry)).toList } := by
  unfold declared
  dsimp only
  cases e.attributeValue? "file" <;> cases e.attributeValue? "template" <;>
    simp [addExtension, addTemplate]

/-- Binding an element to an entry adds the path of the entry to what the record says. -/
theorem outline_declared {d : Declaration} (hkey : w.record.bindings.get? d.element = none)
    (e : Element) (index : Index) (entry : EntryId) :
    (w.declared d e index entry).record.outline index.pathOf =
      (w.record.outline index.pathOf).declare d.element e (index.pathOf entry) := by
  rw [record_declared]
  unfold Record.outline Record.ledger Outline.declare relativeName
  dsimp only
  rw [OrderedMap.entries_insert_of_get?_eq_none hkey, ← List.cons_append, List.map_append,
    List.map_append, List.map_append, List.map_singleton]
  congr 1
  · cases e.attributeValue? "template" <;> rfl
  · cases e.attributeValue? "file" <;> rfl

/-- A visit keeps the text of the record and the path of its file. -/
theorem Follows.heading_visits (h : w.Follows ix id w.places.size) {schema : Schema}
    {doc : Document} {e : Element} {w' : Walk} (hw' : w.Visits schema id doc e w') :
    w'.record.text = w.record.text ∧
      w'.index.pathOf w'.record.file = w.index.pathOf w.record.file := by
  cases hw' with
  | outside => exact ⟨rfl, rfl⟩
  | constant => cases e.attributeValue? "name" <;> exact ⟨rfl, rfl⟩
  | property => cases e.handle? schema <;> exact ⟨rfl, rfl⟩
  | within => exact ⟨rfl, rfl⟩
  | unnamed => exact ⟨rfl, rfl⟩
  | @declares place kind name index entry v' hplace hkind hdeclares hname hd hre =>
    have hkeep := h.pathOf_of_declares hd hre (j := w.record.file) List.mem_cons_self
    constructor
    · show (w.declared _ e index entry).record.text = _
      rw [record_declared]
    · show (w.declared _ e index entry).index.pathOf (w.declared _ e index entry).record.file = _
      rw [pathOf_declared, record_declared]
      exact hkeep

/-- A declaration is outlined with the path of its scope and the name behind it, and nothing else in
the sketch changes. -/
theorem Follows.sketch_declared (h : w.Follows ix id w.places.size) (e : Element)
    {scope entry : EntryId} {name : String} {kind : EntryKind} {index : Index} {v' : Entries}
    (hd : Entries.Declares w.index.entry? ⟨id, w.places.size⟩ scope name kind entry v')
    (hre : w.index.Reslotted v' index) :
    index.pathOf entry = w.index.pathOf scope ++ [name] ∧
    (w.declared ⟨id, w.places.size⟩ e index entry).sketch = { w.sketch with
      outline := w.sketch.outline.declare w.sketch.places.size e
        (w.index.pathOf scope ++ [name]) } := by
  -- Entries from before keep their paths, and the new path is that of the scope with the name.
  have hkeep : ∀ {j}, j ∈ w.record.ledger.map Prod.snd → index.pathOf j = w.index.pathOf j :=
    fun hj => h.pathOf_of_declares hd hre hj
  have hpath : index.pathOf entry = w.index.pathOf scope ++ [name] := by
    obtain ⟨s, f, hs, hf, -, hpath⟩ := hd.exists_entry h.ordered.rooted
    rw [← hre.view] at hf
    rw [pathOf_eq hf, pathOf_eq hs, hpath]
  have hkey : w.record.bindings.get? w.places.size = none := OrderedMap.get?_eq_none_iff.2
    fun hmem => absurd (h.bindings _ hmem) (Nat.lt_irrefl _)
  have hplaces : w.places.map (Option.map fun p => (index.pathOf p.scope, p.declares)) =
      w.places.map (Option.map fun p => (w.index.pathOf p.scope, p.declares)) := by
    refine Array.map_congr_left fun p hp => ?_
    cases p with
    | none => rfl
    | some p => rw [Option.map_some, Option.map_some, hkeep (h.places p hp)]
  refine ⟨hpath, ?_⟩
  rw [size_sketch]
  unfold sketch
  rw [pathOf_declared, places_declared, outline_declared hkey, hpath, hplaces,
    h.closed.outline_congr fun j hj => hkeep hj]

/-- A visit adds the element to the sketch of the walk, if it has a name or needs none. -/
theorem Follows.sketch_visits (h : w.Follows ix id w.places.size) {schema : Schema} {doc : Document}
    (hfile : w.index.pathOf w.record.file = [doc.name]) {e : Element}
    (hnamed : (e.kind schema).isDeclaration = true → e.attributeValue? "name" ≠ none) {w' : Walk}
    (hw' : w.Visits schema id doc e w') :
    w'.sketch = w.sketch.visit schema doc e ∧ w'.index.pathOf w'.record.file = [doc.name] := by
  refine ⟨?_, (h.heading_visits hw').2.trans hfile⟩
  -- The sketch looks for the place with paths where the walk does with entries, and finds the same.
  have hplaceOf := placeOf_sketch hfile e
  cases hw' with
  | outside hplace =>
    rw [hplace, Option.map_none] at hplaceOf
    rw [Sketch.visit, hplaceOf, sketch_leave]
    rfl
  | constant hplace hkind =>
    rw [hplace, Option.map_some] at hplaceOf
    simp only [Sketch.visit, hplaceOf, Sketch.visitIn, hkind, sketch_leave, sketch_addConstant,
      size_sketch, Option.map_none]
  | property hplace hkind =>
    rw [hplace, Option.map_some] at hplaceOf
    simp only [Sketch.visit, hplaceOf, Sketch.visitIn, hkind, sketch_leave, sketch_addHandle,
      size_sketch, Option.map_none]
  | within hplace hconstant hproperty hdeclares =>
    rw [hplace, Option.map_some] at hplaceOf
    have hkind := fun htrue => (e.kind schema).isDeclaration_eq_isSome.trans
      (by rw [hdeclares htrue, Option.isSome_none])
    simp only [Sketch.visit, hplaceOf]
    rw [Sketch.visitIn_of_within hconstant hproperty hkind, sketch_leave, Option.map_some]
  | unnamed hplace hkind hdeclares hname =>
    -- The element has a name of its own.
    have hdecl : (e.kind schema).isDeclaration = true := by
      rw [NodeKind.isDeclaration_eq_isSome, hkind]
      rfl
    obtain ⟨name, hvalue⟩ := Option.ne_none_iff_exists'.1 (hnamed hdecl)
    rw [nameFor?, hvalue] at hname
    cases hname
  | @declares place kind name index entry v' hplace hkind hdeclares hname hd hre =>
    rw [hplace, Option.map_some, hdeclares] at hplaceOf
    have hdecl : (e.kind schema).isDeclaration = true := by
      rw [NodeKind.isDeclaration_eq_isSome, hkind]
      rfl
    have hvalue : e.attributeValue? "name" = some name := by
      obtain ⟨own, hown⟩ := Option.ne_none_iff_exists'.1 (hnamed hdecl)
      rw [nameFor?, hown] at hname
      cases hname
      exact hown
    obtain ⟨hpath, hsketch⟩ := h.sketch_declared e hd hre
    simp only [Sketch.visit, hplaceOf]
    rw [Sketch.visitIn_of_name hdecl hvalue, sketch_leave, hsketch, pathOf_declared,
      Option.map_some, hpath]

end Walk

/-- The walk has written the outline of the first elements of a document, if these are named. -/
def Walk.Sketches (w : Walk) (schema : Schema) (doc : Document) (done : List Element) : Prop :=
  (∀ e ∈ done, (e.kind schema).isDeclaration = true → e.attributeValue? "name" ≠ none) →
    w.sketch = done.foldl (·.visit schema doc ·) (Sketch.begin doc) ∧
      w.index.pathOf w.record.file = [doc.name]

/-- The file of a document stands in the root under the name of the document. -/
theorem pathOf_file {ix index : Index} (h : Entries.Rooted ix.entry?) {d : Declaration}
    {name : String} {file : EntryId} {v' : Entries}
    (hd : Entries.Declares ix.entry? d .root name .file file v') (hre : ix.Reslotted v' index) :
    index.pathOf file = [name] := by
  obtain ⟨r, hr, -, hroot, -⟩ := h.root
  obtain ⟨s, e, hs, he, -, hpath⟩ := hd.exists_entry h
  rw [hr] at hs
  cases hs
  rw [← hre.view] at he
  rw [pathOf_eq he, hpath, hroot]
  rfl

/-- In the beginning only the path of the file is written. -/
theorem Walk.sketches_begin {index : Index} {doc : Document} {file : EntryId}
    (hfile : index.pathOf file = [doc.name]) (schema : Schema) :
    Walk.Sketches { index, record := { file, text := doc.text } } schema doc [] := by
  refine fun _ => ⟨?_, hfile⟩
  unfold Walk.sketch Record.outline Record.ledger
  dsimp only
  rw [List.map_cons, hfile, Array.map_empty]
  rfl

/-- At the end of a walk through a document that is not bound, the record has the text and the name
of the document, and it says what the outline of the document says, if the document is named. -/
theorem addDocument_outline {ix : Index} (h : ix.Sound) (schema : Schema) {id : DocumentId}
    (hnew : ix.records.get? id = none) (doc : Document) :
    ∃ w : Walk, ix.addDocument schema id doc = .ok (w.sealed id, w.record.file) ∧
      w.Follows ix id w.places.size ∧ w.record.Heads doc w.index.pathOf ∧
      (doc.Named schema → w.record.outline w.index.pathOf = doc.outline schema) := by
  obtain ⟨w, hadd, hw, hheads, hsketches⟩ := addDocument_spec h schema hnew doc
    (P := fun done w => w.record.Heads doc w.index.pathOf ∧ w.Sketches schema doc done)
    (fun hd hre => by
      have hfile := pathOf_file h.ordered.rooted hd hre
      exact ⟨⟨rfl, hfile⟩, Walk.sketches_begin hfile schema⟩)
    (fun {done w e w'} hw ⟨hheads, hsketches⟩ hvisits => by
      obtain ⟨htext, hpath⟩ := hw.heading_visits hvisits
      refine ⟨⟨htext.trans hheads.text, hpath.trans hheads.file⟩, fun hnamed => ?_⟩
      obtain ⟨hdone, hfile⟩ := hsketches fun e he => hnamed e (List.mem_append_left _ he)
      rw [List.foldl_append, List.foldl_cons, List.foldl_nil, ← hdone]
      exact hw.sketch_visits hfile (hnamed e (by simp)) hvisits)
  exact ⟨w, hadd, hw, hheads, fun hnamed => congrArg Sketch.outline (hsketches hnamed).1⟩

end Index

end LayoutMarkup
