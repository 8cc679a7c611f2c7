import LayoutMarkup.Index.Binding
import LayoutMarkup.Proofs.Document.Ranging
import LayoutMarkup.Schema.Layout

/-!
# Numbers in range

A schema is asked for types and definitions by number while a text is read, when the attributes of
its elements are checked, and when the document is bound. If the steps that made the schema use only
numbers that earlier steps answered, none of these questions is about a number out of range, for any
text and for any root type that has a name (`Schema.confines_assemble`): at every moment the numbers
that elements hold are those of what is there, and nothing would be different if the tables went on
behind their end.
-/

namespace LayoutMarkup

variable {s s' : Schema} {e : Element}

/-! ## Binding -/

/-- An element has the same role. -/
theorem Element.kind_extends (hext : s.Extends s') (he : e.InRange s) : e.kind s' = e.kind s := by
  unfold kind
  rw [hext.definition_bind he]

/-- An element declares the same handle. -/
theorem Element.handle?_extends (hext : s.Extends s') (he : e.InRange s) :
    e.handle? s' = e.handle? s := by
  unfold handle?
  rw [hext.type_bind he]

namespace Index

/-- The same comes of an element. -/
theorem Walk.visit_extends (hext : s.Extends s') (he : e.InRange s) (w : Walk) (id : DocumentId)
    (doc : Document) : w.visit s' id doc e = w.visit s id doc e := by
  unfold visit visitIn
  rw [Element.kind_extends hext he, Element.handle?_extends hext he]

/-- Two ways to go through a list come to the same if they do so for each element. -/
theorem foldlM_congr {α β ε : Type} {f g : β → α → Except ε β} {l : List α}
    (h : ∀ a ∈ l, ∀ b, g b a = f b a) (b : β) : l.foldlM g b = l.foldlM f b := by
  induction l generalizing b with
  | nil => rfl
  | cons a l ih =>
    obtain ⟨hfirst, hrest⟩ := List.forall_mem_cons.1 h
    rw [List.foldlM_cons, List.foldlM_cons, hfirst b]
    exact congrArg _ (funext fun b => ih hrest b)

/-- A document is bound in the same way. -/
theorem bind_extends (hext : s.Extends s') {doc : Document} (hdoc : ∀ e ∈ doc.elements, e.InRange s)
    (ix : Index) (id : DocumentId) : ix.bind s' id doc = ix.bind s id doc := by
  have hwalk : ∀ w : Walk, doc.elements.toList.foldlM (fun w e => w.visit s' id doc e) w =
      doc.elements.toList.foldlM (fun w e => w.visit s id doc e) w :=
    foldlM_congr fun e he w => Walk.visit_extends hext (hdoc e (Array.mem_toList_iff.1 he)) w id doc
  have hadd : ix.addDocument s' id doc = ix.addDocument s id doc := by
    unfold addDocument
    simp only [hwalk]
  unfold bind
  rw [hadd]

end Index

/-! ## Schemas that were assembled -/

namespace Schema

/-- Reading a text, checking it and binding it ask a schema for nothing that is not there. -/
structure Confines (s : Schema) (rootType : Option TypeId) (name text : String) : Prop where
  /-- After the first steps of the text, and when some elements are ended then, all elements have
  numbers in range. -/
  drafts : ∀ front, front <+: tokenize text → ∀ ids : List ElementId,
    (ids.foldl (Draft.endOpen s (Text.byteLength text.toList))
      (front.foldl (Draft.take s (Text.byteLength text.toList))
        (Draft.start (Text.byteLength text.toList) rootType))).InRange s
  /-- So have the elements of the document. -/
  elements : ∀ e ∈ (Document.parse name text s rootType).elements, e.InRange s
  /-- With more types and definitions behind those of the schema, the same document is read. -/
  parse : ∀ s', s.Extends s' →
    Document.parse name text s' rootType = Document.parse name text s rootType
  /-- The same is said of the attributes of its elements. -/
  validate : ∀ s', s.Extends s' →
    validateElements s' (Document.parse name text s rootType).elements =
      validateElements s (Document.parse name text s rootType).elements
  /-- And it is bound in the same way. -/
  bind : ∀ s', s.Extends s' → ∀ (ix : Index) (id : DocumentId),
    ix.bind s' id (Document.parse name text s rootType) =
      ix.bind s id (Document.parse name text s rootType)

/-- Where the tables refer to what is there, and the root type is there, a schema confines. -/
theorem Ranged.confines (h : s.Ranged) {rootType : Option TypeId}
    (hroot : ∀ id ∈ rootType, id < s.types.size) (name text : String) :
    s.Confines rootType name text := by
  have helements : ∀ e ∈ (Document.parse name text s rootType).elements, e.InRange s :=
    fun e => Document.inRange_parse h hroot name text
  exact
    { drafts := fun front hfront ids => Draft.inRange_front h hroot text hfront ids
      elements := helements
      parse := fun s' hext => Document.parse_extends hext h hroot name text
      validate := fun s' hext => Document.validateElements_extends hext helements
      bind := fun s' hext ix id => Index.bind_extends hext helements ix id }

/-- Where each step of an assembly refers only to numbers that were answered before it, each type of
the schema is found by its name and nothing else is, and the numbers in the tables are those of
types and definitions that are there; no two types have one name; and for every root type that is
found by a name and every text, reading, checking and binding ask for nothing that is not there. -/
theorem confines_assemble {steps : List Step} (h : Issued steps) :
    (assemble steps).Ranged ∧
    (∀ i j t u, (assemble steps).type? i = some t → (assemble steps).type? j = some u →
      t.name = u.name → i = j) ∧
    ∀ root name text, (assemble steps).Confines ((assemble steps).typeId? root) name text := by
  obtain ⟨hranged, -⟩ := ranged_assemble h
  refine ⟨hranged, fun i j t u => hranged.eq_of_name_eq, fun root name text => ?_⟩
  exact hranged.confines (fun id => hranged.lt_of_typeId?) name text

/-- The layout schema is made by such steps. -/
theorem confines_layout :
    Issued Layout.steps ∧ layout.Ranged ∧
    ∀ text, layout.Confines (layout.typeId? Layout.fileTypeName) "Main" text := by
  have hissued : Issued Layout.steps := by decide +kernel
  obtain ⟨hranged, -, hconfines⟩ := confines_assemble hissued
  exact ⟨hissued, hranged, hconfines Layout.fileTypeName "Main"⟩

end Schema

end LayoutMarkup
