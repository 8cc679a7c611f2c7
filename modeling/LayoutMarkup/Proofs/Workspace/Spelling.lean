import LayoutMarkup.Proofs.Document.Checking
import LayoutMarkup.Proofs.Workspace.Consistency

/-!
# Spelling a frame type

The `type` attribute of a frame is read twice. The reader of a text looks it up among the
alternatives of the definition, under names in small letters, so that any spelling will do
(`Schema.Layout.alternative?_eq_none_iff`). A hierarchy looks the same value up among the frame
types, under their names as they are (`Schema.Layout.frameType?_eq_some_iff`). So a value that the
reader accepts gives a node its frame type, and the classes that go with it, exactly if it is
spelled like the name (`Workspace.spelled_run`); `Workspace.frameType_respelled` has a `button`.
-/

namespace LayoutMarkup

/-! ## The two tables -/

namespace Schema.Layout

/-- The frame types of the layout schema stand under their names. -/
theorem frameType?_eq_some_iff {value : String} {t : FrameType} :
    layout.frameType? value = some t ↔ t ∈ frameTypes ∧ t.name = value := by
  have hentries : layout.frameTypes.entries = frameTypes.map fun t => (t.name, t) := by
    decide +kernel
  unfold Schema.frameType?
  rw [OrderedMap.get?_eq_some_iff, hentries, List.mem_map]
  constructor
  · rintro ⟨t', ht', heq⟩
    cases heq
    exact ⟨ht', rfl⟩
  · rintro ⟨ht, rfl⟩
    exact ⟨t, ht, rfl⟩

/-- The definition of frames is the only one of its kind, and it has an alternative for each frame
type. -/
theorem alternatives_of_frame {id : DefinitionId} {d : ElementDef}
    (hd : layout.definition? id = some d) (hkind : d.kind = .frame) :
    ∃ types : OrderedMap String TypeId, d.alternatives = some types ∧
      types.keys = frameTypes.map fun t => Text.lower t.name := by
  have hall : ∀ d ∈ layout.definitions.toList, d.kind = .frame →
      d.alternatives.map OrderedMap.keys =
        some (frameTypes.map fun t => Text.lower t.name) := by
    decide +kernel
  have hmem : d ∈ layout.definitions.toList := Array.mem_toList_iff.2 (Array.mem_of_getElem? hd)
  exact Option.map_eq_some_iff.1 (hall d hmem hkind)

/-- No two frame types have names that differ in the case of letters only. -/
theorem nodup_lower_frameTypes : (frameTypes.map fun t => Text.lower t.name).Nodup := by
  decide +kernel

/-- A value chooses no alternative if no frame type has that name, whatever the case of its
letters. -/
theorem alternative?_eq_none_iff {id : DefinitionId} {d : ElementDef}
    (hd : layout.definition? id = some d) (hkind : d.kind = .frame) (value : String) :
    d.alternatives.isSome = true ∧ (d.alternative? value = none ↔
      ∀ t ∈ frameTypes, Text.lower t.name ≠ Text.lower value) := by
  obtain ⟨types, htypes, hkeys⟩ := alternatives_of_frame hd hkind
  unfold ElementDef.alternative?
  rw [htypes, Option.bind_some, OrderedMap.get?_eq_none_iff, hkeys, List.mem_map]
  refine ⟨rfl, fun h t ht heq => h ⟨t, ht, heq⟩, ?_⟩
  rintro h ⟨t, ht, heq⟩
  exact h t ht heq

/-- One frame type at most has a name, whatever the case of its letters. -/
theorem eq_of_lower_eq {t t' : FrameType} (ht : t ∈ frameTypes) (ht' : t' ∈ frameTypes)
    (h : Text.lower t.name = Text.lower t'.name) : t = t' :=
  List.inj_on_of_nodup_map nodup_lower_frameTypes ht ht' h

end Schema.Layout

open Schema.Layout (frameTypes)

/-- In a document of the layout schema, the choice of a frame succeeds if its `type` is the name of
a frame type, whatever the case of its letters. There is just one such frame type then. -/
theorem Document.TypedBy.accepts_iff {rootType : Option TypeId} {doc : Document}
    (h : doc.TypedBy Schema.layout rootType) {id : ElementId} {e : Element} {value : String}
    (he : doc.get? id = some e) (hkind : e.kind Schema.layout = .frame)
    (hvalue : e.attributeValue? "type" = some value) :
    e.alternationFailed = false ↔ ∃! t, t ∈ frameTypes ∧ Text.lower t.name = Text.lower value := by
  obtain ⟨d, hd, hframe⟩ : ∃ d, e.definition.bind Schema.layout.definition? = some d ∧
      d.kind = .frame := by
    unfold Element.kind at hkind
    split at hkind
    next d hd => exact ⟨d, hd, hkind⟩
    next => cases hkind
  -- The definition and the value are those that the choice was made with.
  obtain ⟨choice, hchoice, hchosen⟩ := Option.bind_eq_some_iff.1 hvalue
  obtain ⟨definition, -, hdefinition⟩ := Option.bind_eq_some_iff.1 hd
  obtain ⟨hsome, hnone⟩ := Schema.Layout.alternative?_eq_none_iff hdefinition hframe value
  -- The choice is on record as failed if there is a value and no alternative for it.
  have hfailed : e.alternationFailed = true ↔
      ∀ t ∈ frameTypes, Text.lower t.name ≠ Text.lower value := by
    rw [h.failed he, ← hnone]
    constructor
    · rintro ⟨d', choice', hd', hchoice', -, hrefused⟩
      obtain rfl := Option.some_inj.1 (hd.symm.trans hd')
      obtain rfl := Option.some_inj.1 (hchoice.symm.trans hchoice')
      rwa [hchosen] at hrefused
    · intro hrefused
      refine ⟨d, choice, hd, hchoice, hsome, ?_⟩
      rwa [hchosen]
  rw [← Bool.not_eq_true, hfailed]
  constructor
  · intro hnot
    obtain ⟨t, ht, hlower⟩ : ∃ t ∈ frameTypes, Text.lower t.name = Text.lower value := by
      by_contra hnone
      exact hnot fun t ht heq => hnone ⟨t, ht, heq⟩
    -- No two names differ in the case of letters only.
    refine ⟨t, ⟨ht, hlower⟩, fun t' ht' => ?_⟩
    exact Schema.Layout.eq_of_lower_eq ht'.1 ht (ht'.2.trans hlower.symm)
  · rintro ⟨t, ⟨ht, hlower⟩, -⟩ hall
    exact hall t ht hlower

/-! ## Hierarchies -/

namespace Hierarchy.Sources

variable {src : Sources} {tree : Tree} {id : NodeId} {n : Node} {e : Element} {value : String}

/-- The first element with a value for `type` among the first declarations of some entries, and the
value. -/
def firstTyped? (src : Sources) (ids : List EntryId) : Option (Element × String) :=
  ids.findSome? fun entry => do
    let e ← src.firstElement? entry
    let value ← e.attributeValue? "type"
    return (e, value)

/-- The first element with a value for `type` stands in one of the documents. -/
theorem exists_of_firstTyped?_eq_some {ids : List EntryId}
    (h : src.firstTyped? ids = some (e, value)) :
    e.attributeValue? "type" = some value ∧
      ∃ (d : Declaration) (doc : Document), src.documents.get? d.document = some doc ∧
        doc.get? d.element = some e := by
  obtain ⟨entry, -, hentry⟩ := List.exists_of_findSome?_eq_some h
  obtain ⟨e', he', hentry⟩ := Option.bind_eq_some_iff.1 hentry
  obtain ⟨value', hvalue, heq⟩ := Option.bind_eq_some_iff.1 hentry
  cases heq
  refine ⟨hvalue, ?_⟩
  unfold firstElement? at he'
  obtain ⟨_, -, he'⟩ := Option.bind_eq_some_iff.1 he'
  obtain ⟨_, -, he'⟩ := Option.bind_eq_some_iff.1 he'
  obtain ⟨d, -, helement⟩ := Option.bind_eq_some_iff.1 he'
  obtain ⟨doc, hdoc, he⟩ := Option.bind_eq_some_iff.1 helement
  exact ⟨d, doc, hdoc, he⟩

/-- The frame type of a frame is looked up under the first value for `type` as it is spelled. -/
theorem frameType?_eq (hn : tree.node? id = some n) (hkind : n.kind = .frame)
    (hfirst : src.firstTyped? n.contributors.elements = some (e, value)) :
    src.frameType? tree id = .ok (src.schema.frameType? value) := by
  have hvalue : (n.contributors.elements.findSome? fun entry => do
      (← src.firstElement? entry).attributeValue? "type") = some value := by
    have hmap := congrArg (Option.map Prod.snd) hfirst
    unfold firstTyped? at hmap
    rw [List.map_findSome?] at hmap
    -- The search for the value finds what the search for both does, with the element left out.
    refine Eq.trans (congrArg (List.findSome? · _) (funext fun entry => ?_)) hmap
    rw [Function.comp_apply]
    cases src.firstElement? entry with
    | none => rfl
    | some e =>
      show e.attributeValue? "type" = ((e.attributeValue? "type").bind _).map Prod.snd
      cases e.attributeValue? "type" <;> rfl
  unfold frameType?
  rw [Tree.node_eq hn, ok_bind, if_neg (not_not_intro hkind), hvalue]
  rfl

/-- What becomes of the value that the first contributor with a `type` has for it. -/
structure Spelled (src : Sources) (tree : Tree) (id : NodeId) (e : Element) (value : String) :
    Prop where
  /-- The reader of the text accepts it if it is the name of a frame type, whatever the case of its
  letters. There is just one such frame type then. -/
  accepted : e.alternationFailed = false ↔
    ∃! t, t ∈ frameTypes ∧ Text.lower t.name = Text.lower value
  /-- The node has the frame type of which it is the name letter by letter, or none. -/
  frameType : ∃ found, src.frameType? tree id = .ok found ∧
    ∀ t, found = some t ↔ t ∈ frameTypes ∧ t.name = value
  /-- So it is of the classes of that frame type only. -/
  classes : ∀ wanted ∈ frameTypes, ∃ holds, src.fulfils tree (.ofType wanted.name) id = .ok holds ∧
    (holds = true ↔ ∃ t ∈ frameTypes, t.name = value ∧ t.hasClass wanted.className = true)

/-- The value of a frame is looked up twice. -/
theorem spelled (hschema : src.schema = Schema.layout)
    (hdocs : ∀ id doc, src.documents.get? id = some doc →
      ∃ rootType, doc.TypedBy Schema.layout rootType)
    (hn : tree.node? id = some n) (hkind : n.kind = .frame)
    (hfirst : src.firstTyped? n.contributors.elements = some (e, value))
    (he : e.kind Schema.layout = .frame) : src.Spelled tree id e value := by
  -- The value comes from an element of a document, where `TypedBy` says what its check accepts.
  obtain ⟨hvalue, d, doc, hdoc, hget⟩ := exists_of_firstTyped?_eq_some hfirst
  obtain ⟨rootType, htyped⟩ := hdocs d.document doc hdoc
  -- The frame type is looked up in the schema by the value as it is written.
  have hfound := frameType?_eq hn hkind hfirst
  rw [hschema] at hfound
  refine ⟨htyped.accepts_iff hget he hvalue, ⟨_, hfound, fun t => ?_⟩, fun wanted hwanted => ?_⟩
  · exact Schema.Layout.frameType?_eq_some_iff
  · have hname := Schema.Layout.frameType?_eq_some_iff.2 ⟨hwanted, rfl⟩
    refine ⟨(Schema.layout.frameType? value).any (·.hasClass wanted.className), ?_, ?_⟩
    · unfold fulfils
      dsimp only
      rw [hschema, hname]
      dsimp only
      rw [hfound]
      rfl
    · rw [Option.any_eq_true]
      constructor
      · rintro ⟨t, ht, hclass⟩
        obtain ⟨hmem, hspelled⟩ := Schema.Layout.frameType?_eq_some_iff.1 ht
        exact ⟨t, hmem, hspelled, hclass⟩
      · rintro ⟨t, hmem, hspelled, hclass⟩
        exact ⟨t, Schema.Layout.frameType?_eq_some_iff.2 ⟨hmem, hspelled⟩, hclass⟩

end Hierarchy.Sources

/-! ## Workspaces -/

namespace Workspace

open Hierarchy (Node NodeId Tree)

variable {ws ws' : Workspace}

/-- Opening a text does not change the schema. -/
theorem schema_openText {path text : String} {id : DocumentId}
    (hok : ws.openText path text = .ok (ws', id)) : ws'.schema = ws.schema := by
  obtain ⟨_, -, hok⟩ := exists_of_bind_eq_ok hok
  cases hok
  rfl

/-- A command does not change the schema. -/
theorem Command.schema_apply {command : Command} (hok : command.apply ws = .ok ws') :
    ws'.schema = ws.schema := by
  cases command with
  | openText path text =>
    obtain ⟨⟨ws₁, id⟩, hopen, hok⟩ := exists_of_bind_eq_ok hok
    cases hok
    exact schema_openText hopen
  | openFile folder path =>
    obtain ⟨⟨ws₁, id⟩, hopen, hok⟩ := exists_of_bind_eq_ok hok
    cases hok
    obtain ⟨text, -, hopen⟩ := exists_of_bind_eq_ok hopen
    exact schema_openText hopen
  | update id text =>
    -- The steps of an update that can fail do not touch the schema.
    unfold Command.apply Workspace.update at hok
    dsimp only at hok
    split at hok
    next => cases hok
    next =>
      obtain ⟨_, -, hok⟩ := exists_of_bind_eq_ok hok
      obtain ⟨_, -, hok⟩ := exists_of_bind_eq_ok hok
      cases hok
      rfl
  | close id =>
    obtain ⟨⟨ws₁, doc⟩, hclose, hok⟩ := exists_of_bind_eq_ok hok
    cases hok
    unfold Workspace.close at hclose
    split at hclose
    next => cases hclose
    next =>
      obtain ⟨_, -, hclose⟩ := exists_of_bind_eq_ok hclose
      cases hclose
      rfl

/-- A workspace keeps the schema that it was given. -/
theorem schema_run (schema : Schema) (config : Config) (commands : List Command) :
    (run schema config commands).schema = schema := by
  induction commands using List.reverseRecOn with
  | nil => rfl
  | append_singleton commands command ih =>
    rw [run, List.foldl_append]
    show (command.run (run schema config commands)).schema = schema
    unfold Command.run
    split
    next ws' hok => exact (Command.schema_apply hok).trans ih
    next => exact ih

/-- In every workspace of the layout schema, whatever its history, and for every frame in a tree:
the `type` of the first contributor that has one, if it is that of a frame, is accepted by the
reader if it is the name of a frame type whatever the case of its letters, and gives the frame its
frame type and classes if it is that name letter by letter. -/
theorem spelled_run (config : Config) (commands : List Command) {tree : Tree} {id : NodeId}
    {n : Node} {e : Element} {value : String} (hn : tree.node? id = some n)
    (hkind : n.kind = .frame)
    (hfirst : (run Schema.layout config commands).sources.firstTyped? n.contributors.elements =
      some (e, value))
    (he : e.kind Schema.layout = .frame) :
    (run Schema.layout config commands).sources.Spelled tree id e value := by
  refine Hierarchy.Sources.spelled (schema_run ..) (fun d doc hdoc => ?_) hn hkind hfirst he
  have hread := (kept_run Schema.layout config commands).documents d
  rw [show (run Schema.layout config commands).documents.get? d = some doc from hdoc] at hread
  obtain ⟨file, -, rfl⟩ := Option.map_eq_some_iff.1 hread.symm
  refine ⟨(run Schema.layout config commands).rootType?, ?_⟩
  unfold Workspace.parse
  rw [schema_run]
  exact Document.typedBy_parse ..

/-- A workspace that holds a frame of a type. -/
def withFrame (type : String) : Workspace :=
  run Schema.layout {} [.openText "A.layout" ("<Frame name='M' type='" ++ type ++ "'/>")]

/-- A node for the frame. -/
def typedFrame : Node where
  name := "M"
  kind := .frame
  parent := none
  contributors := ⟨[2], by decide⟩

/-- A frame whose `type` is spelled like a frame type. -/
theorem spelled_run_button :
    Tree.node? ⟨#[typedFrame]⟩ 0 = some typedFrame ∧ typedFrame.kind = .frame ∧
    ∃ e, (withFrame "Button").sources.firstTyped? typedFrame.contributors.elements =
        some (e, "Button") ∧
      e.kind Schema.layout = .frame ∧
      (withFrame "Button").sources.Spelled ⟨#[typedFrame]⟩ 0 e "Button" := by
  have hn : Tree.node? ⟨#[typedFrame]⟩ 0 = some typedFrame := rfl
  have hread : ((withFrame "Button").sources.firstTyped? typedFrame.contributors.elements).map
      (fun (e, value) => (e.kind Schema.layout, value)) = some (.frame, "Button") := by
    decide +kernel
  obtain ⟨⟨e, value⟩, hfirst, heq⟩ := Option.map_eq_some_iff.1 hread
  obtain ⟨he, rfl⟩ := Prod.mk.inj heq
  exact ⟨hn, rfl, e, hfirst, he, spelled_run {} _ hn rfl hfirst he⟩

/-- The reader accepts a `button`, but the frame of this type has no frame type, and so it is no
button to a selector. -/
theorem frameType_respelled :
    (withFrame "button").sources.createRoot? {} 2 = some (⟨#[typedFrame]⟩, 0) ∧
    ((withFrame "button").sources.firstTyped? typedFrame.contributors.elements).map
      (fun (e, value) => (e.kind Schema.layout, e.alternationFailed, value)) =
        some (.frame, false, "button") ∧
    (withFrame "button").sources.frameType? ⟨#[typedFrame]⟩ 0 = .ok none ∧
    (withFrame "button").sources.fulfils ⟨#[typedFrame]⟩ (.ofType "Button") 0 = .ok false := by
  decide +kernel

end Workspace

end LayoutMarkup
