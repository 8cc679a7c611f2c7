import LayoutMarkup.Document.Parse
import LayoutMarkup.Proofs.Index.Outline

/-!
# Histories

An index is what a history of commands has made of the index without documents: documents are bound,
unbound and cleared, and a command that is refused changes nothing. One command never meets a fault
and keeps the index sound (`Sound.apply`), so every history leads to a sound index (`sound_run`).

Two things about all histories follow. Who declares an entry can be read off the records of the
bound documents, nothing is left that is not declared, and so only the root is left when all
documents are unbound (`declarations_run`). And unbinding a document right after it was bound takes
back everything that binding it did (`unbind_bind_run`).
-/

namespace LayoutMarkup.Index

/-- A change to the documents of an index. -/
inductive Command where
  /-- Binds a document that was read with a schema. -/
  | bind (schema : Schema) (id : DocumentId) (doc : Document)
  /-- Takes a document out. -/
  | unbind (id : DocumentId)
  /-- Takes all documents out. -/
  | clear

/-- What a command makes of an index. -/
def Command.apply (ix : Index) : Command → Except Error Index
  | bind schema id doc => do return (← ix.bind schema id doc).1
  | unbind id => ix.unbind id
  | clear => .ok ix.clear

/-- What a command makes of an index, which stays as it is if the command is refused. -/
def Command.run (ix : Index) (command : Command) : Index :=
  match command.apply ix with
  | .ok ix' => ix'
  | .error _ => ix

/-- The index that a history of commands leads to. -/
def run (limit : Nat) (commands : List Command) : Index :=
  commands.foldl Command.run (empty limit)

/-! ## One command -/

/-- Binding a document that is not bound is a walk through it. -/
theorem bind_spec {ix : Index} (h : ix.Sound) (schema : Schema) {id : DocumentId}
    (hnew : ix.records.get? id = none) (doc : Document) :
    ∃ w : Walk, ix.bind schema id doc = .ok (w.sealed id, w.record.file) ∧
      w.Follows ix id w.places.size ∧ w.record.Heads doc w.index.pathOf ∧
      (doc.Named schema → w.record.outline w.index.pathOf = doc.outline schema) := by
  obtain ⟨w, hadd, hw⟩ := addDocument_outline h schema hnew doc
  refine ⟨w, ?_, hw⟩
  unfold bind
  rw [hnew]
  dsimp only
  rw [hadd]
  rfl

/-- Unbinding a bound document unwinds its ledger. -/
theorem unbind_spec {ix : Index} (h : ix.Sound) {id : DocumentId} {r : Record}
    (hr : ix.records.get? id = some r) :
    ∃ ix', ix.unbind id = .ok ix' ∧
      (ix.withoutRecord id r).Reslotted (unwound ix.entry? id r.ledger) ix' ∧ ix'.Sound := by
  obtain ⟨ix', hremove, hre, h'⟩ := removeDocument_spec h hr
  refine ⟨ix', ?_, hre, h'⟩
  unfold unbind
  rw [hr]
  dsimp only
  rw [hremove]
  rfl

/-- A command given to a sound index leads to a sound index, or it is refused for a reason other
than a fault. -/
theorem Sound.apply {ix : Index} (h : ix.Sound) (command : Command) :
    (∃ ix', command.apply ix = .ok ix' ∧ ix'.Sound) ∨
      ∃ error, command.apply ix = .error error ∧ ∀ fault, error ≠ .fault fault := by
  cases command with
  | bind schema id doc =>
    cases hr : ix.records.get? id with
    | none =>
      obtain ⟨w, hbind, hw, -⟩ := bind_spec h schema hr doc
      refine Or.inl ⟨w.sealed id, ?_, hw.sound h hr⟩
      rw [Command.apply, hbind]
      rfl
    | some r =>
      -- A document that is bound with the same text changes nothing, and with another one it is
      -- refused.
      by_cases htext : r.text = doc.text
      · refine Or.inl ⟨ix, ?_, h⟩
        simp only [Command.apply, bind, hr, if_pos htext]
        rfl
      · refine Or.inr ⟨.alreadyBound id, ?_, fun _ => Error.noConfusion⟩
        simp only [Command.apply, bind, hr, if_neg htext]
        rfl
  | unbind id =>
    cases hr : ix.records.get? id with
    | none =>
      refine Or.inr ⟨.notBound id, ?_, fun _ => Error.noConfusion⟩
      simp only [Command.apply, unbind, hr]
    | some r =>
      obtain ⟨ix', hunbind, -, h'⟩ := unbind_spec h hr
      exact Or.inl ⟨ix', hunbind, h'⟩
  | clear => exact Or.inl ⟨ix.clear, rfl, sound_empty _⟩

/-- A document that is bound is not bound again. -/
theorem run_bind_of_bound {ix : Index} {id : DocumentId} {r : Record}
    (hr : ix.records.get? id = some r) (schema : Schema) (doc : Document) :
    (Command.bind schema id doc).run ix = ix := by
  by_cases htext : r.text = doc.text
  · simp only [Command.run, Command.apply, bind, hr, if_pos htext]
    rfl
  · simp only [Command.run, Command.apply, bind, hr, if_neg htext]
    rfl

/-- A document that is not bound cannot be unbound. -/
theorem run_unbind_of_not_bound {ix : Index} {id : DocumentId} (hr : ix.records.get? id = none) :
    (Command.unbind id).run ix = ix := by
  simp only [Command.run, Command.apply, unbind, hr]

/-- A command keeps an index sound. -/
theorem Sound.run {ix : Index} (h : ix.Sound) (command : Command) : (command.run ix).Sound := by
  unfold Command.run
  rcases h.apply command with ⟨ix', happly, h'⟩ | ⟨error, happly, -⟩
  · rw [happly]
    exact h'
  · rw [happly]
    exact h

/-- Every history leads to a sound index. -/
theorem sound_run (limit : Nat) (commands : List Command) : (run limit commands).Sound :=
  List.foldlRecOn commands Command.run (sound_empty limit) fun _ h command _ => h.run command

/-! ## Declarations -/

/-- An element declares an entry exactly if it is the root of a bound document and the entry is the
file, or if it is bound to the entry. -/
theorem Sound.mem_declarations {ix : Index} (h : ix.Sound) {id : EntryId} {e : Entry}
    (he : ix.entry? id = some e) (d : Declaration) :
    d ∈ e.declarations ↔ ∃ r, ix.records.get? d.document = some r ∧
      (d.element = .root ∧ id = r.file ∨ r.bindings.get? d.element = some id) := by
  rw [h.ordered.accounted.declared he]
  cases hr : ix.records.get? d.document with
  | none =>
    rw [ledger_eq_nil hr]
    simp
  | some r =>
    rw [ledger_eq hr, Record.ledger, List.mem_cons, Prod.mk.injEq, ← OrderedMap.get?_eq_some_iff]
    simp

/-- The file of a bound document stands in the root. -/
theorem Sound.exists_file {ix : Index} (h : ix.Sound) {id : DocumentId} {r : Record}
    (hr : ix.records.get? id = some r) :
    ∃ e, ix.entry? r.file = some e ∧ e.parent = some .root := by
  have hl : ix.ledger id = [] ++ (.root, r.file) :: r.bindings.entries := ledger_eq hr
  obtain ⟨e, p, he, hp, hopen⟩ := h.ordered.accounted.nested hl
  rcases hopen with ⟨-, rfl⟩ | hmem
  · exact ⟨e, he, hp⟩
  · exact absurd hmem List.not_mem_nil

/-- An entry that is neither the root nor a file stands in a scope that is declared by every
document that declares the entry. -/
theorem Sound.exists_scope {ix : Index} (h : ix.Sound) {id : EntryId} {e : Entry}
    (he : ix.entry? id = some e) (hroot : id ≠ .root) (hfile : e.kind ≠ .file) :
    ∃ p s, e.parent = some p ∧ p ≠ .root ∧ ix.entry? p = some s ∧
      ∀ d ∈ e.declarations, ∃ element, (⟨d.document, element⟩ : Declaration) ∈ s.declarations := by
  obtain ⟨p, s, hp, hs, -⟩ := h.ordered.rooted.scope he hroot
  have hne : p ≠ .root := by
    rintro rfl
    rcases h.ordered.rooted.kind he hroot with ⟨hk, -⟩ | ⟨-, -, hk⟩
    · exact hfile hk
    · exact hk hp
  refine ⟨p, s, hp, hne, hs, fun d hd => ?_⟩
  obtain ⟨front, back, hl⟩ := List.append_of_mem ((h.ordered.accounted.declared he).1 hd)
  obtain ⟨element, hmem⟩ := h.ordered.accounted.exists_scope_line hl he hp hne
  refine ⟨element, (h.ordered.accounted.declared hs).2 ?_⟩
  rw [hl]
  exact List.mem_append_left _ hmem

/-- No entry stands for nothing. -/
theorem Sound.kind_ne {ix : Index} (h : ix.Sound) {id : EntryId} {e : Entry}
    (he : ix.entry? id = some e) : e.kind ≠ .undeclared := by
  by_cases hroot : id = .root
  · obtain ⟨r, hr, hk, -⟩ := h.ordered.rooted.root
    rw [hroot, hr] at he
    cases he
    rw [hk]
    decide
  · rcases h.ordered.rooted.kind he hroot with ⟨hk, -⟩ | ⟨-, hk, -⟩
    · rw [hk]
      decide
    · exact hk

/-- Without bound documents there is only the root. -/
theorem Sound.entry?_ne_none_iff {ix : Index} (h : ix.Sound) (hnone : ix.records.keys = [])
    (id : EntryId) : ix.entry? id ≠ none ↔ id = .root := by
  constructor
  · intro hne
    obtain ⟨e, he⟩ := Option.ne_none_iff_exists'.1 hne
    by_contra hroot
    obtain ⟨d, hd⟩ := h.ordered.accounted.kept he hroot
    obtain ⟨r, hr, -⟩ := (h.mem_declarations he d).1 hd
    have hkey : d.document ∉ ix.records.keys := by
      rw [hnone]
      exact List.not_mem_nil
    rw [OrderedMap.get?_eq_none_iff.2 hkey] at hr
    exact absurd hr (Option.some_ne_none r).symm
  · rintro rfl
    obtain ⟨r, hr, -⟩ := h.ordered.rooted.root
    rw [hr]
    exact Option.some_ne_none r

/-- All bound documents can be unbound one after another, in any order. -/
theorem Sound.unbindAll {ix : Index} (h : ix.Sound) {order : List DocumentId}
    (horder : order.Perm ix.records.keys) :
    ∃ ix', order.foldlM unbind ix = .ok ix' ∧ ix'.Sound ∧ ix'.records.keys = [] := by
  induction order generalizing ix with
  | nil => exact ⟨ix, rfl, h, List.nil_perm.1 horder⟩
  | cons id order ih =>
    obtain ⟨r, hr⟩ := OrderedMap.mem_keys_iff.1 (horder.subset List.mem_cons_self)
    obtain ⟨ix₁, hunbind, hre, h₁⟩ := unbind_spec h hr
    have hkeys : ix₁.records.keys = ix.records.keys.erase id := by
      rw [hre.rest]
      exact OrderedMap.keys_erase ..
    obtain ⟨ix', hrest, h', hnone⟩ := ih h₁ (by
      rw [hkeys]
      exact List.cons_perm_iff_perm_erase.1 horder |>.2)
    refine ⟨ix', ?_, h', hnone⟩
    rw [List.foldlM_cons, hunbind]
    exact hrest

/-- After every history the declarations of the entries are those in the records: an element
declares an entry exactly if its document is bound and the entry is that of its file or the one it
is bound to. Every entry but the root is declared, every document that declares an entry below a
file declares its scope, and no entry stands for nothing. When all documents are unbound, in any
order, only the root is left. -/
theorem declarations_run (limit : Nat) (commands : List Command) :
    (∀ id e, entry? (run limit commands) id = some e → ∀ d : Declaration,
      d ∈ e.declarations ↔ ∃ r, (run limit commands).records.get? d.document = some r ∧
        (d.element = .root ∧ id = r.file ∨ r.bindings.get? d.element = some id)) ∧
    (∀ id e, entry? (run limit commands) id = some e → id ≠ .root → ∃ d, d ∈ e.declarations) ∧
    (∀ id e, entry? (run limit commands) id = some e → id ≠ .root → e.kind ≠ .file →
      ∃ p s, e.parent = some p ∧ p ≠ .root ∧ entry? (run limit commands) p = some s ∧
        ∀ d ∈ e.declarations,
          ∃ element, (⟨d.document, element⟩ : Declaration) ∈ s.declarations) ∧
    (∀ id e, entry? (run limit commands) id = some e → e.kind ≠ .undeclared) ∧
    (∀ order : List DocumentId, order.Perm (run limit commands).records.keys →
      ∃ ix', order.foldlM unbind (run limit commands) = .ok ix' ∧
        ∀ id, ix'.entry? id ≠ none ↔ id = .root) := by
  have h := sound_run limit commands
  refine ⟨fun id e he d => h.mem_declarations he d, fun id e he => h.ordered.accounted.kept he,
    fun id e he => h.exists_scope he, fun id e he => h.kind_ne he, fun order horder => ?_⟩
  obtain ⟨ix', hall, h', hnone⟩ := h.unbindAll horder
  exact ⟨ix', hall, h'.entry?_ne_none_iff hnone⟩

/-! ## Symmetry -/

/-- Two indices that differ at most in their free slots. -/
structure Alike (ix ix' : Index) : Prop where
  /-- They try the same number of names. -/
  nameLimit : ix'.nameLimit = ix.nameLimit
  /-- The same entries are in the same slots, with the same names in them and the same declarations,
  both in the same order. -/
  entries : ∀ id, ix'.entry? id = ix.entry? id
  /-- They have the same number of entries. -/
  size : ix'.size = ix.size
  /-- The same entries refer to the same templates, in the same order. -/
  templates : ix'.templates = ix.templates
  /-- The same entries extend the same names, in the same order. -/
  extensions : ix'.extensions = ix.extensions
  /-- They have the same constants in the same order. -/
  constants : ix'.constants = ix.constants
  /-- They have the same handles in the same order. -/
  handles : ix'.handles = ix.handles
  /-- The same documents are bound, in the same order and with the same records. -/
  records : ix'.records = ix.records

/-- Taking the record of a walk out again, apart from the slots, leaves what was there before it. -/
theorem Walk.Follows.withoutRecord {ix : Index} {w : Walk} {id : DocumentId} {visited : Nat}
    (hw : w.Follows ix id visited) (h : ix.Sound) (hnew : ix.records.get? id = none) :
    (w.sealed id).withoutRecord id w.record =
      { ix with slots := w.index.slots, free := w.index.free } := by
  -- No constant or handle of the index is declared by a document that is not bound.
  have hother : ∀ {t : CrossReferences} {lines : Record → List (String × ElementId)},
      (∀ name d, d ∈ t.declared name ↔
        ∃ r, ix.records.get? d.document = some r ∧ (name, d.element) ∈ lines r) →
      ∀ name d, d ∈ t.declared name → d.document ≠ id := by
    rintro t lines ht name d hd rfl
    obtain ⟨r, hr, -⟩ := (ht name d).1 hd
    rw [hnew] at hr
    exact Option.some_ne_none r hr.symm
  have href := h.referenced
  unfold Index.withoutRecord Walk.sealed
  dsimp only
  rw [hw.records, OrderedMap.erase_insert hnew, hw.nameLimit, hw.templates, hw.extensions,
    hw.constants, hw.handles, ReferrerTable.releaseAll_acquireAll href.templates_proper,
    ExtensionTable.releaseAll_acquireAll href.extensions_proper,
    CrossReferences.removeAll_addAll href.constants_proper (hother href.constants)
      hw.constants_nodup,
    CrossReferences.removeAll_addAll href.handles_proper (hother href.handles) hw.handles_nodup]

/-- Unbinding a document right after it was bound to a sound index gives the index back. -/
theorem Sound.unbind_bind {ix : Index} (h : ix.Sound) (schema : Schema) {id : DocumentId}
    (hnew : ix.records.get? id = none) (doc : Document) :
    ∃ ix' file ix'', ix.bind schema id doc = .ok (ix', file) ∧ ix'.unbind id = .ok ix'' ∧
      ix.Alike ix'' := by
  obtain ⟨w, hbind, hw, -⟩ := bind_spec h schema hnew doc
  have hr : (w.sealed id).records.get? id = some w.record := by
    unfold Walk.sealed
    rw [OrderedMap.get?_insert, if_pos rfl]
  obtain ⟨ix'', hunbind, hre, h''⟩ := unbind_spec (hw.sound h hnew) hr
  -- Without the record of the document, the index is the one that the walk unwinds to.
  rw [hw.withoutRecord h hnew] at hre
  have hview : ix''.entry? = ix.entry? := hre.view.trans hw.unwinds
  have hrest := hre.rest
  refine ⟨w.sealed id, w.record.file, ix'', hbind, hunbind, ?_⟩
  exact
    { nameLimit := by rw [hrest]
      entries := fun id => by rw [hview]
      size := size_congr h''.ordered.freeListed h.ordered.freeListed hview
      templates := by rw [hrest]
      extensions := by rw [hrest]
      constants := by rw [hrest]
      handles := by rw [hrest]
      records := by rw [hrest] }

/-- After every history, binding a document that is not bound and unbinding it again succeeds and
gives the index back, up to its free slots. -/
theorem unbind_bind_run (limit : Nat) (commands : List Command) (schema : Schema) (id : DocumentId)
    (doc : Document) (hnew : (run limit commands).records.get? id = none) :
    ∃ ix' file ix'', (run limit commands).bind schema id doc = .ok (ix', file) ∧
      ix'.unbind id = .ok ix'' ∧ (run limit commands).Alike ix'' :=
  (sound_run limit commands).unbind_bind schema hnew doc

/-- A schema of frames in frames. -/
def frameSchema : Schema :=
  { types := #[{ name := "Frames", children := .ofList [("Frame", 0)], extraAttributes := true }]
    typeIds := .ofList [("Frames", 0)]
    definitions := #[{ name := "Frame", type := 0, kind := .frame }] }

/-- A document that declares one frame. -/
def buttonDocument (file : String) : Document :=
  .parse file "<Frame name=\"Button\"/>" frameSchema (some 0)

/-- A second document of the same name with the same frame can be bound and unbound again. -/
theorem unbind_bind_run_button :
    (run 1 [.bind frameSchema 0 (buttonDocument "Main")]).records.get? 1 = none ∧
      ∃ ix' file ix'',
        (run 1 [.bind frameSchema 0 (buttonDocument "Main")]).bind frameSchema 1
          (buttonDocument "Main") = .ok (ix', file) ∧
        ix'.unbind 1 = .ok ix'' ∧
        (run 1 [.bind frameSchema 0 (buttonDocument "Main")]).Alike ix'' :=
  ⟨by decide +kernel,
    unbind_bind_run 1 _ frameSchema 1 (buttonDocument "Main") (by decide +kernel)⟩

end LayoutMarkup.Index
