import LayoutMarkup.Proofs.Index.Listing

/-!
# What entries stand for

An entry gets its kind from the element that founds it: the one that is bound when the name is not
yet in its scope. `Founded` says when that was and what has become of it. The entry has kept its
slot, its path and its kind since then; and as long as the document of the founding element has not
been taken out, that element is the first declaration of the entry. Every entry below a file is
founded (`founded_run`), so its kind is that of one of its declarations as long as the document
stays.

After that the kind need not be that of any declaration that is left (`kind_outlives_declaration`):
elements of different kinds may declare one name, and taking a document out does not look at kinds
while an entry has other declarations.
-/

namespace LayoutMarkup

/-- The kind of an entry is that of an element that declares it, in the documents that are held. -/
def Entry.KindDeclared (held : OrderedMap DocumentId Index.Holding) (e : Entry) : Prop :=
  ∃ d ∈ e.declarations.elements, ∃ b ∈ held.get? d.document, ∃ element ∈ b.doc.get? d.element,
    EntryKind.ofNodeKind? (element.kind b.schema) = some e.kind

instance (held : OrderedMap DocumentId Index.Holding) (e : Entry) :
    Decidable (e.KindDeclared held) :=
  inferInstanceAs (Decidable (∃ d ∈ e.declarations.elements, ∃ b ∈ held.get? d.document,
    ∃ element ∈ b.doc.get? d.element,
      EntryKind.ofNodeKind? (element.kind b.schema) = some e.kind))

/-- Elements that are added do not change which one is first. -/
theorem OrderedSet.first?_insert {α : Type} [DecidableEq α] {s : OrderedSet α} {a : α}
    (h : s.first? = some a) (b : α) : (s.insert b).first? = some a := by
  by_cases hb : b ∈ s
  · have hsame : s.insert b = s := dif_pos hb
    rw [hsame, h]
  · have hhead : s.elements.head? = some a := h
    unfold first?
    rw [elements_insert hb, List.head?_append, hhead, Option.some_or]

namespace Index

/-! ## Binding -/

namespace Walk

/-- Entries that were there before a walk keep their first declaration. Those that the walk has made
below its file have the kind of their first declaration, which is one of the elements visited. -/
structure Founds (ix : Index) (schema : Schema) (id : DocumentId) (done : List Element) (w : Walk) :
    Prop where
  /-- There is a place for each element visited. -/
  length : done.length = w.places.size
  /-- An entry from before has the first declaration from before. -/
  old : ∀ {j f e d}, ix.entry? j = some f → w.index.entry? j = some e →
    f.declarations.first? = some d → e.declarations.first? = some d
  /-- A new entry has the kind of its first declaration. -/
  new : ∀ {j e}, ix.entry? j = none → w.index.entry? j = some e → e.kind ≠ .file →
    ∃ k element, done[k]? = some element ∧
      EntryKind.ofNodeKind? (element.kind schema) = some e.kind ∧
      e.declarations.first? = some ⟨id, k⟩

variable {ix : Index} {id : DocumentId} {w : Walk}

/-- An entry from before a walk is still there, in its place. -/
theorem Follows.exists_entry {visited : Nat} (h : w.Follows ix id visited) {j : EntryId} {f : Entry}
    (hf : ix.entry? j = some f) :
    ∃ e, w.index.entry? j = some e ∧ Entries.SameLinks f e := by
  obtain ⟨e, he, hlinks⟩ := unwound_eq_some (h.unwinds.symm ▸ hf)
  exact ⟨e, he, hlinks.kind.symm, hlinks.path.symm, hlinks.parent.symm⟩

/-- A declaration leaves old entries as they were founded, and may found its own. -/
theorem Founds.declares {schema : Schema} {done : List Element} (h : w.Founds ix schema id done)
    (hw : w.Follows ix id w.places.size) {e : Element} {scope entry : EntryId} {name : String}
    {kind : EntryKind} {v' : Entries}
    (hkind : EntryKind.ofNodeKind? (e.kind schema) = some kind)
    (hd : Entries.Declares w.index.entry? ⟨id, w.places.size⟩ scope name kind entry v')
    {w' : Walk} (hview : w'.index.entry? = v') (hplaces : w'.places.size = w.places.size + 1) :
    w'.Founds ix schema id (done ++ [e]) := by
  have hmore : ∀ {k : ElementId} {element}, done[k]? = some element →
      (done ++ [e])[k]? = some element := by
    intro k element hk
    rw [List.getElem?_append_left (List.getElem?_eq_some_iff.1 hk).1, hk]
  -- Whatever the first declaration was, it still is.
  have hfirst : ∀ {f f' : Entry} {j : EntryId} {d : Declaration},
      (j ≠ entry ∧ f'.declarations = f.declarations ∨
        j = entry ∧ f'.declarations = f.declarations.insert ⟨id, w.places.size⟩) →
      f.declarations.first? = some d → f'.declarations.first? = some d := by
    rintro f f' j d (⟨-, hsame⟩ | ⟨-, hinsert⟩) hd
    · rw [hsame, hd]
    · rw [hinsert]
      exact OrderedSet.first?_insert hd _
  refine ⟨by rw [List.length_append, h.length, hplaces]; rfl, fun hf he hd' => ?_,
    fun hnone he hfile => ?_⟩
  · -- An entry from before the walk is not the one that is made here.
    rcases hd.entry_cases (hview ▸ he) with ⟨g, hg, -, hdecl⟩ | ⟨hfree, -⟩
    · exact hfirst hdecl (h.old hf hg hd')
    · obtain ⟨g, hg, -⟩ := hw.exists_entry hf
      rw [hfree] at hg
      exact absurd hg (Option.some_ne_none g).symm
  · rcases hd.entry_cases (hview ▸ he) with ⟨g, hg, hlinks, hdecl⟩ | ⟨-, -, hkind', hdecl⟩
    · obtain ⟨k, element, hk, helement, hd'⟩ := h.new hnone hg (hlinks.kind ▸ hfile)
      exact ⟨k, element, hmore hk, hlinks.kind.symm ▸ helement, hfirst hdecl hd'⟩
    · -- The entry is made here, and the visited element declares it.
      refine ⟨w.places.size, e, ?_, hkind' ▸ hkind, ?_⟩
      · rw [← h.length, List.getElem?_concat_length]
      · rw [hdecl, OrderedSet.first?, OrderedSet.elements_insert List.not_mem_nil]
        rfl

/-- A visit that does not touch the entries founds nothing. -/
theorem Founds.leave {schema : Schema} {done : List Element} (h : w.Founds ix schema id done)
    {u : Walk} (hview : u.index.entry? = w.index.entry?) (hplaces : u.places = w.places)
    (e : Element) (place : Option Place) :
    (u.leave place).Founds ix schema id (done ++ [e]) := by
  refine ⟨?_, fun hf he => h.old hf (hview ▸ he), fun hnone he hfile => ?_⟩
  · rw [size_leave, hplaces, List.length_append, h.length]
    rfl
  · obtain ⟨k, element, hk, hrest⟩ := h.new hnone (hview ▸ he) hfile
    refine ⟨k, element, ?_, hrest⟩
    rw [List.getElem?_append_left (List.getElem?_eq_some_iff.1 hk).1, hk]

/-- A visit founds at most the entry that it declares. -/
theorem Founds.visits {schema : Schema} {done : List Element} (h : w.Founds ix schema id done)
    (hw : w.Follows ix id w.places.size) {doc : Document} {e : Element} {w' : Walk}
    (hw' : w.Visits schema id doc e w') : w'.Founds ix schema id (done ++ [e]) := by
  cases hw' with
  | outside => exact h.leave rfl rfl e none
  | within => exact h.leave rfl rfl e _
  | unnamed => exact h.leave rfl rfl e none
  | constant =>
    cases e.attributeValue? "name" with
    | none => exact h.leave rfl rfl e none
    | some name => exact h.leave (u := w.addConstant ⟨id, w.places.size⟩ name) rfl rfl e none
  | property =>
    cases e.handle? schema with
    | none => exact h.leave rfl rfl e none
    | some name => exact h.leave (u := w.addHandle ⟨id, w.places.size⟩ name) rfl rfl e none
  | @declares place kind name index entry v' hplace hkind hdeclares hname hd hre =>
    refine h.declares hw hkind hd ?_ ?_
    · exact (entry?_declared ..).trans hre.view
    · rw [size_leave, places_declared]

end Walk

/-- Binding a document that is not bound keeps the first declarations of the entries that were
there, and founds the others below its file. -/
theorem bind_founds {ix : Index} (h : ix.Sound) (schema : Schema) {id : DocumentId}
    (hnew : ix.records.get? id = none) (doc : Document) :
    ∃ w : Walk, (Command.bind schema id doc).run ix = w.sealed id ∧
      w.Follows ix id w.places.size ∧ w.Founds ix schema id doc.elements.toList := by
  obtain ⟨w, hadd, hw, hfounds⟩ := addDocument_spec h schema hnew doc
    (P := fun done w => w.Founds ix schema id done)
    (fun {index file v'} hd hre => by
      refine ⟨rfl, fun {j f e d} hf he hd' => ?_, fun {j e} hnone he hfile => ?_⟩
      · rcases hd.entry_cases (hre.view ▸ he) with
          ⟨g, hg, -, ⟨-, hsame⟩ | ⟨-, hinsert⟩⟩ | ⟨hfree, -⟩
        · rw [hf] at hg
          cases hg
          rw [hsame, hd']
        · rw [hf] at hg
          cases hg
          rw [hinsert]
          exact OrderedSet.first?_insert hd' _
        · rw [hf] at hfree
          exact absurd hfree (Option.some_ne_none f)
      · -- The only entry that is made at the beginning is a file.
        rcases hd.entry_cases (hre.view ▸ he) with ⟨g, hg, -⟩ | ⟨-, -, hkind, -⟩
        · rw [hnone] at hg
          exact absurd hg (Option.some_ne_none g).symm
        · exact absurd hkind hfile)
    (fun hw hdone hvisits => hdone.visits hw hvisits)
  exact ⟨w, run_bind_of_added hnew hadd, hw, hfounds⟩

/-! ## Histories -/

/-- An entry was founded by an element of a document that a command of the history has bound. -/
structure Founded (limit : Nat) (commands : List Command) (id : EntryId) (e : Entry)
    (before after : List Command) (d : Declaration) (b : Holding) : Prop where
  /-- The command is one of the history. -/
  history : commands = before ++ .bind b.schema d.document b.doc :: after
  /-- Before the command the document is not bound. -/
  unbound : (run limit before).records.get? d.document = none
  /-- Before the command no entry has the path. -/
  unknown : ∀ j f, entry? (run limit before) j = some f → f.path ≠ e.path
  /-- The entry has the kind of the element. -/
  kind : ∃ element, b.doc.get? d.element = some element ∧
    EntryKind.ofNodeKind? (element.kind b.schema) = some e.kind
  /-- From then on the entry keeps its slot, path and kind, and the element is its first declaration
  until the document is taken out. -/
  kept : ∀ mid, mid <+: after →
    ∃ f, entry? (run limit (before ++ .bind b.schema d.document b.doc :: mid)) id = some f ∧
      f.path = e.path ∧ f.kind = e.kind ∧
      (.unbind d.document ∉ mid → f.declarations.first? = some d)
  /-- The document is held until it is taken out. -/
  held : .unbind d.document ∉ after → (held commands).get? d.document = some b

variable {limit : Nat} {commands before after : List Command} {id : EntryId} {e : Entry}
  {d : Declaration} {b : Holding}

/-- An entry stays founded under a command that leaves it in its place, and that takes the founding
element from the first place only with its document. -/
theorem Founded.concat (h : Founded limit commands id e before after d b)
    (he : entry? (run limit commands) id = some e) {command : Command} {e' : Entry}
    (he' : entry? (run limit (commands ++ [command])) id = some e')
    (hlinks : Entries.SameLinks e e')
    (hfirst : command ≠ .unbind d.document → e.declarations.first? = some d →
      e'.declarations.first? = some d)
    (hheld : command ≠ .unbind d.document → (Index.held commands).get? d.document = some b →
      (Index.held (commands ++ [command])).get? d.document = some b) :
    Founded limit (commands ++ [command]) id e' before (after ++ [command]) d b := by
  have hhistory : commands ++ [command] =
      before ++ .bind b.schema d.document b.doc :: (after ++ [command]) := by
    rw [h.history]
    simp
  -- The founding document is still bound only if neither the last command nor one before it unbinds
  -- it.
  have hsplit : .unbind d.document ∉ after ++ [command] →
      .unbind d.document ∉ after ∧ command ≠ .unbind d.document := by
    intro hnot
    refine ⟨fun hmem => hnot (List.mem_append_left _ hmem), fun hsame => hnot ?_⟩
    rw [hsame]
    exact List.mem_append_right _ (List.mem_singleton_self _)
  refine ⟨hhistory, h.unbound, fun j f hf => hlinks.path ▸ h.unknown j f hf, hlinks.kind ▸ h.kind,
    fun mid hmid => ?_, fun hnot => ?_⟩
  · -- The time after the last command, or a time before that.
    rcases List.prefix_concat_iff.1 hmid with rfl | hmid
    · rw [← hhistory]
      refine ⟨e', he', rfl, rfl, fun hnot => ?_⟩
      obtain ⟨hafter, hcommand⟩ := hsplit hnot
      obtain ⟨f, hf, -, -, hd⟩ := h.kept after (List.prefix_refl after)
      rw [← h.history, he] at hf
      cases hf
      exact hfirst hcommand (hd hafter)
    · obtain ⟨f, hf, hpath, hkind, hd⟩ := h.kept mid hmid
      exact ⟨f, hf, hpath.trans hlinks.path.symm, hkind.trans hlinks.kind.symm, hd⟩
  · obtain ⟨hafter, hcommand⟩ := hsplit hnot
    exact hheld hcommand (h.held hafter)

/-- Binding a document that is not bound founds the entries below its file that were not there. -/
theorem founded_bind {schema : Schema} {doc : DocumentId} {document : Document}
    (hnew : (run limit commands).records.get? doc = none)
    (hheld : Index.held (commands ++ [.bind schema doc document]) =
      (Index.held commands).insert doc ⟨schema, document⟩)
    (hnone : entry? (run limit commands) id = none)
    (he : entry? (run limit (commands ++ [.bind schema doc document])) id = some e)
    (hfile : e.kind ≠ .file) :
    ∃ k, Founded limit (commands ++ [.bind schema doc document]) id e commands [] ⟨doc, k⟩
      ⟨schema, document⟩ := by
  obtain ⟨w, hrun, hw, hfounds⟩ := bind_founds (sound_run limit commands) schema hnew document
  have he' : w.index.entry? id = some e := by
    rw [run_concat, hrun] at he
    exact he
  obtain ⟨k, element, hk, hkind, hfirst⟩ := hfounds.new hnone he' hfile
  refine ⟨k, rfl, hnew, fun j f hf hpath => ?_, ⟨element, ?_, hkind⟩, fun mid hmid => ?_,
    fun _ => ?_⟩
  · -- An entry with the path would still be there, and no two entries have the same path.
    obtain ⟨f', hf', hlinks⟩ := hw.exists_entry hf
    have hj := hw.ordered.rooted.id_eq_of_path_eq hf' he' (hlinks.path.trans hpath)
    rw [hj, hnone] at hf
    exact Option.some_ne_none f hf.symm
  · rw [Document.get?, ← Array.getElem?_toList]
    exact hk
  · rw [List.prefix_nil.1 hmid]
    exact ⟨e, he, rfl, rfl, fun _ => hfirst⟩
  · rw [hheld, OrderedMap.get?_insert, if_pos rfl]

/-- After every history each entry below a file is founded. -/
theorem exists_founded (limit : Nat) (commands : List Command) :
    ∀ id e, entry? (run limit commands) id = some e → e.kind ≠ .root → e.kind ≠ .file →
      ∃ before after d b, Founded limit commands id e before after d b := by
  induction commands using run_induction limit with
  | start =>
    intro id e he hroot
    rw [eq_of_entry?_empty he] at hroot
    exact absurd rfl hroot
  | @idle commands command ih hrun hheld =>
    intro id e he hroot hfile
    have he₁ : entry? (run limit commands) id = some e := hrun ▸ he
    obtain ⟨before, after, d, b, hf⟩ := ih id e he₁ hroot hfile
    exact ⟨before, after ++ [command], d, b, hf.concat he₁ he ⟨rfl, rfl, rfl⟩ (fun _ hd => hd)
      fun _ hb => hheld.symm ▸ hb⟩
  | @bind commands schema doc document ih hnew hheld =>
    intro id e he hroot hfile
    -- The walk makes the entry, or leaves it in its place.
    cases he₁ : entry? (run limit commands) id with
    | none =>
      obtain ⟨k, hf⟩ := founded_bind hnew hheld he₁ he hfile
      exact ⟨_, _, _, _, hf⟩
    | some e₁ =>
      obtain ⟨w, hrun, hw, hfounds⟩ := bind_founds (sound_run limit commands) schema hnew document
      obtain ⟨e₂, he₂, hlinks⟩ := hw.exists_entry he₁
      have hsame : w.index.entry? id = some e := by
        rw [run_concat, hrun] at he
        exact he
      rw [hsame] at he₂
      cases he₂
      obtain ⟨before, after, d, b, hf⟩ := ih id e₁ he₁ (hlinks.kind ▸ hroot) (hlinks.kind ▸ hfile)
      refine ⟨before, after ++ [_], d, b, hf.concat he₁ he hlinks
        (fun _ hd => hfounds.old he₁ hsame hd) fun _ hb => ?_⟩
      -- The document of the founding element is held, so it is not the one that is bound now.
      rw [hheld, OrderedMap.get?_insert, if_neg ?_]
      · exact hb
      · intro hdoc
        rw [hdoc, ((holds_run limit commands).bound doc).2 hnew] at hb
        exact Option.some_ne_none b hb.symm
  | @unbind commands doc r ih hr hre =>
    intro id e he hroot hfile
    obtain ⟨e₁, he₁, hlinks, helements⟩ := (sound_run limit commands).elements_unwound
      (sound_run limit _) hr hre he
    obtain ⟨before, after, d, b, hf⟩ := ih id e₁ he₁ (hlinks.kind ▸ hroot) (hlinks.kind ▸ hfile)
    refine ⟨before, after ++ [_], d, b, hf.concat he₁ he hlinks (fun hne hd => ?_)
      fun hne hb => ?_⟩
    · -- The first declaration stands in another document, and so stays the first.
      have hdoc : d.document ≠ doc := fun hdoc => hne (by rw [hdoc])
      obtain ⟨rest, hrest⟩ := List.head?_eq_some_iff.1 hd
      rw [OrderedSet.first?, helements, Entry.elsewhere, hrest, List.filter_cons,
        if_pos (decide_eq_true hdoc), List.head?_cons]
    · have hdoc : d.document ≠ doc := fun hdoc => hne (by rw [hdoc])
      rw [held_concat, Command.hold, OrderedMap.get?_erase, if_neg hdoc, hb]
  | @clear commands hrun =>
    intro id e he hroot
    rw [hrun] at he
    rw [eq_of_entry?_empty he] at hroot
    exact absurd rfl hroot

/-- After every history each entry that is neither the root nor a file was founded by an element of
its kind. The entry has kept its slot, its path and its kind since then, and as long as the document
of that element has not been taken out, the element is the first declaration of the entry, so that
the kind of the entry is that of one of its declarations. -/
theorem founded_run (limit : Nat) (commands : List Command) (id : EntryId) (e : Entry)
    (he : entry? (run limit commands) id = some e) (hroot : e.kind ≠ .root)
    (hfile : e.kind ≠ .file) :
    ∃ before after d b, Founded limit commands id e before after d b ∧
      (.unbind d.document ∉ after →
        e.declarations.first? = some d ∧ e.KindDeclared (held commands)) := by
  obtain ⟨before, after, d, b, hf⟩ := exists_founded limit commands id e he hroot hfile
  refine ⟨before, after, d, b, hf, fun hnot => ?_⟩
  obtain ⟨f, hf', -, -, hfirst⟩ := hf.kept after (List.prefix_refl after)
  rw [← hf.history, he] at hf'
  cases hf'
  obtain ⟨element, helement, hkind⟩ := hf.kind
  exact ⟨hfirst hnot, d, List.mem_of_head? (hfirst hnot), b, hf.held hnot, element, helement, hkind⟩

/-- A schema of frames and animations in frames. -/
def motionSchema : Schema :=
  { types := #[
      { name := "Frames"
        children := .ofList [("Frame", 0), ("Animation", 1)]
        extraAttributes := true }]
    typeIds := .ofList [("Frames", 0)]
    definitions := #[
      { name := "Frame", type := 0, kind := .frame },
      { name := "Animation", type := 0, kind := .animation }] }

/-- A frame and an animation in another document declare the same name. -/
def motionCommands : List Command :=
  [.bind motionSchema 1 (.parse "Main" "<Frame name=\"M\"><Frame name=\"X\"/></Frame>" motionSchema
      (some 0)),
    .bind motionSchema 2 (.parse "Main" "<Frame name=\"M\"><Animation name=\"X\"/></Frame>"
      motionSchema (some 0))]

/-- The entry of the name. -/
def motionEntry : Entry where
  kind := .frame
  path := ["Main", "M", "X"]
  parent := some 2
  declarations := (OrderedSet.singleton ⟨1, 2⟩).insert ⟨2, 2⟩

/-- The entry of the name was founded by the frame, which declares it first. -/
theorem founded_run_motion :
    entry? (run 1 motionCommands) 3 = some motionEntry ∧ motionEntry.kind ≠ .root ∧
      motionEntry.kind ≠ .file ∧
      ∃ before after d b, Founded 1 motionCommands 3 motionEntry before after d b ∧
        .unbind d.document ∉ after ∧ motionEntry.declarations.first? = some d ∧
        motionEntry.KindDeclared (held motionCommands) := by
  have hentry : entry? (run 1 motionCommands) 3 = some motionEntry := by decide +kernel
  obtain ⟨before, after, d, b, hf, hdeclared⟩ :=
    founded_run 1 motionCommands 3 motionEntry hentry (by decide) (by decide)
  have hnot : .unbind d.document ∉ after := by
    intro hmem
    have hall : .unbind d.document ∈ motionCommands := by
      rw [hf.history]
      exact List.mem_append_right before (List.mem_cons_of_mem _ hmem)
    simp [motionCommands] at hall
  exact ⟨hentry, by decide, by decide, before, after, d, b, hf, hnot, hdeclared hnot⟩

/-- When the document with the frame is unbound, the entry of the name is still a frame, and only
the animation declares it. -/
theorem kind_outlives_declaration :
    ∃ id e, entry? (run 1 (motionCommands ++ [.unbind 1])) id = some e ∧ e.kind ≠ .root ∧
      e.kind ≠ .file ∧ ¬ e.KindDeclared (held (motionCommands ++ [.unbind 1])) :=
  ⟨3, { motionEntry with declarations := .singleton ⟨2, 2⟩ }, by decide +kernel, by decide,
    by decide, by decide +kernel⟩

end Index

end LayoutMarkup
