import LayoutMarkup.Proofs.Index.History

/-!
# Working on one document

Binding or unbinding a document is not noticed by the others. What the others see of the entries are
their own declarations, the places of the entries they declare, and the order of these in each scope
(`Entries.AlikeElsewhere`). Taking back one line of a ledger changes nothing of this
(`alikeElsewhere_undeclared`), so neither does unwinding the whole ledger
(`alikeElsewhere_unwound`). Unbinding unwinds the ledger of the document, and binding writes one
that unwinds to the entries from before: read forward or backward, both are the same statement
(`undisturbed_run`).
-/

namespace LayoutMarkup

/-- The declarations of an entry in other documents than the given one, in their order. -/
def Entry.elsewhere (e : Entry) (doc : DocumentId) : List Declaration :=
  e.declarations.elements.filter (·.document ≠ doc)

/-- An entry is declared in another document exactly if one of its declarations stands there. -/
theorem Entry.elsewhere_ne_nil_iff {e : Entry} {doc : DocumentId} :
    e.elsewhere doc ≠ [] ↔ ∃ d ∈ e.declarations, d.document ≠ doc := by
  unfold Entry.elsewhere
  rw [Ne, List.filter_eq_nil_iff]
  push Not
  simp only [decide_eq_true_eq]
  rfl

/-- Taking out a declaration of a document does not concern the others. -/
theorem Entry.elsewhere_erase (e : Entry) (doc : DocumentId) (element : ElementId) :
    Entry.elsewhere { e with declarations := e.declarations.erase ⟨doc, element⟩ } doc =
      e.elsewhere doc := by
  unfold Entry.elsewhere OrderedSet.erase
  rw [List.filter_filter]
  refine List.filter_congr fun d _ => ?_
  by_cases hd : d.document = doc
  · simp [hd]
  · have hne : d ≠ ⟨doc, element⟩ := fun h => hd (by rw [h])
    simp [hd, hne]

namespace Entries

variable {v v' v'' : Entries} {doc : DocumentId}

/-- The declarations of the entry in a slot in other documents than the given one. -/
def elsewhere (v : Entries) (doc : DocumentId) (id : EntryId) : List Declaration :=
  ((v id).map (·.elsewhere doc)).getD []

/-- The names in a scope whose entries are declared in other documents than the given one, in their
order. -/
def namesElsewhere (v : Entries) (doc : DocumentId) (scope : EntryId) : List (String × EntryId) :=
  (((v scope).map (·.children.entries)).getD []).filter fun c => v.elsewhere doc c.2 ≠ []

/-- The declarations of an entry that is there. -/
theorem elsewhere_eq {id : EntryId} {e : Entry} (he : v id = some e) :
    v.elsewhere doc id = e.elsewhere doc := by
  unfold elsewhere
  rw [he]
  rfl

/-- A free slot is declared nowhere. -/
theorem elsewhere_eq_nil {id : EntryId} (hid : v id = none) : v.elsewhere doc id = [] := by
  unfold elsewhere
  rw [hid]
  rfl

/-- Entries that look the same to all documents but one. -/
structure AlikeElsewhere (doc : DocumentId) (v v' : Entries) : Prop where
  /-- Every slot has the same declarations of other documents, in the same order. -/
  declarations : ∀ id, v'.elsewhere doc id = v.elsewhere doc id
  /-- An entry that another document declares stays in its slot and in its place. -/
  links : ∀ {id e}, v id = some e → v.elsewhere doc id ≠ [] →
    ∃ e', v' id = some e' ∧ SameLinks e e'
  /-- The names of such entries are in the same scopes, in the same order. -/
  names : ∀ scope, v'.namesElsewhere doc scope = v.namesElsewhere doc scope

/-- Entries look the same as themselves. -/
theorem AlikeElsewhere.refl (doc : DocumentId) (v : Entries) : AlikeElsewhere doc v v :=
  ⟨fun _ => rfl, fun he _ => ⟨_, he, ⟨rfl, rfl, rfl⟩⟩, fun _ => rfl⟩

/-- A change and a further one are one change. -/
theorem AlikeElsewhere.trans (h : AlikeElsewhere doc v v') (h' : AlikeElsewhere doc v' v'') :
    AlikeElsewhere doc v v'' := by
  refine ⟨fun id => (h'.declarations id).trans (h.declarations id), fun {id e} he hd => ?_,
    fun scope => (h'.names scope).trans (h.names scope)⟩
  have hd' : v'.elsewhere doc id ≠ [] := by
    rw [h.declarations id]
    exact hd
  obtain ⟨e', he', hl⟩ := h.links he hd
  obtain ⟨e'', he'', hl'⟩ := h'.links he' hd'
  exact ⟨e'', he'', hl'.kind.trans hl.kind, hl'.path.trans hl.path, hl'.parent.trans hl.parent⟩

/-- A change can be read backward. -/
theorem AlikeElsewhere.symm (h : AlikeElsewhere doc v v') : AlikeElsewhere doc v' v := by
  refine ⟨fun id => (h.declarations id).symm, fun {id e'} he' hd' => ?_,
    fun scope => (h.names scope).symm⟩
  have hd : v.elsewhere doc id ≠ [] := by
    rw [← h.declarations id]
    exact hd'
  obtain ⟨e, he⟩ : ∃ e, v id = some e := Option.ne_none_iff_exists'.1 fun hnone =>
    hd (elsewhere_eq_nil hnone)
  obtain ⟨f', hf', hl⟩ := h.links he hd
  rw [he'] at hf'
  cases hf'
  exact ⟨e, he, hl.kind.symm, hl.path.symm, hl.parent.symm⟩

/-! ## One line of a ledger -/

/-- An entry that goes with its last declaration is declared in no other document. -/
theorem elsewhere_eq_nil_of_last {e : Entry} {element : ElementId}
    (hlast : (e.declarations.erase ⟨doc, element⟩).isEmpty = true) : e.elsewhere doc = [] := by
  rw [← e.elsewhere_erase doc element, OrderedSet.isEmpty_eq_true_iff.1 hlast]
  rfl

/-- Undeclaring does not concern the declarations of other documents. -/
theorem elsewhere_undeclared (v : Entries) (doc : DocumentId) (element : ElementId)
    (id j : EntryId) :
    (v.undeclared ⟨doc, element⟩ id).elsewhere doc j = v.elsewhere doc j := by
  cases he : v id with
  | none => rw [undeclared, he]
  | some e =>
    -- Only the declaration of `doc` goes away. If it was the last one, the entry had none
    -- elsewhere.
    cases hlast : (e.declarations.erase ⟨doc, element⟩).isEmpty with
    | true =>
      rw [undeclared_eq_detach he hlast]
      by_cases hj : j = id
      · have hgone : v.detach id e id = none := Function.update_self ..
        rw [hj, elsewhere_eq_nil hgone, elsewhere_eq he, elsewhere_eq_nil_of_last hlast]
      · unfold elsewhere
        rw [detach_of_ne hj]
        split
        next => rw [Option.map_map]; rfl
        next => rfl
    | false =>
      rw [undeclared_eq_update he hlast]
      by_cases hj : j = id
      · rw [hj, elsewhere_eq (Function.update_self ..), elsewhere_eq he, Entry.elsewhere_erase]
      · unfold elsewhere
        rw [Function.update_of_ne hj]

/-- An entry that another document declares keeps its place when something is undeclared. -/
theorem exists_sameLinks_undeclared {id j : EntryId} {f : Entry} (hf : v j = some f)
    (hd : v.elsewhere doc j ≠ []) (element : ElementId) :
    ∃ f', v.undeclared ⟨doc, element⟩ id j = some f' ∧ SameLinks f f' := by
  rw [elsewhere_eq hf, Entry.elsewhere_ne_nil_iff] at hd
  obtain ⟨d, hmem, hdoc⟩ := hd
  have hne : ¬ (d = ⟨doc, element⟩ ∧ j = id) := fun h => hdoc (by rw [h.1])
  obtain ⟨f', hf'⟩ := exists_undeclared ⟨doc, element⟩ id hf hmem hne
  obtain ⟨f₀, hf₀, hlinks, -⟩ := undeclared_eq_some hf'
  rw [hf] at hf₀
  cases hf₀
  exact ⟨f', hf', hlinks⟩

/-- Taking back the last line of a ledger leaves the names of other documents in their order. -/
theorem namesElsewhere_undeclared {ledger : Ledger} (hr : v.Rooted) (hv : v.Accounted ledger)
    {lines : List (ElementId × EntryId)} {element : ElementId} {id : EntryId}
    (hl : ledger doc = lines ++ [(element, id)]) (scope : EntryId) :
    (v.undeclared ⟨doc, element⟩ id).namesElsewhere doc scope = v.namesElsewhere doc scope := by
  obtain ⟨e, p, he, hp⟩ := hv.exists_entry (show (element, id) ∈ ledger doc by rw [hl]; simp)
  -- What is declared elsewhere is the same, so only the names in the scope matter.
  unfold namesElsewhere
  simp only [elsewhere_undeclared]
  cases hlast : (e.declarations.erase ⟨doc, element⟩).isEmpty with
  | false =>
    rw [undeclared_eq_update he hlast]
    by_cases hs : scope = id
    · rw [hs, Function.update_self, he]
      rfl
    · rw [Function.update_of_ne hs]
  | true =>
    rw [undeclared_eq_detach he hlast]
    by_cases hs : scope = id
    · -- The entry that goes has no names in it.
      have hgone : v.detach id e id = none := Function.update_self ..
      have hleaf := OrderedMap.isEmpty_eq_true_iff.1 (hv.isEmpty_children hr hl he hlast)
      rw [hs, hgone, he, Option.map_some, Option.getD_some, hleaf]
      rfl
    · rw [detach_of_ne hs]
      split
      next hscope =>
        -- The only name that goes out of the scope is that of an entry no other document declares.
        obtain ⟨s, hs', hname, -⟩ := hr.scope_of_parent he hscope
        have hnone : v.elsewhere doc id = [] := by
          rw [elsewhere_eq he, elsewhere_eq_nil_of_last hlast]
        rw [hs', Option.map_some, Option.map_some, Option.map_some, Option.getD_some,
          Option.getD_some]
        show (s.children.entries.filter _).filter _ = _
        rw [List.filter_filter]
        refine List.filter_congr fun c hc => ?_
        by_cases hcn : c.1 = e.name
        · have hcid : c.2 = id := OrderedMap.snd_eq_of_mem_entries hname hc hcn
          simp [hcid, hnone]
        · simp [hcn]
      next => rfl

/-- Taking back the last line of a ledger is not noticed by other documents. -/
theorem alikeElsewhere_undeclared {ledger : Ledger} (hr : v.Rooted) (hv : v.Accounted ledger)
    {lines : List (ElementId × EntryId)} {element : ElementId} {id : EntryId}
    (hl : ledger doc = lines ++ [(element, id)]) :
    AlikeElsewhere doc v (v.undeclared ⟨doc, element⟩ id) :=
  ⟨elsewhere_undeclared v doc element id, fun hf hd => exists_sameLinks_undeclared hf hd element,
    namesElsewhere_undeclared hr hv hl⟩

/-- Unwinding the ledger of a document is not noticed by the others. -/
theorem alikeElsewhere_unwound {ledger : Ledger} (hr : v.Rooted) (hv : v.Accounted ledger)
    {lines : List (ElementId × EntryId)} (hl : ledger doc = lines) :
    AlikeElsewhere doc v (Index.unwound v doc lines) := by
  -- The induction is on the lines from the back, in the order in which they are taken back.
  induction lines using List.reverseRecOn generalizing v ledger with
  | nil => exact AlikeElsewhere.refl doc v
  | append_singleton lines line ih =>
    have hstep := alikeElsewhere_undeclared hr hv hl
    have hrest := ih (hr.undeclared hv hl) (hv.undeclared hl) (Function.update_self ..)
    rw [Index.unwound, List.foldr_append]
    exact hstep.trans hrest

end Entries

namespace Index

/-- An index after a change to one document, as the other documents see it. -/
structure Undisturbed (doc : DocumentId) (ix ix' : Index) : Prop where
  /-- The records of the other documents are the same. -/
  records : ∀ other, other ≠ doc → ix'.records.get? other = ix.records.get? other
  /-- An entry that another document declares stays in its slot with its name, scope, kind and path,
  its path leads to it, and its declarations in other documents are the same, in the same order. -/
  entries : ∀ {id e}, ix.entry? id = some e → (∃ d ∈ e.declarations, d.document ≠ doc) →
    ∃ e', ix'.entry? id = some e' ∧ e'.name = e.name ∧ e'.parent = e.parent ∧ e'.kind = e.kind ∧
      e'.path = e.path ∧ e'.elsewhere doc = e.elsewhere doc ∧
      ix.lookupNames? .root e.path = some id ∧ ix'.lookupNames? .root e.path = some id
  /-- In every scope the names of such entries are the same, in the same order. -/
  siblings : ∀ scope, Entries.namesElsewhere ix'.entry? doc scope =
    Entries.namesElsewhere ix.entry? doc scope

/-- Sound indices whose entries look the same to all documents but one, and which have the same
records for them, differ only in what concerns that one. -/
theorem Sound.undisturbed {ix ix' : Index} (h : ix.Sound) (h' : ix'.Sound) {doc : DocumentId}
    (hrecords : ∀ other, other ≠ doc → ix'.records.get? other = ix.records.get? other)
    (halike : Entries.AlikeElsewhere doc ix.entry? ix'.entry?) : Undisturbed doc ix ix' := by
  refine ⟨hrecords, fun {id e} he hd => ?_, halike.names⟩
  have hhere : Entries.elsewhere ix.entry? doc id ≠ [] := by
    rw [Entries.elsewhere_eq he, Entry.elsewhere_ne_nil_iff]
    exact hd
  obtain ⟨e', he', hlinks⟩ := halike.links he hhere
  have hdecls := halike.declarations id
  rw [Entries.elsewhere_eq he, Entries.elsewhere_eq he'] at hdecls
  have hlook := lookupNames?_path h'.ordered.rooted he'
  rw [hlinks.path] at hlook
  exact ⟨e', he', hlinks.name, hlinks.parent, hlinks.kind, hlinks.path, hdecls,
    lookupNames?_path h.ordered.rooted he, hlook⟩

/-- Unbinding a document does not disturb the others. -/
theorem Sound.undisturbed_unbind {ix ix' : Index} (h : ix.Sound) {doc : DocumentId}
    (hunbind : ix.unbind doc = .ok ix') : Undisturbed doc ix ix' := by
  cases hr : ix.records.get? doc with
  | none =>
    rw [unbind, hr] at hunbind
    cases hunbind
  | some r =>
    obtain ⟨ix₁, hunbind₁, hre, h₁⟩ := unbind_spec h hr
    rw [hunbind] at hunbind₁
    cases hunbind₁
    have hrecords : ix'.records = ix.records.erase doc := by
      rw [hre.rest]
      rfl
    refine h.undisturbed h₁ (fun other hne => ?_) ?_
    · rw [hrecords, OrderedMap.get?_erase, if_neg hne]
    · rw [hre.view]
      exact Entries.alikeElsewhere_unwound h.ordered.rooted h.ordered.accounted (ledger_eq hr)

/-- Binding a document does not disturb the others. -/
theorem Sound.undisturbed_bind {ix ix' : Index} (h : ix.Sound) {schema : Schema} {id : DocumentId}
    {doc : Document} {file : EntryId} (hbind : ix.bind schema id doc = .ok (ix', file)) :
    Undisturbed id ix ix' := by
  cases hr : ix.records.get? id with
  | some r =>
    -- A document that is bound with the same text stays as it is.
    have hsame : ix' = ix := by
      rw [bind, hr] at hbind
      dsimp only at hbind
      split at hbind
      next => cases hbind; rfl
      next => cases hbind
    rw [hsame]
    exact h.undisturbed h (fun _ _ => rfl) (Entries.AlikeElsewhere.refl ..)
  | none =>
    obtain ⟨w, hbind₁, hw, -⟩ := bind_spec h schema hr doc
    rw [hbind] at hbind₁
    cases hbind₁
    have hrecords : (w.sealed id).records = ix.records.insert id w.record := by
      unfold Walk.sealed
      rw [hw.records]
    refine h.undisturbed (hw.sound h hr) (fun other hne => ?_) ?_
    · rw [hrecords, OrderedMap.get?_insert, if_neg hne]
    · -- The ledger that was written unwinds to the entries from before.
      have hback := Entries.alikeElsewhere_unwound hw.ordered.rooted hw.ordered.accounted
        (Function.update_self id w.record.ledger ix.ledger)
      rw [hw.unwinds] at hback
      exact hback.symm

/-- After every history, a bind or an unbind of a document that succeeds does not disturb the other
documents. -/
theorem undisturbed_run (limit : Nat) (commands : List Command) (id : DocumentId) (ix' : Index)
    (hdone : (∃ schema doc file, (run limit commands).bind schema id doc = .ok (ix', file)) ∨
      (run limit commands).unbind id = .ok ix') :
    Undisturbed id (run limit commands) ix' := by
  have h := sound_run limit commands
  rcases hdone with ⟨schema, doc, file, hbind⟩ | hunbind
  · exact h.undisturbed_bind hbind
  · exact h.undisturbed_unbind hunbind

/-- When the first of two documents with the same frame is unbound, the frame keeps the declaration
of the second one. -/
theorem undisturbed_run_button :
    ∃ ix', (run 1 [.bind frameSchema 0 (buttonDocument "Main"),
        .bind frameSchema 1 (buttonDocument "Main")]).unbind 0 = .ok ix' ∧
      Undisturbed 0 (run 1 [.bind frameSchema 0 (buttonDocument "Main"),
        .bind frameSchema 1 (buttonDocument "Main")]) ix' ∧
      ∃ e, ix'.entry? 2 = some e ∧ e.path = ["Main", "Button"] ∧ e.elsewhere 0 = [⟨1, 1⟩] := by
  have hunbind : (run 1 [.bind frameSchema 0 (buttonDocument "Main"),
      .bind frameSchema 1 (buttonDocument "Main")]).unbind 0 =
      .ok (run 1 [.bind frameSchema 0 (buttonDocument "Main"),
        .bind frameSchema 1 (buttonDocument "Main"), .unbind 0]) := by
    decide +kernel
  exact ⟨_, hunbind, undisturbed_run 1 _ 0 _ (Or.inr hunbind), by decide +kernel⟩

end Index

end LayoutMarkup
