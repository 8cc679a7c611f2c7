import LayoutMarkup.Index.Binding
import LayoutMarkup.Proofs.Index.Ledger

/-!
# The steps of binding and unbinding

Binding declares one entry after another (`declareIn`), and unbinding drops the declarations from
the last to the first (`dropBinding`, then `dropFile`). On an index whose entries are in order these
steps cannot fail, and what they do to the entries is `Declares` and `undeclared`
(`declareIn_spec`, `dropBinding_spec`, `dropFile_spec`). In particular pruning never goes further
up than the entry that lost its declaration: its scope is the root or is declared by a line that is
still in the ledger. Dropping a whole ledger unwinds it (`dropLedger_spec`).
-/

namespace LayoutMarkup.Index

/-- The slots are in order: they make a tree, and its declarations are in the ledgers. -/
structure Ordered (ix : Index) (ledger : Ledger) : Prop where
  /-- The free list is kept. -/
  freeListed : ix.FreeListed
  /-- The entries make a tree. -/
  rooted : Entries.Rooted ix.entry?
  /-- What declares them is in the ledgers. -/
  accounted : Entries.Accounted ix.entry? ledger

/-! ## Declaring -/

/-- Adds a declaration to the entry of a name in a scope. -/
def declareIn (ix : Index) (d : Declaration) (scope : EntryId) (name : String) (kind : EntryKind) :
    Except Fault (Index × EntryId) := do
  let (ix, id) ← ix.child scope name kind
  let ix ← ix.adjust id fun e => { e with declarations := e.declarations.insert d }
  return (ix, id)

/-- In a scope that is there a declaration succeeds. -/
theorem declareIn_spec {ix : Index} (hfree : ix.FreeListed) (hr : Entries.Rooted ix.entry?)
    {scope : EntryId} {s : Entry} (hs : ix.entry? scope = some s) (d : Declaration) (name : String)
    (kind : EntryKind) :
    ∃ ix' id v', ix.declareIn d scope name kind = .ok (ix', id) ∧
      Entries.Declares ix.entry? d scope name kind id v' ∧ ix.Reslotted v' ix' := by
  cases hc : s.children.get? name with
  | some id =>
    obtain ⟨e, he, hp, -⟩ := hr.child hs hc
    -- Nothing in the tree is without a declaration, so the entry keeps what it stands for.
    have hkind : e.kind ≠ .undeclared := by
      rcases hr.kind he (hr.ne_root he hp) with ⟨hk, -⟩ | ⟨-, hk, -⟩
      · rw [hk]
        decide
      · exact hk
    have hchild : ix.child scope name kind = .ok (ix, id) := by
      simp only [child, entry_eq hs, ok_bind, hc, entry_eq he, hkind, if_false]
      rfl
    obtain ⟨ix', hadj, hre⟩ := adjust_spec hfree he
      fun e => { e with declarations := e.declarations.insert d }
    refine ⟨ix', id, _, ?_, .known hs hc he, hre⟩
    simp only [declareIn, hchild, ok_bind, hadj]
    rfl
  | none =>
    -- A new entry is allocated, it is named in the scope, and then it is declared.
    obtain ⟨hnone, hre⟩ := allocate_spec hfree
      { kind, path := s.path ++ [name], parent := some scope }
    generalize halloc : ix.allocate { kind, path := s.path ++ [name], parent := some scope } =
      alloc at hnone hre
    obtain ⟨ix₁, id⟩ := alloc
    dsimp only at hnone hre
    have hne : scope ≠ id := by
      rintro rfl
      rw [hs] at hnone
      exact Option.some_ne_none s hnone
    have hs₁ : ix₁.entry? scope = some s := by rw [hre.view, Function.update_of_ne hne, hs]
    obtain ⟨ix₂, hadj, hre₂⟩ := adjust_spec hre.freeListed hs₁
      fun e => { e with children := e.children.insert name id }
    have hchild : ix.child scope name kind = .ok (ix₂, id) := by
      simp only [child, entry_eq hs, ok_bind, hc, halloc, hadj]
      rfl
    have hid : ix₂.entry? id = some { kind, path := s.path ++ [name], parent := some scope } := by
      rw [hre₂.view, Function.update_of_ne hne.symm, hre.view, Function.update_self]
    obtain ⟨ix₃, hadj₃, hre₃⟩ := adjust_spec hre₂.freeListed hid
      fun e => { e with declarations := e.declarations.insert d }
    refine ⟨ix₃, id, _, ?_, .fresh hs hc hnone, ?_⟩
    · simp only [declareIn, hchild, ok_bind, hadj₃]
      rfl
    · -- The three updates are those of the entry and the scope, in another order.
      have hall := (hre.trans hre₂).trans hre₃
      rw [hre₂.view, hre.view, Function.update_comm hne, Function.update_idem,
        Function.update_comm hne.symm] at hall
      exact hall

/-- A declaration in a scope that is open for the document keeps the slots in order. -/
theorem Ordered.declares {ix ix' : Index} {ledger : Ledger} (h : ix.Ordered ledger)
    {d : Declaration} {scope id : EntryId} {name : String} {kind : EntryKind} {v' : Entries}
    (hd : Entries.Declares ix.entry? d scope name kind id v') (hre : ix.Reslotted v' ix')
    (hkind : scope = .root ∧ kind = .file ∨
      scope ≠ .root ∧ kind.isScope = false ∧ kind ≠ .undeclared)
    (hopen : Ledger.Opens (ledger d.document) scope) (hnew : (d.element, id) ∉ ledger d.document) :
    ix'.Ordered
      (Function.update ledger d.document (ledger d.document ++ [(d.element, id)])) := by
  refine ⟨hre.freeListed, ?_, ?_⟩
  · rw [hre.view]
    exact h.rooted.declares hd hkind
  · rw [hre.view]
    exact h.accounted.declares h.rooted hd hopen hnew

/-! ## Dropping -/

/-- Takes a declaration of a document out of an entry, and the entry out of the index if nothing
keeps it. -/
def dropBinding (ix : Index) (doc : DocumentId) (line : ElementId × EntryId) :
    Except Fault Index := do
  (← ix.dropDeclaration line.2 ⟨doc, line.1⟩).prune line.2

/-- The bindings of a document are dropped one by one. -/
theorem dropBindings_eq (ix : Index) (doc : DocumentId) (lines : List (ElementId × EntryId)) :
    ix.dropBindings doc lines = lines.reverse.foldlM (fun ix line => ix.dropBinding doc line) ix :=
  rfl

/-- An entry without names in it, or with other declarations, only loses the declaration. -/
theorem withoutDeclaration_eq {e : Entry} {d : Declaration}
    (h : (e.declarations.erase d).isEmpty = true → e.children.isEmpty = true) :
    e.withoutDeclaration d = { e with declarations := e.declarations.erase d } := by
  unfold Entry.withoutDeclaration
  refine if_neg fun hcond => ?_
  simp only [Bool.and_eq_true, Bool.not_eq_true'] at hcond
  rw [h hcond.1.1] at hcond
  exact Bool.noConfusion hcond.2

/-- Taking a declaration out of an entry in the order of the ledger succeeds. -/
theorem dropDeclaration_spec {ix : Index} {ledger : Ledger} (h : ix.Ordered ledger)
    {doc : DocumentId} {lines : List (ElementId × EntryId)} {element : ElementId} {id : EntryId}
    (hl : ledger doc = lines ++ [(element, id)]) {e : Entry} (he : ix.entry? id = some e) :
    ∃ ix', ix.dropDeclaration id ⟨doc, element⟩ = .ok ix' ∧
      ix.Reslotted (Function.update ix.entry? id
        (some { e with declarations := e.declarations.erase ⟨doc, element⟩ })) ix' := by
  obtain ⟨ix', hadj, hre⟩ := adjust_spec h.freeListed he (·.withoutDeclaration ⟨doc, element⟩)
  rw [withoutDeclaration_eq (h.accounted.isEmpty_children h.rooted hl he)] at hre
  exact ⟨ix', hadj, hre⟩

/-- Releasing an entry that has lost its last declaration undeclares it. -/
theorem release_undeclared {ix ix₁ : Index} {doc : DocumentId} {element : ElementId} {id : EntryId}
    {e : Entry} (he : ix.entry? id = some e)
    (hlast : (e.declarations.erase ⟨doc, element⟩).isEmpty = true)
    (hre : ix.Reslotted (Function.update ix.entry? id
      (some { e with declarations := e.declarations.erase ⟨doc, element⟩ })) ix₁) :
    ix.Reslotted (Entries.undeclared ix.entry? ⟨doc, element⟩ id) (ix₁.release id) := by
  have he₁ : ix₁.entry? id =
      some { e with declarations := e.declarations.erase ⟨doc, element⟩ } := by
    rw [hre.view, Function.update_self]
  have hrel := hre.trans (release_spec hre.freeListed he₁)
  rw [Entries.undeclared_eq_detach he hlast]
  -- Detaching overwrites the entry itself, so it does not matter that its declaration was erased
  -- before.
  have hview : Entries.detach ix₁.entry? id
      { e with declarations := e.declarations.erase ⟨doc, element⟩ } =
      Entries.detach ix.entry? id e := by
    funext j
    by_cases hj : j = id
    · rw [hj, Entries.detach, Entries.detach, Function.update_self, Function.update_self]
    · rw [Entries.detach_of_ne hj, Entries.detach_of_ne hj, hre.view, Function.update_of_ne hj]
      rfl
  rw [hview] at hrel
  exact hrel

/-- Dropping the last line of a ledger, other than that of the file, succeeds and undeclares its
entry. -/
theorem dropBinding_spec {ix : Index} {ledger : Ledger} (h : ix.Ordered ledger) {doc : DocumentId}
    {lines : List (ElementId × EntryId)} {line : ElementId × EntryId}
    (hl : ledger doc = lines ++ [line]) (hlines : lines ≠ []) :
    ∃ ix', ix.dropBinding doc line = .ok ix' ∧
      ix.Reslotted (Entries.undeclared ix.entry? ⟨doc, line.1⟩ line.2) ix' := by
  obtain ⟨element, id⟩ := line
  obtain ⟨e, p, he, hp, hopen⟩ := h.accounted.nested hl
  obtain ⟨ix₁, hdrop, hre⟩ := dropDeclaration_spec h hl he
  obtain ⟨s, hs, -, hpath⟩ := h.rooted.scope_of_parent he hp
  -- The scope stands in the ledger before the entry.
  have hmem : p ∈ lines.map Prod.snd := hopen.resolve_left fun hnil => hlines hnil.1
  obtain ⟨⟨element', q⟩, hq, rfl⟩ := List.mem_map.1 hmem
  have hscope : (⟨doc, element'⟩ : Declaration) ∈ s.declarations :=
    (h.accounted.declared hs).2 (by rw [hl]; simp [hq])
  obtain ⟨s', p', hs', hp'⟩ := h.accounted.exists_entry
    (show (element', q) ∈ ledger doc by rw [hl]; simp [hq])
  have hroot : q ≠ .root := h.rooted.ne_root hs' hp'
  have hkind : e.kind.isScope = false := by
    rcases h.rooted.kind he (h.rooted.ne_root he hp) with ⟨-, hk⟩ | ⟨hk, -⟩
    · rw [hp] at hk
      exact absurd (Option.some.inj hk) hroot
    · exact hk
  have he₁ : ix₁.entry? id =
      some { e with declarations := e.declarations.erase ⟨doc, element⟩ } := by
    rw [hre.view, Function.update_self]
  have hlen : e.path.length = s.path.length + 1 := by rw [hpath]; simp
  have hprune : ix.dropBinding doc (element, id) = pruneUp (s.path.length + 1) ix₁ id := by
    simp only [dropBinding, hdrop, ok_bind, prune, entry_eq he₁, hlen]
  rw [hprune, pruneUp, entry_eq he₁, ok_bind]
  cases hlast : (e.declarations.erase ⟨doc, element⟩).isEmpty with
  | false =>
    -- Other declarations keep the entry.
    refine ⟨ix₁, ?_, ?_⟩
    · simp only [Entry.isOrphan, hlast, Bool.false_and, Bool.not_false, Bool.or_true, if_true]
      rfl
    · rw [Entries.undeclared_eq_update he hlast]
      exact hre
  | true =>
    have hleaf := h.accounted.isEmpty_children h.rooted hl he hlast
    have hrel := release_undeclared he hlast hre
    refine ⟨ix₁.release id, ?_, hrel⟩
    simp only [Entry.isOrphan, hlast, hleaf, hkind, hp, Bool.and_self, Bool.not_true,
      Bool.or_self, Bool.false_eq_true, if_false]
    -- The scope is still declared, so pruning ends here.
    cases hdepth : s.path.length with
    | zero => rfl
    | succ depth =>
      obtain ⟨t, ht⟩ := Entries.exists_undeclared ⟨doc, element⟩ id hs hscope
        fun hsame => h.rooted.parent_ne he hp hsame.2
      obtain ⟨s₀, hs₀, -, hdecl⟩ := Entries.undeclared_eq_some ht
      rw [hs] at hs₀
      cases hs₀
      have hkept : t.declarations.isEmpty = false := OrderedSet.isEmpty_eq_false_iff.2
        ⟨⟨doc, element'⟩, (hdecl _).2 ⟨hscope, fun hsame => h.rooted.parent_ne he hp hsame.2⟩⟩
      rw [← hrel.view] at ht
      rw [pruneUp, entry_eq ht, ok_bind]
      simp only [Entry.isOrphan, hkept, Bool.false_and, Bool.not_false, Bool.or_true, if_true]
      rfl

/-- Dropping the line of the file, when it is the only one left, succeeds and undeclares the
file. -/
theorem dropFile_spec {ix : Index} {ledger : Ledger} (h : ix.Ordered ledger) {doc : DocumentId}
    {file : EntryId} (hl : ledger doc = [(.root, file)]) :
    ∃ ix', ix.dropFile doc file = .ok ix' ∧
      ix.Reslotted (Entries.undeclared ix.entry? ⟨doc, .root⟩ file) ix' := by
  have hl' : ledger doc = [] ++ [(.root, file)] := hl
  obtain ⟨e, p, he, hp, -⟩ := h.accounted.nested hl'
  obtain ⟨ix₁, hdrop, hre⟩ := dropDeclaration_spec h hl' he
  have he₁ : ix₁.entry? file =
      some { e with declarations := e.declarations.erase ⟨doc, .root⟩ } := by
    rw [hre.view, Function.update_self]
  simp only [dropFile, hdrop, ok_bind, entry_eq he₁]
  -- Another document may declare the file, too; then its entry stays.
  cases hlast : (e.declarations.erase ⟨doc, .root⟩).isEmpty with
  | false =>
    refine ⟨ix₁, ?_, ?_⟩
    · simp only [Entry.isOrphan, hlast, Bool.false_and, Bool.false_eq_true, if_false]
      rfl
    · rw [Entries.undeclared_eq_update he hlast]
      exact hre
  | true =>
    -- Without declarations it is released only if it has no children, and it has none: the file is
    -- the last line of its document.
    have hleaf := h.accounted.isEmpty_children h.rooted hl' he hlast
    refine ⟨ix₁.release file, ?_, release_undeclared he hlast hre⟩
    simp only [Entry.isOrphan, hlast, hleaf, Bool.and_self, if_true]
    rfl

/-- Dropping the last line of a ledger keeps the slots in order. -/
theorem Ordered.undeclared {ix ix' : Index} {ledger : Ledger} (h : ix.Ordered ledger)
    {doc : DocumentId} {lines : List (ElementId × EntryId)} {line : ElementId × EntryId}
    (hl : ledger doc = lines ++ [line])
    (hre : ix.Reslotted (Entries.undeclared ix.entry? ⟨doc, line.1⟩ line.2) ix') :
    ix'.Ordered (Function.update ledger doc lines) := by
  refine ⟨hre.freeListed, ?_, ?_⟩
  · rw [hre.view]
    exact h.rooted.undeclared h.accounted hl
  · rw [hre.view]
    exact h.accounted.undeclared hl

/-- The entries without the declarations of some lines of a ledger, the last one first. -/
def unwound (v : Entries) (doc : DocumentId) (lines : List (ElementId × EntryId)) : Entries :=
  lines.foldr (fun line v => Entries.undeclared v ⟨doc, line.1⟩ line.2) v

/-- Dropping all bindings of a document leaves the line of the file. -/
theorem dropBindings_spec {ix : Index} {ledger : Ledger} (h : ix.Ordered ledger) {doc : DocumentId}
    {file : ElementId × EntryId} {lines : List (ElementId × EntryId)}
    (hl : ledger doc = file :: lines) :
    ∃ ix', ix.dropBindings doc lines = .ok ix' ∧
      ix.Reslotted (unwound ix.entry? doc lines) ix' ∧
      ix'.Ordered (Function.update ledger doc [file]) := by
  rw [dropBindings_eq]
  -- The induction is on the lines from the back, in the order in which they are dropped.
  induction lines using List.reverseRecOn generalizing ix ledger with
  | nil =>
    refine ⟨ix, rfl, h.freeListed.reslotted, ?_⟩
    rw [← hl, Function.update_eq_self]
    exact h
  | append_singleton lines line ih =>
    have hl' : ledger doc = (file :: lines) ++ [line] := hl
    obtain ⟨ix₁, hdrop, hre⟩ := dropBinding_spec h hl' (List.cons_ne_nil _ _)
    have h₁ := h.undeclared hl' hre
    obtain ⟨ix', hrest, hre', h'⟩ := ih h₁ (Function.update_self ..)
    refine ⟨ix', ?_, ?_, ?_⟩
    · rw [List.reverse_append, List.reverse_singleton, List.singleton_append, List.foldlM_cons,
        hdrop, ok_bind, hrest]
    · have hall := hre.trans hre'
      rw [hre.view] at hall
      rw [unwound, List.foldr_append]
      exact hall
    · rw [Function.update_idem] at h'
      exact h'

/-- Dropping the whole ledger of a document unwinds it. -/
theorem dropLedger_spec {ix : Index} {ledger : Ledger} (h : ix.Ordered ledger) {doc : DocumentId}
    {file : EntryId} {lines : List (ElementId × EntryId)}
    (hl : ledger doc = (.root, file) :: lines) :
    ∃ ix', (do (← ix.dropBindings doc lines).dropFile doc file) = .ok ix' ∧
      ix.Reslotted (unwound ix.entry? doc (ledger doc)) ix' ∧
      ix'.Ordered (Function.update ledger doc []) := by
  obtain ⟨ix₁, hdrop, hre, h₁⟩ := dropBindings_spec h hl
  have hl₁ : Function.update ledger doc [(.root, file)] doc = [] ++ [(.root, file)] :=
    Function.update_self ..
  obtain ⟨ix₂, hfile, hre₂⟩ := dropFile_spec h₁ hl₁
  have h₂ := h₁.undeclared hl₁ hre₂
  refine ⟨ix₂, ?_, ?_, ?_⟩
  · rw [hdrop, ok_bind, hfile]
  · have hall := hre.trans hre₂
    rw [hre.view] at hall
    rw [hl]
    exact hall
  · rw [Function.update_idem] at h₂
    exact h₂

end LayoutMarkup.Index
