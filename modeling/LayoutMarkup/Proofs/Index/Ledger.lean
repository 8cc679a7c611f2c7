import LayoutMarkup.Proofs.Index.Tree

/-!
# Declaring and undeclaring

What declares the entries of an index is written in the ledgers of the bound documents
(`Entries.Accounted`). A ledger lists the elements of one document with their entries, in the order
in which they were bound and the file first. Beside the declarations themselves a ledger says one
thing about the tree: an entry comes after its scope. So whatever part of a document is bound,
everything that declares an entry declares its scope.

Binding adds a line to a ledger and unbinding takes the last one off. `Declares` and `undeclared`
are what this does to the entries. Both keep the tree and the accounts, and the second undoes the
first (`undeclared_of_declares`), because an entry that has lost its last declaration has no names
in it (`Accounted.isEmpty_children`).
-/

namespace LayoutMarkup

/-- For each document the elements it has bound and their entries, in the order of binding. -/
abbrev Ledger := DocumentId → List (ElementId × EntryId)

/-- A document with the first lines of a ledger may bind its next element in a scope: its file in
the root, and all else in what is bound already. -/
def Ledger.Opens (lines : List (ElementId × EntryId)) (scope : EntryId) : Prop :=
  lines = [] ∧ scope = .root ∨ scope ∈ lines.map Prod.snd

/-- Where a list with a marked place has a last element, that is at the place or behind it. -/
theorem append_cons_eq_concat {α : Type} {front back lines : List α} {x y : α}
    (h : front ++ x :: back = lines ++ [y]) :
    back = [] ∧ front = lines ∧ x = y ∨
      ∃ rest, back = rest ++ [y] ∧ lines = front ++ x :: rest := by
  rcases List.eq_nil_or_concat back with rfl | ⟨rest, z, rfl⟩
  · obtain ⟨hfront, hx⟩ := List.append_inj' h rfl
    exact Or.inl ⟨rfl, hfront, List.singleton_inj.1 hx⟩
  · rw [List.concat_eq_append] at h ⊢
    have h' : (front ++ x :: rest) ++ [z] = lines ++ [y] := by simpa using h
    obtain ⟨hlines, hz⟩ := List.append_inj' h' rfl
    exact Or.inr ⟨rest, by rw [List.singleton_inj.1 hz], hlines.symm⟩

namespace Entries

/-! ## Declaring and undeclaring -/

/-- What a declaration of a name in a scope does to the entries: it goes to the entry of the name,
which is made if there is none. -/
inductive Declares (v : Entries) (d : Declaration) (scope : EntryId) (name : String)
    (kind : EntryKind) (id : EntryId) : Entries → Prop where
  /-- The name is in the scope. -/
  | known {s e : Entry} (hs : v scope = some s) (hc : s.children.get? name = some id)
      (he : v id = some e) :
      Declares v d scope name kind id
        (Function.update v id (some { e with declarations := e.declarations.insert d }))
  /-- The name is new. -/
  | fresh {s : Entry} (hs : v scope = some s) (hc : s.children.get? name = none)
      (hid : v id = none) :
      Declares v d scope name kind id
        (Function.update
          (Function.update v scope (some { s with children := s.children.insert name id })) id
          (some (newcomer s scope name kind (OrderedSet.insert ∅ d))))

/-- The entries without a declaration of an entry, and without the entry if that was the last
one. -/
def undeclared (v : Entries) (d : Declaration) (id : EntryId) : Entries :=
  match v id with
  | none => v
  | some e =>
    if (e.declarations.erase d).isEmpty then v.detach id e
    else Function.update v id (some { e with declarations := e.declarations.erase d })

/-- With its last declaration an entry goes. -/
theorem undeclared_eq_detach {v : Entries} {d : Declaration} {id : EntryId} {e : Entry}
    (he : v id = some e) (hlast : (e.declarations.erase d).isEmpty = true) :
    v.undeclared d id = v.detach id e := by
  rw [undeclared, he]
  exact if_pos hlast

/-- An entry with more declarations loses one of them. -/
theorem undeclared_eq_update {v : Entries} {d : Declaration} {id : EntryId} {e : Entry}
    (he : v id = some e) (hmore : (e.declarations.erase d).isEmpty = false) :
    v.undeclared d id =
      Function.update v id (some { e with declarations := e.declarations.erase d }) := by
  rw [undeclared, he]
  exact if_neg (by rw [hmore]; exact Bool.false_ne_true)

/-- Undeclaring what was declared last restores the entries. -/
theorem undeclared_of_declares {v v' : Entries} {d : Declaration} {scope id : EntryId}
    {name : String} {kind : EntryKind} (h : Declares v d scope name kind id v')
    (hold : ∀ e, v id = some e → d ∉ e.declarations ∧ e.declarations.isEmpty = false) :
    v'.undeclared d id = v := by
  cases h with
  | @known s e hs hc he =>
    obtain ⟨hd, hne⟩ := hold e he
    have hrest := OrderedSet.erase_insert hd
    rw [undeclared_eq_update (Function.update_self ..) (by rw [hrest, hne]), hrest,
      Function.update_idem, ← he, Function.update_eq_self]
  | @fresh s hs hc hid =>
    have hrest : OrderedSet.erase (OrderedSet.insert ∅ d) d = ∅ :=
      OrderedSet.erase_insert List.not_mem_nil
    have hlast : ((newcomer s scope name kind (OrderedSet.insert ∅ d)).declarations.erase
        d).isEmpty = true := OrderedSet.isEmpty_eq_true_iff.2 hrest
    rw [undeclared_eq_detach (Function.update_self ..) hlast]
    -- The entry was new, so it went with its only declaration, and its name with it.
    funext j
    by_cases hj : j = id
    · rw [hj, detach, Function.update_self, hid]
    · rw [detach_of_ne hj, name_newcomer, parent_newcomer]
      by_cases hjs : j = scope
      · subst hjs
        rw [if_pos rfl, Function.update_of_ne hj, Function.update_self, Option.map_some, hs]
        simp only [OrderedMap.erase_insert hc]
      · rw [if_neg fun h => hjs (Option.some.inj h).symm, Function.update_of_ne hj,
          Function.update_of_ne hjs]

/-- Declaring keeps the tree. -/
theorem Rooted.declares {v v' : Entries} (hv : v.Rooted) {d : Declaration} {scope id : EntryId}
    {name : String} {kind : EntryKind} (h : Declares v d scope name kind id v')
    (hkind : scope = .root ∧ kind = .file ∨
      scope ≠ .root ∧ kind.isScope = false ∧ kind ≠ .undeclared) : v'.Rooted := by
  cases h with
  | known hs hc he => exact hv.redeclare he _
  | fresh hs hc hid => exact hv.attach hs hc hid hkind _

/-- Every entry stays in its place when something is declared. -/
theorem Declares.exists_sameLinks {v v' : Entries} {d : Declaration} {scope id : EntryId}
    {name : String} {kind : EntryKind} (h : Declares v d scope name kind id v') {j : EntryId}
    {f : Entry} (hf : v j = some f) : ∃ f', v' j = some f' ∧ SameLinks f f' := by
  cases h with
  -- An entry that is known gets a declaration, which is no link.
  | @known s e hs hc he =>
    obtain ⟨f', hf', hlinks, -⟩ := exists_redeclare he hf
    exact ⟨f', hf', hlinks⟩
  -- A fresh one takes an empty slot and is noted at its scope, whose own links stay.
  | @fresh s hs hc hid =>
    obtain ⟨f', hf', hlinks, -⟩ := exists_attach hs hc hid (newcomer s scope name kind _) hf
    exact ⟨f', hf', hlinks⟩

/-- After a declaration its entry stands in the scope under the name. -/
theorem Declares.exists_entry {v v' : Entries} (hv : v.Rooted) {d : Declaration}
    {scope id : EntryId} {name : String} {kind : EntryKind}
    (h : Declares v d scope name kind id v') :
    ∃ s e, v scope = some s ∧ v' id = some e ∧ e.parent = some scope ∧
      e.path = s.path ++ [name] := by
  cases h with
  | @known s e hs hc he =>
    obtain ⟨e', he', hp, hpath⟩ := hv.child hs hc
    rw [he] at he'
    cases he'
    exact ⟨s, _, hs, Function.update_self .., hp, hpath⟩
  | @fresh s hs hc hid => exact ⟨s, _, hs, Function.update_self .., rfl, rfl⟩

/-- An entry that is there after a declaration was there before, in the same place, and has this
declaration more if it is the one that was declared; or it is the one that the declaration has
made. -/
theorem Declares.entry_cases {v v' : Entries} {d : Declaration} {scope id : EntryId}
    {name : String} {kind : EntryKind} (h : Declares v d scope name kind id v') {j : EntryId}
    {f' : Entry} (hf' : v' j = some f') :
    (∃ f, v j = some f ∧ SameLinks f f' ∧
      (j ≠ id ∧ f'.declarations = f.declarations ∨
        j = id ∧ f'.declarations = f.declarations.insert d)) ∨
    v j = none ∧ j = id ∧ f'.kind = kind ∧ f'.declarations = OrderedSet.insert ∅ d := by
  cases h with
  | @known s e hs hc he =>
    obtain ⟨f, hf, hlinks, hsame | ⟨rfl, rfl, hmore⟩⟩ := redeclare_cases he hf'
    · exact Or.inl ⟨f, hf, hlinks, Or.inl hsame⟩
    · exact Or.inl ⟨f, hf, hlinks, Or.inr ⟨rfl, hmore⟩⟩
  | @fresh s hs hc hid =>
    rcases attach_cases hs hf' with ⟨rfl, rfl⟩ | ⟨hj, f, hf, hlinks, hsame, -⟩
    · exact Or.inr ⟨hid, rfl, rfl, rfl⟩
    · exact Or.inl ⟨f, hf, hlinks, Or.inl ⟨hj, hsame⟩⟩

/-- The declarations of the entries after one was added. -/
theorem Declares.mem_declarations {v v' : Entries} {d : Declaration} {scope id : EntryId}
    {name : String} {kind : EntryKind} (h : Declares v d scope name kind id v') {j : EntryId}
    {f' : Entry} (hf' : v' j = some f') {d' : Declaration} :
    d' ∈ f'.declarations ↔ (∃ f, v j = some f ∧ d' ∈ f.declarations) ∨ d' = d ∧ j = id := by
  rcases h.entry_cases hf' with ⟨f, hf, -, ⟨hj, hsame⟩ | ⟨rfl, hmore⟩⟩ | ⟨hfree, rfl, -, hone⟩
  · rw [hsame]
    simp [hf, hj]
  · rw [hmore, OrderedSet.mem_insert]
    simp [hf]
  · have hempty : d' ∉ (∅ : OrderedSet Declaration) := List.not_mem_nil
    rw [hone, OrderedSet.mem_insert]
    simp [hfree, hempty]

/-! ## The accounts -/

/-- What declares the entries is what the ledgers say. -/
structure Accounted (v : Entries) (ledger : Ledger) : Prop where
  /-- An element declares an entry exactly if it is in its ledger with the entry. -/
  declared : ∀ {id e} {d : Declaration}, v id = some e →
    (d ∈ e.declarations ↔ (d.element, id) ∈ ledger d.document)
  /-- Every entry but the root is declared. -/
  kept : ∀ {id e}, v id = some e → id ≠ .root → ∃ d, d ∈ e.declarations
  /-- In every ledger an entry comes after its scope. -/
  nested : ∀ {doc front x back}, ledger doc = front ++ x :: back →
    ∃ e p, v x.2 = some e ∧ e.parent = some p ∧ Ledger.Opens front p
  /-- No line of a ledger stands twice. -/
  distinct : ∀ doc, (ledger doc).Nodup

/-- An entry in a ledger is there, and it has a scope. -/
theorem Accounted.exists_entry {v : Entries} {ledger : Ledger} (hv : v.Accounted ledger)
    {doc : DocumentId} {element : ElementId} {id : EntryId}
    (h : (element, id) ∈ ledger doc) : ∃ e p, v id = some e ∧ e.parent = some p := by
  obtain ⟨front, back, hl⟩ := List.append_of_mem h
  obtain ⟨e, p, he, hp, -⟩ := hv.nested hl
  exact ⟨e, p, he, hp⟩

/-- A document that declares an entry in a scope other than the root has declared the scope
before. -/
theorem Accounted.exists_scope_line {v : Entries} {ledger : Ledger} (hv : v.Accounted ledger)
    {doc : DocumentId} {front back : List (ElementId × EntryId)} {x : ElementId × EntryId}
    (hl : ledger doc = front ++ x :: back) {e : Entry} {p : EntryId} (he : v x.2 = some e)
    (hp : e.parent = some p) (hroot : p ≠ .root) : ∃ element, (element, p) ∈ front := by
  obtain ⟨e', p', he', hp', hopen⟩ := hv.nested hl
  rw [he] at he'
  cases he'
  rw [hp] at hp'
  cases hp'
  rcases hopen with ⟨-, hr⟩ | hmem
  · exact absurd hr hroot
  · obtain ⟨⟨element, q⟩, hq, rfl⟩ := List.mem_map.1 hmem
    exact ⟨element, hq⟩

/-- An entry that loses its last declaration has no names in it: whatever declares a name in it has
declared the entry before. -/
theorem Accounted.isEmpty_children {v : Entries} {ledger : Ledger} (hr : v.Rooted)
    (hv : v.Accounted ledger) {doc : DocumentId} {lines : List (ElementId × EntryId)}
    {element : ElementId} {id : EntryId} (hl : ledger doc = lines ++ [(element, id)]) {e : Entry}
    (he : v id = some e) (hlast : (e.declarations.erase ⟨doc, element⟩).isEmpty = true) :
    e.children.isEmpty = true := by
  obtain ⟨e', p', he', hp'⟩ := hv.exists_entry (show (element, id) ∈ ledger doc by rw [hl]; simp)
  rw [he] at he'
  cases he'
  have hid : id ≠ .root := hr.ne_root he hp'
  rw [OrderedMap.isEmpty_eq_true_iff]
  by_contra hne
  -- There is a name in the entry, and a line of some ledger for it.
  obtain ⟨⟨name, c⟩, hc⟩ := List.exists_mem_of_ne_nil e.children.entries
    fun hnil => hne (OrderedMap.ext hnil)
  obtain ⟨f, hf, hfp, -⟩ := hr.child he (OrderedMap.get?_eq_some_iff.2 hc)
  obtain ⟨d, hd⟩ := hv.kept hf (hr.ne_root hf hfp)
  obtain ⟨front, back, hsplit⟩ := List.append_of_mem ((hv.declared hf).1 hd)
  -- The entry has a line before that one, which therefore is not the last line for the entry.
  obtain ⟨element', hfront⟩ := hv.exists_scope_line hsplit hf hfp hid
  have hdecl : (⟨d.document, element'⟩ : Declaration) ∈ e.declarations :=
    (hv.declared he).2 (by rw [hsplit]; simp [hfront])
  have hsame : (⟨d.document, element'⟩ : Declaration) = ⟨doc, element⟩ := by
    by_contra hne'
    have hmem := OrderedSet.mem_erase.2 ⟨hdecl, hne'⟩
    rw [OrderedSet.isEmpty_eq_true_iff.1 hlast] at hmem
    exact List.not_mem_nil hmem
  obtain ⟨hdoc, hel⟩ := Declaration.mk.inj hsame
  subst hdoc hel
  have hnd := hv.distinct d.document
  rw [hl] at hnd hsplit
  have hnot : (element', id) ∉ lines := fun hmem =>
    (List.nodup_append.1 hnd).2.2 _ hmem _ (List.mem_singleton_self _) rfl
  rcases append_cons_eq_concat hsplit.symm with ⟨-, rfl, -⟩ | ⟨rest, -, hrest⟩
  · exact hnot hfront
  · exact hnot (by rw [hrest]; simp [hfront])

/-- A line of a ledger that got a last line is an old one or the new one. -/
theorem mem_update_append_iff {ledger : Ledger} {d : Declaration} {id : EntryId}
    {doc : DocumentId} {element : ElementId} {j : EntryId} :
    (element, j) ∈ Function.update ledger d.document (ledger d.document ++ [(d.element, id)]) doc ↔
      (element, j) ∈ ledger doc ∨ (⟨doc, element⟩ : Declaration) = d ∧ j = id := by
  by_cases hdoc : doc = d.document
  · subst hdoc
    rw [Function.update_self, List.mem_append, List.mem_singleton, Prod.mk.injEq]
    rw [show (⟨d.document, element⟩ : Declaration) = d ↔ element = d.element by
      cases d; simp]
  · have hd : (⟨doc, element⟩ : Declaration) ≠ d := fun hd => hdoc (by rw [← hd])
    rw [Function.update_of_ne hdoc]
    simp [hd]

/-- Declaring makes no entry but that of the declaration. -/
theorem Declares.exists_of_ne {v v' : Entries} {d : Declaration} {scope id : EntryId}
    {name : String} {kind : EntryKind} (h : Declares v d scope name kind id v') {j : EntryId}
    {f' : Entry} (hf' : v' j = some f') (hj : j ≠ id) : ∃ f, v j = some f := by
  rcases h.entry_cases hf' with ⟨f, hf, -⟩ | ⟨-, rfl, -⟩
  · exact ⟨f, hf⟩
  · exact absurd rfl hj

/-- Declaring keeps the accounts, with a new last line for the document. -/
theorem Accounted.declares {v v' : Entries} {ledger : Ledger} (hr : v.Rooted)
    (hv : v.Accounted ledger) {d : Declaration} {scope id : EntryId} {name : String}
    {kind : EntryKind} (h : Declares v d scope name kind id v')
    (hopen : Ledger.Opens (ledger d.document) scope) (hnew : (d.element, id) ∉ ledger d.document) :
    v'.Accounted
      (Function.update ledger d.document (ledger d.document ++ [(d.element, id)])) := by
  obtain ⟨s, e, hs, he, hparent, -⟩ := h.exists_entry hr
  refine ⟨fun {j f' d'} hf' => ?_, fun {j f'} hf' hj => ?_, fun {doc front x back} hl => ?_,
    fun doc => ?_⟩
  · rw [h.mem_declarations hf', mem_update_append_iff]
    refine or_congr ⟨?_, fun hm => ?_⟩ Iff.rfl
    · rintro ⟨f, hf, hd'⟩
      exact (hv.declared hf).1 hd'
    · obtain ⟨f, -, hf, -⟩ := hv.exists_entry hm
      exact ⟨f, hf, (hv.declared hf).2 hm⟩
  · by_cases hjid : j = id
    · exact ⟨d, (h.mem_declarations hf').2 (Or.inr ⟨rfl, hjid⟩)⟩
    · -- The other entries keep what declares them.
      obtain ⟨f, hf⟩ := h.exists_of_ne hf' hjid
      obtain ⟨d', hd'⟩ := hv.kept hf hj
      exact ⟨d', (h.mem_declarations hf').2 (Or.inl ⟨f, hf, hd'⟩)⟩
  · -- A line that was there keeps its place; the new line is in a scope that is open for it.
    have hold : ∀ {rest}, ledger doc = front ++ x :: rest →
        ∃ e p, v' x.2 = some e ∧ e.parent = some p ∧ Ledger.Opens front p := by
      intro rest hrest
      obtain ⟨f, p, hf, hp, hop⟩ := hv.nested hrest
      obtain ⟨f', hf', hlinks⟩ := h.exists_sameLinks hf
      exact ⟨f', p, hf', hlinks.parent.trans hp, hop⟩
    by_cases hdoc : doc = d.document
    · subst hdoc
      rw [Function.update_self] at hl
      rcases append_cons_eq_concat hl.symm with ⟨-, rfl, rfl⟩ | ⟨rest, -, hrest⟩
      · exact ⟨e, scope, he, hparent, hopen⟩
      · exact hold hrest
    · rw [Function.update_of_ne hdoc] at hl
      exact hold hl
  · by_cases hdoc : doc = d.document
    · subst hdoc
      rw [Function.update_self]
      exact OrderedSet.nodup_append_new (hv.distinct _) hnew
    · rw [Function.update_of_ne hdoc]
      exact hv.distinct doc

/-- An entry that stays when something is undeclared keeps its place and its other declarations. -/
theorem undeclared_eq_some {v : Entries} {d : Declaration} {id j : EntryId} {f' : Entry}
    (h : v.undeclared d id j = some f') : ∃ f, v j = some f ∧ SameLinks f f' ∧
      ∀ d', d' ∈ f'.declarations ↔ d' ∈ f.declarations ∧ ¬ (d' = d ∧ j = id) := by
  cases he : v id with
  | none =>
    -- An entry that is not there loses nothing.
    have hf : v j = some f' := by
      rw [undeclared, he] at h
      exact h
    have hj : j ≠ id := by
      rintro rfl
      rw [he] at hf
      exact Option.some_ne_none f' hf.symm
    exact ⟨f', hf, ⟨rfl, rfl, rfl⟩, fun d' => by simp [hj]⟩
  | some e =>
    -- With its last declaration the entry goes, else it only loses the declaration.
    cases hlast : (e.declarations.erase d).isEmpty with
    | true =>
      rw [undeclared_eq_detach he hlast] at h
      obtain ⟨hj, f, hf, hlinks, hdecl, -⟩ := detach_eq_some h
      exact ⟨f, hf, hlinks, fun d' => by rw [hdecl]; simp [hj]⟩
    | false =>
      rw [undeclared_eq_update he hlast] at h
      obtain ⟨f, hf, hlinks, ⟨hj, hsame⟩ | ⟨rfl, rfl, hless⟩⟩ := redeclare_cases he h
      · exact ⟨f, hf, hlinks, fun d' => by rw [hsame]; simp [hj]⟩
      · refine ⟨f, hf, hlinks, fun d' => ?_⟩
        rw [hless, OrderedSet.mem_erase]
        simp

/-- An entry stays when something is undeclared, unless that was its last declaration. -/
theorem exists_undeclared {v : Entries} (d : Declaration) (id : EntryId) {d' : Declaration}
    {j : EntryId} {f : Entry} (hf : v j = some f) (hd' : d' ∈ f.declarations)
    (hne : ¬ (d' = d ∧ j = id)) : ∃ f', v.undeclared d id j = some f' := by
  cases he : v id with
  | none => exact ⟨f, by rw [undeclared, he]; exact hf⟩
  | some e =>
    cases hlast : (e.declarations.erase d).isEmpty with
    | true =>
      rw [undeclared_eq_detach he hlast]
      -- Without `d` the entry has no declaration left, so it is not declared by `d'`.
      refine exists_detach e (fun hj => ?_) hf
      subst hj
      rw [he] at hf
      cases hf
      have hmem := OrderedSet.mem_erase.2 ⟨hd', fun h => hne ⟨h, rfl⟩⟩
      rw [OrderedSet.isEmpty_eq_true_iff.1 hlast] at hmem
      exact List.not_mem_nil hmem
    | false =>
      rw [undeclared_eq_update he hlast]
      obtain ⟨f', hf', -⟩ := exists_redeclare he hf
      exact ⟨f', hf'⟩

/-- Undeclaring the last line of a ledger keeps the tree. -/
theorem Rooted.undeclared {v : Entries} {ledger : Ledger} (hr : v.Rooted)
    (hv : v.Accounted ledger) {doc : DocumentId} {lines : List (ElementId × EntryId)}
    {element : ElementId} {id : EntryId} (hl : ledger doc = lines ++ [(element, id)]) :
    (v.undeclared ⟨doc, element⟩ id).Rooted := by
  obtain ⟨e, p, he, hp⟩ := hv.exists_entry (show (element, id) ∈ ledger doc by rw [hl]; simp)
  cases hlast : (e.declarations.erase ⟨doc, element⟩).isEmpty with
  | true =>
    rw [undeclared_eq_detach he hlast]
    exact hr.detach he hp (hv.isEmpty_children hr hl he hlast)
  | false =>
    rw [undeclared_eq_update he hlast]
    exact hr.redeclare he _

/-- An entry that was declared and stays when something is undeclared is declared by something
else. -/
theorem exists_mem_of_undeclared {v : Entries} {d d' : Declaration} {id j : EntryId} {f f' : Entry}
    (hf : v j = some f) (hd' : d' ∈ f.declarations) (hf' : v.undeclared d id j = some f') :
    ∃ d'', d'' ∈ f'.declarations := by
  obtain ⟨f₀, hf₀, -, hdecl⟩ := undeclared_eq_some hf'
  obtain rfl : f = f₀ := Option.some_inj.1 (hf.symm.trans hf₀)
  by_contra hnone
  have hall : ∀ d'' ∈ f.declarations, d'' = d ∧ j = id := fun d'' hd'' =>
    by_contra fun hne => hnone ⟨d'', (hdecl d'').2 ⟨hd'', hne⟩⟩
  obtain ⟨-, rfl⟩ := hall d' hd'
  -- Otherwise the declaration was the last one, and the entry went with it.
  have hlast : (f.declarations.erase d).isEmpty = true := by
    by_contra hmore
    obtain ⟨d'', hd''⟩ := OrderedSet.isEmpty_eq_false_iff.1 (Bool.eq_false_iff.2 hmore)
    obtain ⟨hmem, hne⟩ := OrderedSet.mem_erase.1 hd''
    exact hne (hall d'' hmem).1
  rw [undeclared_eq_detach hf hlast, detach, Function.update_self] at hf'
  exact Option.some_ne_none f' hf'.symm

section LastLine

variable {v : Entries} {ledger : Ledger} {doc : DocumentId} {lines : List (ElementId × EntryId)}
  {element : ElementId} {id : EntryId}

/-- Without its last line a ledger has all its other lines. -/
theorem mem_update_iff_of_eq_append (hl : ledger doc = lines ++ [(element, id)])
    (hnodup : (ledger doc).Nodup) {doc' : DocumentId} {element' : ElementId} {j : EntryId} :
    (element', j) ∈ Function.update ledger doc lines doc' ↔ (element', j) ∈ ledger doc' ∧
      ¬ ((⟨doc', element'⟩ : Declaration) = ⟨doc, element⟩ ∧ j = id) := by
  have hnot : (element, id) ∉ lines := fun hmem =>
    (List.nodup_append.1 (hl ▸ hnodup)).2.2 _ hmem _ (List.mem_singleton_self _) rfl
  by_cases hdoc : doc' = doc
  · subst hdoc
    rw [Function.update_self, hl, List.mem_append, List.mem_singleton, Prod.mk.injEq,
      Declaration.mk.injEq]
    constructor
    · intro hmem
      exact ⟨Or.inl hmem, fun ⟨⟨_, hel⟩, hj⟩ => hnot (hel ▸ hj ▸ hmem)⟩
    · rintro ⟨hmem | ⟨hel, hj⟩, hne⟩
      · exact hmem
      · exact absurd ⟨⟨rfl, hel⟩, hj⟩ hne
  · rw [Function.update_of_ne hdoc]
    simp [hdoc]

/-- What stands in front of a line stays when the last line is taken off, if the line does. -/
theorem exists_eq_append_of_update (hl : ledger doc = lines ++ [(element, id)]) {doc' : DocumentId}
    {front back : List (ElementId × EntryId)} {x : ElementId × EntryId}
    (h : Function.update ledger doc lines doc' = front ++ x :: back) :
    ∃ rest, ledger doc' = front ++ x :: rest := by
  by_cases hdoc : doc' = doc
  · subst hdoc
    rw [Function.update_self] at h
    exact ⟨back ++ [(element, id)], by rw [hl, h]; simp⟩
  · rw [Function.update_of_ne hdoc] at h
    exact ⟨back, h⟩

/-- Undeclaring the last line of a ledger keeps the accounts, without that line. -/
theorem Accounted.undeclared (hv : v.Accounted ledger)
    (hl : ledger doc = lines ++ [(element, id)]) :
    (v.undeclared ⟨doc, element⟩ id).Accounted (Function.update ledger doc lines) := by
  refine ⟨fun {j f' d'} hf' => ?_, fun {j f'} hf' hj => ?_, fun {doc' front x back} hsplit => ?_,
    fun doc' => ?_⟩
  · obtain ⟨f, hf, -, hdecl⟩ := undeclared_eq_some hf'
    rw [hdecl, hv.declared hf, mem_update_iff_of_eq_append hl (hv.distinct doc)]
  · obtain ⟨f, hf, -⟩ := undeclared_eq_some hf'
    obtain ⟨d', hd'⟩ := hv.kept hf hj
    exact exists_mem_of_undeclared hf hd' hf'
  · -- The line was there before, and its entry is still declared by it, so the entry stays.
    have hx : (x.1, x.2) ∈ Function.update ledger doc lines doc' := by rw [hsplit]; simp
    obtain ⟨hxold, hxne⟩ := (mem_update_iff_of_eq_append hl (hv.distinct doc)).1 hx
    obtain ⟨rest, hrest⟩ := exists_eq_append_of_update hl hsplit
    obtain ⟨f, p, hf, hp, hop⟩ := hv.nested hrest
    have hd : (⟨doc', x.1⟩ : Declaration) ∈ f.declarations := (hv.declared hf).2 hxold
    obtain ⟨f', hf'⟩ := exists_undeclared ⟨doc, element⟩ id hf hd hxne
    obtain ⟨f₀, hf₀, hlinks, -⟩ := undeclared_eq_some hf'
    obtain rfl : f = f₀ := Option.some_inj.1 (hf.symm.trans hf₀)
    exact ⟨f', p, hf', hlinks.parent.trans hp, hop⟩
  · by_cases hdoc : doc' = doc
    · subst hdoc
      rw [Function.update_self]
      exact (List.nodup_append.1 (hl ▸ hv.distinct doc')).1
    · rw [Function.update_of_ne hdoc]
      exact hv.distinct doc'

end LastLine

end Entries

end LayoutMarkup
