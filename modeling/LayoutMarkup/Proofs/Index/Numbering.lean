import LayoutMarkup.Proofs.Document.Attributes
import LayoutMarkup.Proofs.Index.Listing
import LayoutMarkup.Proofs.Index.Placement

/-!
# Numbered names

An element without a name of its own gets a numbered one: its stem with the first number whose name
is free in the scope (`Entry.FirstVacant`). The name is free at that moment, so the element makes an
entry of its own. Elements that come later share the entry only if the name is written in them;
another element without a name finds it taken. This is why no entry below the files has two
declarations without names, whatever came and went in between (`Entries.Discerns`), and why the
number of an entry is the first one that was free when its document was bound (`Numbers`).

If all names that may be tried are taken, the element is left out. It leaves no place for what
stands in it, so the walk through everything in it adds nothing (`Passed`). All this is put together
in `numbering_run`.
-/

namespace LayoutMarkup

/-- An element that declares an entry has no name of its own, in the documents that are held. -/
def Declaration.Unnamed (held : OrderedMap DocumentId Index.Holding) (d : Declaration) : Prop :=
  ∃ b ∈ held.get? d.document, ∃ element ∈ b.doc.get? d.element,
    element.attributeValue? "name" = none

instance (held : OrderedMap DocumentId Index.Holding) (d : Declaration) :
    Decidable (d.Unnamed held) :=
  inferInstanceAs (Decidable (∃ b ∈ held.get? d.document, ∃ element ∈ b.doc.get? d.element,
    element.attributeValue? "name" = none))

/-- How the entry of a file is declared, in the documents that are held. -/
structure Entry.Headed (held : OrderedMap DocumentId Index.Holding) (e : Entry) : Prop where
  /-- The roots of the documents of its name declare it, and nothing else does. -/
  declared : ∀ d : Declaration, d ∈ e.declarations ↔
    d.element = .root ∧ ∃ b ∈ held.get? d.document, b.doc.name = e.name
  /-- The root of a document that was read from a text has no name. -/
  unnamed : ∀ d ∈ e.declarations, ∀ b ∈ held.get? d.document, ∀ name text schema rootType,
    b.doc = .parse name text schema rootType → d.Unnamed held

/-- A number is the first one whose name, with a stem, is free in a scope. -/
structure Entry.FirstVacant (scope : Entry) (stem : String) (number : Nat) : Prop where
  /-- Its name is free. -/
  free : scope.children.get? (Name.numbered stem number) = none
  /-- Those of the smaller numbers are taken. -/
  taken : ∀ k < number, scope.children.get? (Name.numbered stem k) ≠ none

/-- The names with a stem and a number below the limit are all taken in a scope. -/
def Entry.Crowded (scope : Entry) (stem : String) (limit : Nat) : Prop :=
  ∀ k < limit, scope.children.get? (Name.numbered stem k) ≠ none

namespace Entries

/-- No entry but those of the files has two declarations of a sort. -/
def Discerns (v : Entries) (sort : Declaration → Prop) : Prop :=
  ∀ j f, v j = some f → f.kind ≠ .file →
    ∀ d ∈ f.declarations, ∀ d' ∈ f.declarations, sort d → sort d' → d' = d

variable {v v' : Entries} {d : Declaration} {scope id : EntryId} {name : String} {kind : EntryKind}

/-- The files are the entries that stand in the root. -/
theorem Rooted.kind_eq_file_iff (h : v.Rooted) {e : Entry} (he : v id = some e) :
    e.kind = .file ↔ e.parent = some .root := by
  by_cases hroot : id = .root
  · obtain ⟨r, hr, hkind, -, hparent⟩ := h.root
    rw [hroot, hr] at he
    cases he
    rw [hkind, hparent]
    exact iff_of_false EntryKind.noConfusion fun hnone => nomatch hnone
  · rcases h.kind he hroot with ⟨hkind, hparent⟩ | ⟨hscope, -, hparent⟩
    · exact iff_of_true hkind hparent
    · refine iff_of_false (fun hkind => ?_) hparent
      rw [hkind] at hscope
      exact Bool.noConfusion hscope

/-- The entry that is declared stands in the scope, if it is there already. -/
theorem Declares.parent_eq (h : Declares v d scope name kind id v') (hv : v.Rooted) {e : Entry}
    (he : v id = some e) : e.parent = some scope := by
  obtain ⟨s, f, -, hf, hparent, -⟩ := h.exists_entry hv
  obtain ⟨f', hf', hlinks⟩ := h.exists_sameLinks he
  cases hf.symm.trans hf'
  rw [← hlinks.parent, hparent]

/-- Under a name that is free in its scope a declaration makes a new entry. -/
theorem Declares.eq_none (h : Declares v d scope name kind id v') {s : Entry}
    (hs : v scope = some s) (hfree : s.children.get? name = none) : v id = none := by
  cases h with
  | known hs' hc =>
    rw [hs] at hs'
    cases hs'
    rw [hfree] at hc
    exact absurd hc.symm (Option.some_ne_none id)
  | fresh _ _ hid => exact hid

/-- Fewer declarations may be of a sort. -/
theorem Discerns.mono {sort sort' : Declaration → Prop} (h : v.Discerns sort)
    (himp : ∀ {j f d}, v j = some f → d ∈ f.declarations → sort' d → sort d) :
    v.Discerns sort' :=
  fun j f hf hfile d hd d' hd' hsort hsort' =>
    h j f hf hfile d hd d' hd' (himp hf hd hsort) (himp hf hd' hsort')

/-- A declaration of the sort may be added if it makes a new entry or declares a file. -/
theorem Discerns.declares {sort : Declaration → Prop} (h : v.Discerns sort)
    (hd : Declares v d scope name kind id v')
    (hnew : sort d → ∀ e, v id = some e → e.kind = .file) : v'.Discerns sort := by
  intro j f' hf' hfile d₁ hd₁ d₂ hd₂ hsort₁ hsort₂
  rcases hd.entry_cases hf' with ⟨f, hf, hlinks, ⟨-, hsame⟩ | ⟨rfl, hmore⟩⟩ | ⟨-, -, -, hone⟩
  · rw [hsame] at hd₁ hd₂
    exact h j f hf (hlinks.kind ▸ hfile) d₁ hd₁ d₂ hd₂ hsort₁ hsort₂
  · -- The entry was there and is not that of a file, so the declaration is not of the sort.
    have hsort : ¬ sort d := fun hsort => hfile (hlinks.kind ▸ hnew hsort f hf)
    have hold : ∀ {d'}, d' ∈ f'.declarations → sort d' → d' ∈ f.declarations := by
      intro d' hd' hsort'
      rw [hmore, OrderedSet.mem_insert] at hd'
      rcases hd' with hd' | rfl
      · exact hd'
      · exact absurd hsort' hsort
    exact h j f hf (hlinks.kind ▸ hfile) d₁ (hold hd₁ hsort₁) d₂ (hold hd₂ hsort₂) hsort₁ hsort₂
  · have honly : ∀ {d'}, d' ∈ f'.declarations → d' = d := by
      intro d' hd'
      rw [hone, OrderedSet.mem_insert] at hd'
      exact hd'.resolve_left List.not_mem_nil
    rw [honly hd₁, honly hd₂]

end Entries

namespace Index

variable {ix : Index} {schema : Schema} {id : DocumentId} {doc : Document}

/-! ## The first free name -/

/-- The name that is found is the first one that is not taken. -/
theorem exists_number_of_firstFree? {taken : String → Bool} {stem : String} {count number : Nat}
    {name : String} (h : firstFree? taken stem count number = some name) :
    ∃ i < count, name = Name.numbered stem (number + i) ∧ taken name = false ∧
      ∀ k < i, taken (Name.numbered stem (number + k)) = true := by
  induction count generalizing number with
  | zero => exact nomatch h
  | succ count ih =>
    unfold firstFree? at h
    dsimp only at h
    split at h
    next htaken =>
      -- The first name is taken, so the numbers that follow count from the next one.
      obtain ⟨i, hi, hname, hfree, hbefore⟩ := ih h
      refine ⟨i + 1, Nat.succ_lt_succ hi, ?_, hfree, fun k hk => ?_⟩
      · rw [hname, Nat.add_right_comm, Nat.add_assoc]
      · cases k with
        | zero => exact htaken
        | succ k =>
          rw [← Nat.add_assoc, Nat.add_right_comm]
          exact hbefore k (Nat.lt_of_succ_lt_succ hk)
    next hfree =>
      cases h
      exact ⟨0, Nat.succ_pos count, rfl, Bool.eq_false_of_not_eq_true hfree,
        fun k hk => absurd hk (Nat.not_lt_zero k)⟩

variable {scope : EntryId} {s : Entry} {e : Element}

/-- The name that an element without a name of its own gets is that of the first vacant number. -/
theorem exists_firstVacant {name : String} (hs : ix.entry? scope = some s)
    (hown : e.attributeValue? "name" = none) (hname : ix.nameFor? scope e = .ok (some name)) :
    ∃ number < ix.nameLimit, name = Name.numbered e.nameStem number ∧
      s.FirstVacant e.nameStem number := by
  rw [nameFor?_of_unnamed hs hown] at hname
  obtain ⟨number, hlt, hnumber, hfree, hbefore⟩ :=
    exists_number_of_firstFree? (Except.ok.inj hname)
  rw [Nat.zero_add] at hnumber
  refine ⟨number, hlt, hnumber, ?_, fun k hk hnone => ?_⟩
  · rw [← hnumber]
    exact Option.isNone_iff_eq_none.1 (Option.isSome_eq_false_iff.1 hfree)
  · have htaken := hbefore k hk
    rw [Nat.zero_add, OrderedMap.contains, hnone] at htaken
    exact Bool.noConfusion htaken

/-- In a crowded scope there is no name for an element without one of its own. -/
theorem nameFor?_of_crowded (hs : ix.entry? scope = some s) (hown : e.attributeValue? "name" = none)
    (hcrowded : s.Crowded e.nameStem ix.nameLimit) : ix.nameFor? scope e = .ok none := by
  rw [nameFor?_of_unnamed hs hown, firstFree?_eq_none_iff.2]
  intro k hk
  rw [Nat.zero_add]
  exact Option.isSome_iff_ne_none.2 (hcrowded k hk)

/-- The walk comes to a nameless element that is to declare an entry in a scope. -/
structure Walk.Asks (w : Walk) (schema : Schema) (doc : Document) (e : Element) (scope : EntryId)
    (s : Entry) : Prop where
  /-- The element is the next one. -/
  element : doc.get? w.places.size = some e
  /-- It is a frame, an animation or a group of states. -/
  kind : (e.kind schema).isDeclaration = true
  /-- It has no name. -/
  unnamed : e.attributeValue? "name" = none
  /-- It stands where entries are declared. -/
  place : w.placeOf doc w.places.size e = some ⟨scope, true⟩
  /-- This is the entry of the scope. -/
  scope : w.index.entry? scope = some s

/-- An entry has got its number from a walk: it stands in the scope of an element that has no name,
and its name is that of the first number that was vacant when the walk came to the element. -/
def Numbers (ix : Index) (schema : Schema) (id : DocumentId) (doc : Document) (k : ElementId)
    (entry : Entry) (number : Nat) : Prop :=
  ∃ w e scope s, ix.walkTo schema id doc k = .ok w ∧ doc.get? k = some e ∧
    w.Asks schema doc e scope s ∧ entry.parent = some scope ∧
    entry.name = Name.numbered e.nameStem number ∧ s.FirstVacant e.nameStem number

/-- An entry that stays in its place keeps its number. -/
theorem Numbers.of_sameLinks {k : ElementId} {entry entry' : Entry} {number : Nat}
    (h : ix.Numbers schema id doc k entry number) (hlinks : Entries.SameLinks entry entry') :
    ix.Numbers schema id doc k entry' number := by
  obtain ⟨w, e, scope, s, hwalk, he, hasks, hparent, hname, hvacant⟩ := h
  exact ⟨w, e, scope, s, hwalk, he, hasks, hlinks.parent.trans hparent, hlinks.name.trans hname,
    hvacant⟩

/-! ## What a visit does -/

namespace Walk

variable {w : Walk}

/-- A visit leaves the entries and the bindings alone, or it binds the element to an entry that it
declares. -/
theorem Visits.entry_cases {w' : Walk} (h : w.Visits schema id doc e w') :
    w'.index.entry? = w.index.entry? ∧ w'.record.bindings = w.record.bindings ∨
    ∃ scope name kind entry, w.placeOf doc w.places.size e = some ⟨scope, true⟩ ∧
      EntryKind.ofNodeKind? (e.kind schema) = some kind ∧
      w.index.nameFor? scope e = .ok (some name) ∧
      Entries.Declares w.index.entry? ⟨id, w.places.size⟩ scope name kind entry
        w'.index.entry? ∧
      w'.record.bindings = w.record.bindings.insert w.places.size entry := by
  cases h with
  | outside => exact Or.inl ⟨rfl, rfl⟩
  | within => exact Or.inl ⟨rfl, rfl⟩
  | unnamed => exact Or.inl ⟨rfl, rfl⟩
  -- A constant and a handle are noted in tables of their own.
  | constant => cases e.attributeValue? "name" <;> exact Or.inl ⟨rfl, rfl⟩
  | property => cases e.handle? schema <;> exact Or.inl ⟨rfl, rfl⟩
  | @declares place kind name index entry v' hplace hkind hdeclares hname hd hre =>
    obtain ⟨scope, declares⟩ := place
    cases hdeclares
    have hview : Index.entry? ((w.declared ⟨id, w.places.size⟩ e index entry).leave
        (some ⟨entry, e.kind schema = .frame⟩)).index = v' :=
      (entry?_declared ..).trans hre.view
    refine Or.inr ⟨scope, name, kind, entry, hplace, hkind, hname, hview.symm ▸ hd, ?_⟩
    show (w.declared ⟨id, w.places.size⟩ e index entry).record.bindings = _
    rw [record_declared]

/-- A visit notes one place behind the others. -/
theorem Visits.exists_push {w' : Walk} (h : w.Visits schema id doc e w') :
    ∃ place, w'.places = w.places.push place := by
  cases h with
  | outside => exact ⟨_, rfl⟩
  | within => exact ⟨_, rfl⟩
  | unnamed => exact ⟨_, rfl⟩
  | constant => cases e.attributeValue? "name" <;> exact ⟨_, rfl⟩
  | property => cases e.handle? schema <;> exact ⟨_, rfl⟩
  | declares => exact ⟨_, by rw [leave, places_declared]⟩

/-- A visit gives no entry below the files a second declaration without a name. -/
theorem Visits.discerns {held : OrderedMap DocumentId Holding} {w' : Walk}
    (h : w.Visits schema id doc e w') (hw : w.Follows ix id w.places.size)
    (he : doc.get? w.places.size = some e) (hheld : held.get? id = some ⟨schema, doc⟩)
    (hdiscerns : Entries.Discerns w.index.entry? (·.Unnamed held)) :
    Entries.Discerns w'.index.entry? (·.Unnamed held) := by
  rcases h.entry_cases with ⟨hview, -⟩ | ⟨scope, name, kind, entry, hplace, -, hname, hd, -⟩
  · rw [hview]
    exact hdiscerns
  · refine hdiscerns.declares hd ?_
    rintro ⟨b, hb, element, helement, hown⟩ f hf
    cases hheld.symm.trans hb
    cases he.symm.trans helement
    -- The name was free, so there was no entry.
    obtain ⟨s, hs, -⟩ := hw.exists_scope (hw.scope_mem hplace)
    obtain ⟨number, -, rfl, hvacant⟩ := exists_firstVacant hs hown hname
    rw [hd.eq_none hs hvacant.free] at hf
    exact absurd hf.symm (Option.some_ne_none f)

/-- The bound elements without names have got their numbers. -/
def AllNumbered (ix : Index) (schema : Schema) (id : DocumentId) (doc : Document) (w : Walk) :
    Prop :=
  ∀ k j e, w.record.bindings.get? k = some j → doc.get? k = some e →
    e.attributeValue? "name" = none →
    ∃ entry, w.index.entry? j = some entry ∧
      ∃ number < ix.nameLimit, ix.Numbers schema id doc k entry number

/-- A visit gives a number to an element without a name that it binds. -/
theorem Visits.allNumbered {w' : Walk} (h : w.Visits schema id doc e w')
    (hw : w.Follows ix id w.places.size) (hwalk : ix.walkTo schema id doc w.places.size = .ok w)
    (he : doc.get? w.places.size = some e) (hall : w.AllNumbered ix schema id doc) :
    w'.AllNumbered ix schema id doc := by
  rcases h.entry_cases with ⟨hview, hbindings⟩ |
    ⟨scope, name, kind, entry, hplace, hkind, hname, hd, hbindings⟩
  · intro k j f hj hf hown
    rw [hview]
    exact hall k j f (hbindings ▸ hj) hf hown
  · intro k j f hj hf hown
    rw [hbindings, OrderedMap.get?_insert] at hj
    split at hj
    next hk =>
      -- The visited element gets its entry now, and this walk is the one that numbers it.
      subst hk
      cases hj
      cases he.symm.trans hf
      obtain ⟨s, entry', hs, hentry, hparent, hpath⟩ := hd.exists_entry hw.ordered.rooted
      obtain ⟨number, hlt, hnumber, hvacant⟩ := exists_firstVacant hs hown hname
      have hdeclaration : (e.kind schema).isDeclaration = true := by
        rw [NodeKind.isDeclaration_eq_isSome, hkind]
        rfl
      refine ⟨entry', hentry, number, hw.nameLimit ▸ hlt, w, e, scope, s, hwalk, he,
        ⟨he, hdeclaration, hown, hplace, hs⟩, hparent, ?_, hvacant⟩
      rw [Entry.name, hpath, List.getLastD_concat, hnumber]
    next =>
      obtain ⟨entry', hentry, number, hlt, hnumbers⟩ := hall k j f hj hf hown
      obtain ⟨entry'', hentry', hlinks⟩ := hd.exists_sameLinks hentry
      exact ⟨entry'', hentry', number, hlt, hnumbers.of_sameLinks hlinks⟩

/-! ## Elements that are left out -/

/-- An element that finds no name leaves no place for what stands in it. -/
theorem Asks.visit_eq (h : w.Asks schema doc e scope s)
    (hcrowded : s.Crowded e.nameStem w.index.nameLimit) :
    w.visit schema id doc e = .ok (w.leave none) := by
  have hname := nameFor?_of_crowded h.scope h.unnamed hcrowded
  have hkind := h.kind
  unfold visit
  dsimp only
  rw [h.place]
  unfold visitIn
  dsimp only
  cases hk : e.kind schema with
  | frame => exact congrArg (· >>= _) (declare_eq_none hname)
  | animation => exact congrArg (· >>= _) (declare_eq_none hname)
  | stateGroup => exact congrArg (· >>= _) (declare_eq_none hname)
  | constant => rw [hk] at hkind; cases hkind
  | frameProperty => rw [hk] at hkind; cases hkind
  | other => rw [hk] at hkind; cases hkind

/-- The root has no parent, so it is not asked for a name. -/
theorem Asks.ne_root (h : w.Asks schema doc e scope s) (hplaced : doc.Placed) :
    w.places.size ≠ ElementId.root := by
  intro hsize
  obtain ⟨r, hr, hnone, -⟩ := hplaced.root
  have he := h.element
  rw [hsize, hr] at he
  cases he
  have hplace := h.place
  unfold placeOf at hplace
  rw [hnone] at hplace
  exact absurd hplace.symm (Option.some_ne_none _)

/-- An element that has no place leaves none. -/
theorem visit_of_placeOf_eq_none (hplace : w.placeOf doc w.places.size e = none) :
    w.visit schema id doc e = .ok (w.leave none) := by
  unfold visit
  dsimp only
  rw [hplace]
  rfl

end Walk

/-- The walk through a document adds nothing for an element, neither to the index nor to what is
recorded of the document. -/
def Passed (ix : Index) (schema : Schema) (id : DocumentId) (doc : Document) (k : ElementId) :
    Prop :=
  ∃ w w', ix.walkTo schema id doc k = .ok w ∧ ix.walkTo schema id doc (k + 1) = .ok w' ∧
    w'.index = w.index ∧ w'.record = w.record

/-- The walk through the first elements of a document that is not bound never fails. -/
theorem exists_walkTo (h : ix.Sound) (schema : Schema) (hnew : ix.records.get? id = none)
    {count : Nat} (hcount : count ≤ doc.size) :
    ∃ w, ix.walkTo schema id doc count = .ok w ∧ w.Follows ix id w.places.size ∧
      w.places.size = count := by
  obtain ⟨w, hwalk, hw, hsize, -⟩ := walkTo_spec h schema hnew doc (P := fun _ => True)
    (fun _ _ => trivial) (fun _ _ _ _ _ => trivial) hcount
  exact ⟨w, hwalk, hw, hsize⟩

/-- A walk keeps its places when it goes on. -/
theorem getElem?_places_walkTo (h : ix.Sound) (hnew : ix.records.get? id = none) {k n : ElementId}
    (hkn : k ≤ n) (hn : n ≤ doc.size) {w w' : Walk} (hw : ix.walkTo schema id doc k = .ok w)
    (hw' : ix.walkTo schema id doc n = .ok w') {a : ElementId} (ha : a < k) :
    w'.places[a]? = w.places[a]? := by
  induction n, hkn using Nat.le_induction generalizing w' with
  | base =>
    cases hw.symm.trans hw'
    rfl
  | succ n hkn ih =>
    obtain ⟨u, hu, hfollows, rfl⟩ := exists_walkTo h schema hnew (Nat.le_of_succ_le hn)
    have he : doc.get? u.places.size = some doc.elements[u.places.size] :=
      Array.getElem?_eq_getElem hn
    obtain ⟨u', hvisit, hvisits⟩ := Walk.visit_spec hfollows schema doc
      doc.elements[u.places.size]
    rw [walkTo_succ he, hu, ok_bind, hvisit] at hw'
    cases hw'
    obtain ⟨place, hpush⟩ := hvisits.exists_push
    have hlt : a < u.places.size := Nat.lt_of_lt_of_le ha hkn
    rw [← ih (Nat.le_of_succ_le hn) hu, hpush, Array.getElem?_push_lt hlt,
      Array.getElem?_eq_getElem hlt]

/-- Where an element finds no name, the walk leaves no place for it and for anything in it. -/
theorem exists_leave_of_crowded (h : ix.Sound) (hnew : ix.records.get? id = none)
    (hplaced : doc.Placed) {k : ElementId} {w : Walk} {e : Element} {scope : EntryId} {s : Entry}
    (hwalk : ix.walkTo schema id doc k = .ok w) (hasks : w.Asks schema doc e scope s)
    (hcrowded : s.Crowded e.nameStem ix.nameLimit) {x : ElementId} (hx : x < doc.size)
    (hmem : k ∈ doc.ancestors x) :
    ∃ u, ix.walkTo schema id doc x = .ok u ∧
      ix.walkTo schema id doc (x + 1) = .ok (u.leave none) := by
  have hkx := Document.le_of_mem_ancestors hmem
  obtain ⟨w', hwalk', hw, hsize⟩ :=
    exists_walkTo h schema hnew (Nat.le_of_lt (Nat.lt_of_le_of_lt hkx hx))
  cases hwalk.symm.trans hwalk'
  have hroot : k ≠ .root := hsize ▸ hasks.ne_root hplaced
  -- Elements come after those that they stand in, so their parents have been visited.
  induction x using Nat.strong_induction_on with
  | _ x ih =>
    by_cases hxk : x = k
    · subst hxk
      refine ⟨w, hwalk, ?_⟩
      rw [walkTo_succ (hsize ▸ hasks.element), hwalk, ok_bind]
      exact hasks.visit_eq (hw.nameLimit.symm ▸ hcrowded)
    · have hxroot : x ≠ ElementId.root := by
        rintro rfl
        exact hroot (Nat.le_zero.1 hkx)
      obtain ⟨f, hf⟩ : ∃ f, doc.get? x = some f := ⟨_, Array.getElem?_eq_getElem hx⟩
      obtain ⟨p, -, -, hparent, hlt, -, hancestors⟩ := hplaced.ancestors_eq hf hxroot
      rw [hancestors] at hmem
      have hmem' : k ∈ doc.ancestors p := (List.mem_cons.1 hmem).resolve_left (Ne.symm hxk)
      obtain ⟨v, hv, hleave⟩ := ih p hlt (Nat.lt_trans hlt hx) hmem'
        (Document.le_of_mem_ancestors hmem')
      obtain ⟨v', hv', -, hvsize⟩ :=
        exists_walkTo h schema hnew (Nat.le_of_lt (Nat.lt_trans hlt hx))
      cases hv.symm.trans hv'
      obtain ⟨u, hu, -, husize⟩ := exists_walkTo h schema hnew (Nat.le_of_lt hx)
      -- The parent has left no place, so the element has none.
      have hplace : u.places[p]? = some none := by
        rw [getElem?_places_walkTo h hnew hlt (Nat.le_of_lt hx) hleave hu (Nat.lt_succ_self p),
          Walk.leave, ← hvsize, Array.getElem?_push_size]
      have hproot : p ≠ .root := by
        rintro rfl
        exact hroot (Nat.le_zero.1 (Document.le_of_mem_ancestors hmem'))
      refine ⟨u, hu, ?_⟩
      rw [walkTo_succ hf, hu, ok_bind]
      refine Walk.visit_of_placeOf_eq_none ?_
      unfold Walk.placeOf
      rw [hparent]
      dsimp only
      rw [if_neg hproot, hplace]
      rfl

/-! ## Files -/

/-- A declaration of a file is that of the root of a document of the file. All other entries are
declared by elements that are bound to them. -/
theorem Sound.declaration_cases (h : ix.Sound) {j : EntryId} {f : Entry} (hf : ix.entry? j = some f)
    {d : Declaration} (hd : d ∈ f.declarations) :
    ∃ r, ix.records.get? d.document = some r ∧
      (f.kind = .file ∧ d.element = .root ∧ j = r.file ∨
        f.kind ≠ .file ∧ r.bindings.get? d.element = some j) := by
  obtain ⟨r, hr, ⟨hroot, rfl⟩ | hbound⟩ := (h.mem_declarations hf d).1 hd
  · obtain ⟨f', hf', hparent⟩ := h.exists_file hr
    cases hf.symm.trans hf'
    exact ⟨r, hr, Or.inl ⟨(h.ordered.rooted.kind_eq_file_iff hf).2 hparent, hroot, rfl⟩⟩
  · refine ⟨r, hr, Or.inr ⟨fun hfile => ?_, hbound⟩⟩
    obtain ⟨front, back, hentries⟩ := List.append_of_mem (OrderedMap.get?_eq_some_iff.1 hbound)
    have hledger : ix.ledger d.document =
        ((.root, r.file) :: front) ++ (d.element, j) :: back := by
      rw [ledger_eq hr, Record.ledger, hentries]
      rfl
    obtain ⟨f', p, hf', hp, hopen⟩ := h.ordered.accounted.nested hledger
    cases hf.symm.trans hf'
    rw [(h.ordered.rooted.kind_eq_file_iff hf).1 hfile] at hp
    cases hp
    -- The scope is declared by the document, and nothing declares the root.
    obtain ⟨⟨element, -⟩, hline, rfl⟩ := List.mem_map.1
      (hopen.resolve_left fun hnil => List.cons_ne_nil _ _ hnil.1)
    have hmem : (element, EntryId.root) ∈ ix.ledger d.document := by
      rw [hledger]
      exact List.mem_append_left _ hline
    obtain ⟨g, q, hg, hq⟩ := h.ordered.accounted.exists_entry hmem
    exact h.ordered.rooted.ne_root hg hq rfl

/-- The entry of a file is declared by the roots of the bound documents of its name. -/
theorem mem_declarations_file_iff (limit : Nat) (commands : List Command) {j : EntryId} {e : Entry}
    (he : entry? (run limit commands) j = some e) (hfile : e.kind = .file) (d : Declaration) :
    d ∈ e.declarations ↔
      d.element = .root ∧ ∃ b ∈ (held commands).get? d.document, b.doc.name = e.name := by
  have h := sound_run limit commands
  have hparent := (h.ordered.rooted.kind_eq_file_iff he).1 hfile
  obtain ⟨top, htop, -, hpath⟩ := h.ordered.rooted.scope_of_parent he hparent
  obtain ⟨top', htop', -, hnil, -⟩ := h.ordered.rooted.root
  cases htop.symm.trans htop'
  rw [hnil, List.nil_append] at hpath
  have hheads := lasting_heads.recorded_run limit commands d.document
  constructor
  · intro hd
    obtain ⟨r, hr, ⟨-, hroot, rfl⟩ | ⟨hne, -⟩⟩ := h.declaration_cases he hd
    · obtain ⟨b, -, -, hb, -⟩ := exists_tenure limit commands d.document r hr
      have hname : e.path = [b.doc.name] := pathOf_eq he ▸ (hheads r b hr hb).file
      exact ⟨hroot, b, hb, List.singleton_inj.1 (hname.symm.trans hpath)⟩
    · exact absurd hfile hne
  · rintro ⟨hroot, b, hb, hname⟩
    obtain ⟨r, hr⟩ : ∃ r, (run limit commands).records.get? d.document = some r := by
      refine Option.ne_none_iff_exists'.1 fun hnone => ?_
      rw [((holds_run limit commands).bound d.document).2 hnone] at hb
      exact Option.not_mem_none b hb
    -- The file of the document has the path of the entry, so it is the entry.
    obtain ⟨f, hf, -⟩ := h.exists_file hr
    have hfile' : f.path = e.path := by
      rw [← pathOf_eq hf, (hheads r b hr hb).file, hname, hpath]
    refine (h.mem_declarations he d).2 ⟨r, hr, Or.inl ⟨hroot, ?_⟩⟩
    exact h.ordered.rooted.id_eq_of_path_eq he hf hfile'.symm

/-- The entry of a file is declared by the roots of the bound documents of its name, which have no
names if they were read from texts. -/
theorem headed_run (limit : Nat) (commands : List Command) {j : EntryId} {e : Entry}
    (he : entry? (run limit commands) j = some e) (hfile : e.kind = .file) :
    e.Headed (held commands) where
  declared := mem_declarations_file_iff limit commands he hfile
  unnamed := by
    intro d hd b hb name text schema rootType hparse
    obtain ⟨hroot, -⟩ := (mem_declarations_file_iff limit commands he hfile d).1 hd
    obtain ⟨r, hr, -⟩ := (Document.isPlaced_parse name text schema rootType).root
    refine ⟨b, hb, r, ?_, Document.attributeValue?_root hr "name"⟩
    rw [hroot, hparse]
    exact hr

/-! ## Histories -/

/-- A command keeps the limit for numbered names. -/
theorem Sound.nameLimit_run (h : ix.Sound) (command : Command) :
    (command.run ix).nameLimit = ix.nameLimit := by
  cases command with
  | bind schema id doc =>
    cases hr : ix.records.get? id with
    | some r => rw [run_bind_of_bound hr]
    | none =>
      obtain ⟨w, hbind, hw, -⟩ := bind_spec h schema hr doc
      rw [run_bind_of_ok hbind]
      exact hw.nameLimit
  | unbind id =>
    cases hr : ix.records.get? id with
    | none => rw [run_unbind_of_not_bound hr]
    | some r =>
      obtain ⟨ix', hunbind, hre, -⟩ := unbind_spec h hr
      rw [Command.run, Command.apply, hunbind]
      dsimp only
      rw [hre.rest]
      rfl
  | clear => rfl

/-- The limit for numbered names is the same in every history. -/
theorem nameLimit_run (limit : Nat) (commands : List Command) :
    (run limit commands).nameLimit = limit := by
  induction commands using List.reverseRecOn with
  | nil => rfl
  | append_singleton commands command ih =>
    rw [run_concat, (sound_run limit commands).nameLimit_run, ih]

/-- Binding a document gives no entry below the files a second declaration without a name. -/
theorem Sound.discerns_bind (h : ix.Sound) (hnew : ix.records.get? id = none)
    {held : OrderedMap DocumentId Holding} (hheld : held.get? id = some ⟨schema, doc⟩)
    (hdiscerns : Entries.Discerns ix.entry? (·.Unnamed held)) :
    Entries.Discerns (Index.entry? ((Command.bind schema id doc).run ix)) (·.Unnamed held) := by
  obtain ⟨w, hwalk, -, -, hw⟩ := walkTo_spec h schema hnew doc
    (P := fun w => Entries.Discerns w.index.entry? (·.Unnamed held))
    (fun {index file v'} hd hre => by
      rw [hre.view]
      exact hdiscerns.declares hd fun _ e he =>
        (h.ordered.rooted.kind_eq_file_iff he).2 (hd.parent_eq h.ordered.rooted he))
    (fun hw _ he hdiscerns hvisits => hvisits.discerns hw he hheld hdiscerns)
    (Nat.le_refl doc.size)
  rw [run_bind_of_added hnew (addDocument_of_walkTo hwalk)]
  exact hw

/-- After every history no entry but those of the files has two declarations without names. -/
theorem discerns_run (limit : Nat) (commands : List Command) :
    Entries.Discerns (Index.entry? (run limit commands)) (·.Unnamed (held commands)) := by
  induction commands using run_induction limit with
  | start =>
    intro j f hf hfile d hd
    rw [eq_of_entry?_empty hf] at hd
    exact absurd hd List.not_mem_nil
  | idle ih hrun hheld =>
    rw [hrun, hheld]
    exact ih
  | @bind commands schema id doc ih hnew hheld =>
    have h := sound_run limit commands
    rw [run_concat, hheld]
    refine h.discerns_bind hnew (by rw [OrderedMap.get?_insert, if_pos rfl])
      (ih.mono fun hf hd hunnamed => ?_)
    -- What is declared already stands in other documents.
    obtain ⟨r, hr, -⟩ := h.declaration_cases hf hd
    unfold Declaration.Unnamed at hunnamed ⊢
    rw [OrderedMap.get?_insert, if_neg] at hunnamed
    · exact hunnamed
    · intro hid
      rw [hid, hnew] at hr
      exact Option.some_ne_none r hr.symm
  | @unbind commands id r ih hr hre =>
    intro j f hf hfile d hd d' hd' hunnamed hunnamed'
    -- What is left was declared before, by documents that were held before.
    obtain ⟨f₀, hf₀, hlinks, helements⟩ := (sound_run limit commands).elements_unwound
      (sound_run limit _) hr hre hf
    have hmem : ∀ {d}, d ∈ f.declarations → d ∈ f₀.declarations := by
      intro d hd
      have hd' : d ∈ f.declarations.elements := hd
      rw [helements] at hd'
      exact List.mem_of_mem_filter hd'
    have hback : ∀ {d : Declaration}, d.Unnamed (held (commands ++ [.unbind id])) →
        d.Unnamed (held commands) := by
      rintro d ⟨b, hb, hrest⟩
      rw [held_concat, Command.hold, OrderedMap.get?_erase] at hb
      split at hb
      next => exact absurd hb (Option.not_mem_none b)
      next => exact ⟨b, hb, hrest⟩
    exact ih j f₀ hf₀ (hlinks.kind ▸ hfile) d (hmem hd) d' (hmem hd') (hback hunnamed)
      (hback hunnamed')
  | @clear commands hrun =>
    intro j f hf hfile d hd
    rw [hrun] at hf
    rw [eq_of_entry?_empty hf] at hd
    exact absurd hd List.not_mem_nil

/-- An entry that is declared by a bound element without a name has the number that it got when the
document of the element was bound. -/
theorem Tenure.exists_numbers {limit : Nat} {commands before after : List Command} {b : Holding}
    {r : Record} (h : Tenure limit commands id b r before after) {k : ElementId} {e : Element}
    {j : EntryId} {entry : Entry} (hj : r.bindings.get? k = some j) (he : b.doc.get? k = some e)
    (hown : e.attributeValue? "name" = none)
    (hentry : entry? (run limit commands) j = some entry) :
    ∃ number < limit, (run limit before).Numbers b.schema id b.doc k entry number := by
  -- At the binding of the document all numbers were the least ones, by an invariant of its walk.
  obtain ⟨w, hwalk, hw, -, hall⟩ := walkTo_spec (sound_run limit before) b.schema h.unbound b.doc
    (P := fun w => w.AllNumbered (run limit before) b.schema id b.doc)
    (fun _ _ _ _ _ hj => nomatch hj)
    (fun hw hwalk he hall hvisits => hvisits.allNumbered hw hwalk he hall)
    (Nat.le_refl b.doc.size)
  obtain ⟨hbegin, hrecord⟩ := h.run_bind hw
    (run_bind_of_added h.unbound (addDocument_of_walkTo hwalk))
  obtain ⟨f, hf, number, hlt, hnumbers⟩ := hall k j e (hrecord ▸ hj) he hown
  -- From then on the entry has a line in the ledger, so it kept its place.
  have hline : j ∈ r.ledger.map Prod.snd :=
    List.mem_map_of_mem (List.mem_cons_of_mem _ (OrderedMap.get?_eq_some_iff.1 hj))
  have hf₀ : entry? (run limit (before ++ [.bind b.schema id b.doc])) j = some f := by
    rw [hbegin]
    exact hf
  obtain ⟨f', hf', hlinks⟩ := h.exists_sameLinks hline hf₀ (List.prefix_refl after)
  rw [← h.history, hentry] at hf'
  cases hf'
  rw [nameLimit_run] at hlt
  exact ⟨number, hlt, hnumbers.of_sameLinks hlinks⟩

/-- After every history the entry of a file is declared by the roots of the documents of its name,
and any other entry has at most one declaration whose element has no name. Such an entry has a
numbered name with the stem of the element and a number below the limit: the first one whose name
was free in the scope when the walk that bound the document came to the element. Where a walk finds
all these names taken, it adds nothing for the element and for everything in it. -/
theorem numbering_run (limit : Nat) (commands : List Command) :
    (∀ j e, entry? (run limit commands) j = some e →
      (e.kind = .file → e.Headed (held commands)) ∧
      (e.kind ≠ .file → ∀ d ∈ e.declarations.elements, d.Unnamed (held commands) →
        (∀ d' ∈ e.declarations.elements, d'.Unnamed (held commands) → d' = d) ∧
        ∃ b r before after, (held commands).get? d.document = some b ∧
          Tenure limit commands d.document b r before after ∧
          ∃ number < limit, (run limit before).Numbers b.schema d.document b.doc d.element e
            number)) ∧
    ∀ (schema parsed : Schema) (id : DocumentId) (name text : String) (rootType : Option TypeId),
      (run limit commands).records.get? id = none →
      ∀ k w e scope s,
        (run limit commands).walkTo schema id (.parse name text parsed rootType) k = .ok w →
        w.Asks schema (.parse name text parsed rootType) e scope s →
        s.Crowded e.nameStem limit →
        ∀ x < (Document.parse name text parsed rootType).size,
          k ∈ (Document.parse name text parsed rootType).ancestors x →
          (run limit commands).Passed schema id (.parse name text parsed rootType) x := by
  have h := sound_run limit commands
  refine ⟨fun j e he => ⟨headed_run limit commands he, fun hfile d hd hunnamed => ?_⟩, ?_⟩
  · refine ⟨fun d' hd' hunnamed' => discerns_run limit commands j e he hfile d hd d' hd' hunnamed
      hunnamed', ?_⟩
    -- The entry is not that of a file, so the element is bound to it.
    obtain ⟨r, hr, ⟨hkind, -⟩ | ⟨-, hbound⟩⟩ := h.declaration_cases he hd
    · exact absurd hkind hfile
    · -- The walk that bound the document found the name.
      obtain ⟨b, before, after, hb, htenure⟩ := exists_tenure limit commands d.document r hr
      obtain ⟨b', hb', element, helement, hown⟩ := hunnamed
      cases hb.symm.trans hb'
      exact ⟨b, r, before, after, hb, htenure, htenure.exists_numbers hbound helement hown he⟩
  · intro schema parsed id name text rootType hnew k w e scope s hwalk hasks hcrowded x hx hmem
    obtain ⟨u, hu, hleave⟩ := exists_leave_of_crowded h hnew
      (Document.isPlaced_parse name text parsed rootType) hwalk hasks
      ((nameLimit_run limit commands).symm ▸ hcrowded) hx hmem
    exact ⟨u, u.leave none, hu, hleave, rfl, rfl⟩

/-- A document with two frames without names in a frame. There is a frame with a name in the second
one. -/
def crowdedDocument : Document :=
  .parse "Main" "<Frame name=\"Box\"><Frame/><Frame><Frame name=\"Lost\"/></Frame></Frame>"
    frameSchema (some 0)

/-- The entry of the first frame without a name. -/
def numberedEntry : Entry where
  kind := .frame
  path := ["Main", "Box", "Frame_0"]
  parent := some 2
  declarations := OrderedSet.singleton ⟨0, 2⟩

/-- When one name may be tried, the first of the two frames gets it, and the second one is left out
with the frame in it. -/
theorem numbering_run_crowded :
    entry? (run 1 [.bind frameSchema 0 crowdedDocument]) 3 = some numberedEntry ∧
      Declaration.Unnamed (held [.bind frameSchema 0 crowdedDocument]) ⟨0, 2⟩ ∧
      (∃ b r before after, (held [.bind frameSchema 0 crowdedDocument]).get? 0 = some b ∧
        Tenure 1 [.bind frameSchema 0 crowdedDocument] 0 b r before after ∧
        ∃ number < 1, (run 1 before).Numbers b.schema 0 b.doc 2 numberedEntry number) ∧
      ∃ w e scope s, (run 1 []).walkTo frameSchema 0 crowdedDocument 3 = .ok w ∧
        w.Asks frameSchema crowdedDocument e scope s ∧ s.Crowded e.nameStem 1 ∧
        (run 1 []).Passed frameSchema 0 crowdedDocument 3 ∧
        (run 1 []).Passed frameSchema 0 crowdedDocument 4 := by
  obtain ⟨hsize, hparent₄, helement⟩ : crowdedDocument.size = 5 ∧
      crowdedDocument.parent? 4 = some 3 ∧
      (crowdedDocument.get? 3).map (fun e => (e.parent, e.attributeValue? "name", e.nameStem,
        (e.kind frameSchema).isDeclaration)) = some (some 1, none, "Frame", true) := by
    decide +kernel
  -- The walk comes to the second frame when the first one has taken the name.
  obtain ⟨hentry, hunnamed, hview⟩ :
      entry? (run 1 [.bind frameSchema 0 crowdedDocument]) 3 = some numberedEntry ∧
      Declaration.Unnamed (held [.bind frameSchema 0 crowdedDocument]) ⟨0, 2⟩ ∧
      ((run 1 []).walkTo frameSchema 0 crowdedDocument 3).toOption.map
        (fun w => (w.places, w.index.child? 2 "Frame_0")) =
          some (#[none, some ⟨2, true⟩, some ⟨3, true⟩], some 3) := by
    decide +kernel
  have hnumbers := (((numbering_run 1 [.bind frameSchema 0 crowdedDocument]).1 3 numberedEntry
    hentry).2 (by decide) ⟨0, 2⟩ List.mem_cons_self hunnamed).2
  have hsucceeds : ∃ w, (run 1 []).walkTo frameSchema 0 crowdedDocument 3 = .ok w ∧
      w.Follows (run 1 []) 0 w.places.size ∧ w.places.size = 3 :=
    exists_walkTo (sound_run 1 []) frameSchema rfl (by rw [hsize]; decide)
  -- What the walk has come to is read off the view.
  obtain ⟨w, hwalk, -⟩ := hsucceeds
  rw [hwalk] at hview
  obtain ⟨hplaces, hchild⟩ := Prod.mk.inj (Option.some.inj hview)
  obtain ⟨e, he, hfields⟩ := Option.map_eq_some_iff.1 helement
  simp only [Prod.mk.injEq] at hfields
  obtain ⟨hparent, hown, hstem, hkind⟩ := hfields
  obtain ⟨s, hs, hget⟩ := Option.bind_eq_some_iff.1 hchild
  have hasks : w.Asks frameSchema crowdedDocument e 2 s := by
    refine ⟨by rw [hplaces]; exact he, hkind, hown, ?_, hs⟩
    unfold Walk.placeOf
    rw [hparent, hplaces]
    rfl
  have hcrowded : s.Crowded e.nameStem 1 := by
    intro k hk
    rw [Nat.lt_one_iff.1 hk, hstem]
    exact fun hnone => Option.some_ne_none 3 (hget.symm.trans hnone)
  -- The frame in the second one is left out with it.
  have hmem : 3 ∈ crowdedDocument.ancestors 4 := by
    rw [Document.ancestors, hparent₄]
    dsimp only
    rw [if_pos (by decide), Document.ancestors_eq_cons]
    exact List.mem_cons_of_mem _ List.mem_cons_self
  have hpassed := (numbering_run 1 []).2 frameSchema frameSchema 0 "Main" _ (some 0) rfl 3 w e 2 s
    hwalk hasks hcrowded
  exact ⟨hentry, hunnamed, hnumbers, w, e, 2, s, hwalk, hasks, hcrowded,
    hpassed 3 (hsize ▸ by decide) (Document.ancestors_eq_cons .. ▸ List.mem_cons_self),
    hpassed 4 (hsize ▸ by decide) hmem⟩

/-- Two documents of one name. -/
def namesakes : List Command :=
  [.bind frameSchema 0 (buttonDocument "Main"), .bind frameSchema 1 (buttonDocument "Main")]

/-- The entry of a file is declared by the roots of all documents of its name, none of which has a
name. -/
theorem file_declared_unnamed :
    ∃ e, entry? (run 1 namesakes) 1 = some e ∧ e.kind = .file ∧ e.name = "Main" ∧
      ∃ d ∈ e.declarations.elements, ∃ d' ∈ e.declarations.elements, d ≠ d' ∧
        d.Unnamed (held namesakes) ∧ d'.Unnamed (held namesakes) :=
  ⟨{ kind := .file
     path := ["Main"]
     parent := some 0
     children := .ofList [("Button", 2)]
     declarations := (OrderedSet.singleton ⟨0, 0⟩).insert ⟨1, 0⟩ },
    by decide +kernel, rfl, rfl, by decide +kernel⟩

end Index

end LayoutMarkup
