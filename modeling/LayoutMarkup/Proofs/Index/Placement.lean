import LayoutMarkup.Proofs.Document.Geometry
import LayoutMarkup.Proofs.Index.Tenure

/-!
# Which elements are bound, and where

A walk through a document carries a place from each element to those in it. What the places amount
to can be said of the finished record and the tree of the elements alone. `Record.Reaches` says
where declarations get entries: in the first top-level element, as long as everything above is a
bound frame or of no kind of its own. `Record.scopeOf` is the entry of the nearest bound element, or
the file. `Walk.Tracks` ties both to the places, and is kept by every visit.

In the end (`placement_run`) the bound elements are those that are reached, are of a kind that
declares, and have a name or were given one of the numbered ones that was free when the walk came to
them (`FindsName`). The entry of a bound element has the name of the element and stands in the entry
that is found for the parent of the element; and so it stays as long as the document is bound.
-/

namespace LayoutMarkup

namespace Document

variable {doc : Document}

/-! ## Ancestors -/

/-- An element comes first among those it stands in. -/
theorem ancestors_eq_cons (doc : Document) (id : ElementId) :
    doc.ancestors id = id :: (doc.ancestors id).tail := by
  rw [ancestors]
  split
  · split <;> rfl
  · rfl

/-- An element stands in elements with smaller numbers. -/
theorem le_of_mem_ancestors {id a : ElementId} (h : a ∈ doc.ancestors id) : a ≤ id := by
  induction id using Nat.strong_induction_on with
  | _ id ih =>
    rw [ancestors] at h
    split at h
    next parent hparent =>
      split at h
      next hlt =>
        rcases List.mem_cons.1 h with rfl | hmem
        · exact Nat.le_refl a
        · exact Nat.le_trans (ih parent hlt hmem) (Nat.le_of_lt hlt)
      next => exact Nat.le_of_eq (List.mem_singleton.1 h)
    next => exact Nat.le_of_eq (List.mem_singleton.1 h)

namespace Placed

/-- The root stands in nothing. -/
theorem ancestors_root (h : doc.Placed) : doc.ancestors .root = [.root] := by
  obtain ⟨r, hr, hnone, -⟩ := h.root
  have hparent : doc.parent? .root = none := by
    rw [parent?, hr, Option.bind_some, hnone]
  rw [ancestors, hparent]

/-- What another element stands in is its parent and what the parent stands in. -/
theorem ancestors_eq (h : doc.Placed) {id : ElementId} {e : Element} (he : doc.get? id = some e)
    (hid : id ≠ .root) :
    ∃ p f, doc.parent? id = some p ∧ e.parent = some p ∧ p < id ∧ doc.get? p = some f ∧
      doc.ancestors id = id :: doc.ancestors p := by
  obtain ⟨p, f, hp, hlt, hf, -⟩ := h.parent he hid
  have hparent : doc.parent? id = some p := by
    rw [parent?, he, Option.bind_some, hp]
  refine ⟨p, f, hparent, hp, hlt, hf, ?_⟩
  rw [ancestors, hparent]
  dsimp only
  rw [if_pos hlt]

/-- The first top-level element stands in the root. -/
theorem parent_declared (h : doc.Placed) {top : ElementId} (htop : doc.declared? = some top) :
    top ≠ .root ∧ doc.parent? top = some .root := by
  obtain ⟨r, hr, -⟩ := h.root
  have hmem : top ∈ r.children := by
    rw [← childrenOf_eq hr]
    exact List.mem_of_head? htop
  obtain ⟨e, he, hparent⟩ := h.child hr hmem
  refine ⟨Nat.ne_of_gt (h.lt_child hr hmem).1, ?_⟩
  rw [parent?, he, Option.bind_some, hparent]

end Placed

end Document

/-! ## Places by the record -/

namespace Record

/-- The entry that declarations in an element go to: that of the nearest bound one among the element
and those it stands in, or else the file. -/
def scopeOf (r : Record) (doc : Document) (id : ElementId) : EntryId :=
  ((doc.ancestors id).findSome? r.bindings.get?).getD r.file

/-- What stands in an element may be declared: the element is the root, of no kind of its own, or a
bound frame. -/
def Passes (r : Record) (schema : Schema) (doc : Document) (id : ElementId) : Prop :=
  id = .root ∨ ∃ e, doc.get? id = some e ∧
    (e.kind schema = .other ∨ e.kind schema = .frame ∧ id ∈ r.bindings.keys)

/-- An element may be declared: it is the first top-level element or stands in it, and whatever it
stands in lets it pass. -/
structure Reaches (r : Record) (schema : Schema) (doc : Document) (id : ElementId) : Prop where
  /-- It is in the first top-level element. -/
  top : ∃ top, doc.declared? = some top ∧ top ∈ doc.ancestors id
  /-- What it stands in lets it pass. -/
  above : ∀ a ∈ (doc.ancestors id).tail, r.Passes schema doc a

variable {r r' : Record} {schema : Schema} {doc : Document} {id : ElementId} {e : Element}

/-- A bound element has its own entry as the scope. -/
theorem scopeOf_of_bound {j : EntryId} (hj : r.bindings.get? id = some j) :
    r.scopeOf doc id = j := by
  rw [scopeOf, Document.ancestors_eq_cons, List.findSome?_cons, hj]
  rfl

/-- An element that is not bound has the scope of its parent. -/
theorem scopeOf_of_unbound {p : ElementId} (hid : r.bindings.get? id = none)
    (hancestors : doc.ancestors id = id :: doc.ancestors p) :
    r.scopeOf doc id = r.scopeOf doc p := by
  rw [scopeOf, hancestors, List.findSome?_cons, hid]
  rfl

/-- The scope of the root is the file. -/
theorem scopeOf_root (h : doc.Placed) (hroot : r.bindings.get? .root = none) :
    r.scopeOf doc .root = r.file := by
  rw [scopeOf, h.ancestors_root, List.findSome?_cons, hroot]
  rfl

/-- The root is not reached. -/
theorem not_reaches_root (h : doc.Placed) : ¬ r.Reaches schema doc .root := by
  rintro ⟨⟨top, htop, hmem⟩, -⟩
  rw [h.ancestors_root, List.mem_singleton] at hmem
  exact (h.parent_declared htop).1 hmem

/-- A top-level element is reached if it is the first one, and any other if its parent is reached
and lets it pass. -/
theorem reaches_iff (h : doc.Placed) {p : ElementId} (hp : doc.parent? id = some p)
    (hancestors : doc.ancestors id = id :: doc.ancestors p) :
    r.Reaches schema doc id ↔
      if p = .root then doc.declared? = some id
      else r.Reaches schema doc p ∧ r.Passes schema doc p := by
  split
  next hroot =>
    subst hroot
    constructor
    · -- In the root nothing is above the element, so only being the first counts.
      rintro ⟨⟨top, htop, hmem⟩, -⟩
      rw [hancestors, h.ancestors_root] at hmem
      rcases List.mem_cons.1 hmem with rfl | hmem
      · exact htop
      · exact absurd (List.mem_singleton.1 hmem) (h.parent_declared htop).1
    · intro htop
      refine ⟨⟨id, htop, by rw [hancestors]; exact List.mem_cons_self⟩, fun a ha => ?_⟩
      rw [hancestors, h.ancestors_root] at ha
      exact Or.inl (List.mem_singleton.1 ha)
  next hroot =>
    -- Otherwise the parent is above the element, with all that is above the parent.
    have hself : p ∈ doc.ancestors p := by
      rw [Document.ancestors_eq_cons]
      exact List.mem_cons_self
    constructor
    · rintro ⟨⟨top, htop, hmem⟩, habove⟩
      rw [hancestors] at hmem habove
      refine ⟨⟨⟨top, htop, ?_⟩, fun a ha => habove a (List.mem_of_mem_tail ha)⟩, habove p hself⟩
      rcases List.mem_cons.1 hmem with rfl | hmem
      · -- The first top-level element stands in the root, and this one does not.
        rw [(h.parent_declared htop).2] at hp
        exact absurd (Option.some.inj hp).symm hroot
      · exact hmem
    · rintro ⟨⟨⟨top, htop, hmem⟩, habove⟩, hpass⟩
      refine ⟨⟨top, htop, by rw [hancestors]; exact List.mem_cons_of_mem _ hmem⟩, fun a ha => ?_⟩
      rw [hancestors, List.tail_cons, Document.ancestors_eq_cons] at ha
      rcases List.mem_cons.1 ha with rfl | ha
      · exact hpass
      · exact habove a ha

/-- An element other than the root lets elements pass for its kind. -/
theorem passes_iff (he : doc.get? id = some e) (hroot : id ≠ .root) :
    r.Passes schema doc id ↔
      e.kind schema = .other ∨ e.kind schema = .frame ∧ id ∈ r.bindings.keys := by
  constructor
  · rintro (h | ⟨f, hf, h⟩)
    · exact absurd h hroot
    · obtain rfl := Option.some_inj.1 (he.symm.trans hf)
      exact h
  · exact fun h => Or.inr ⟨e, he, h⟩

/-- Two records of one file that bind the elements below a number in the same way. -/
structure Agree (r r' : Record) (number : ElementId) : Prop where
  /-- They have the same file. -/
  file : r'.file = r.file
  /-- They bind the same elements to the same entries. -/
  bindings : ∀ a, a < number → r'.bindings.get? a = r.bindings.get? a

namespace Agree

variable {number : ElementId} (h : r.Agree r' number)
include h

/-- They give the elements the same scopes. -/
theorem scopeOf (hid : id < number) : r'.scopeOf doc id = r.scopeOf doc id := by
  have hsame : (doc.ancestors id).findSome? r'.bindings.get? =
      (doc.ancestors id).findSome? r.bindings.get? := by
    rw [← List.head?_filterMap, ← List.head?_filterMap]
    refine congrArg List.head? (List.filterMap_congr fun a ha => h.bindings a ?_)
    exact Nat.lt_of_le_of_lt (Document.le_of_mem_ancestors ha) hid
  rw [Record.scopeOf, Record.scopeOf, hsame, h.file]

/-- They let the same elements pass. -/
theorem passes (hid : id < number) : r'.Passes schema doc id ↔ r.Passes schema doc id := by
  have hkey : id ∈ r'.bindings.keys ↔ id ∈ r.bindings.keys := by
    rw [OrderedMap.mem_keys_iff, OrderedMap.mem_keys_iff, h.bindings id hid]
  unfold Passes
  rw [hkey]

/-- They reach the same elements, up to the number itself. -/
theorem reaches (hid : id ≤ number) (hplaced : doc.Placed) (he : doc.get? id = some e) :
    r'.Reaches schema doc id ↔ r.Reaches schema doc id := by
  by_cases hroot : id = .root
  · subst hroot
    exact iff_of_false (not_reaches_root hplaced) (not_reaches_root hplaced)
  · obtain ⟨p, -, -, -, hlt, -, hancestors⟩ := hplaced.ancestors_eq he hroot
    have habove : ∀ a ∈ (doc.ancestors id).tail, a < number := by
      intro a ha
      rw [hancestors] at ha
      exact Nat.lt_of_lt_of_le (Nat.lt_of_le_of_lt (Document.le_of_mem_ancestors ha) hlt) hid
    exact ⟨fun ⟨htop, hall⟩ => ⟨htop, fun a ha => (h.passes (habove a ha)).1 (hall a ha)⟩,
      fun ⟨htop, hall⟩ => ⟨htop, fun a ha => (h.passes (habove a ha)).2 (hall a ha)⟩⟩

end Agree

end Record

namespace Index

/-! ## Walks through the first elements -/

/-- The walk through the first elements of a document. -/
def walkTo (ix : Index) (schema : Schema) (id : DocumentId) (doc : Document) (count : Nat) :
    Except Fault Walk := do
  let w ← ix.beginBinding id doc
  (doc.elements.toList.take count).foldlM (fun w e => w.visit schema id doc e) w

/-- A numbered name of an element is free in a scope when the walk comes to the element. -/
def FindsName (ix : Index) (schema : Schema) (id : DocumentId) (doc : Document) (scope : EntryId)
    (k : ElementId) (e : Element) : Prop :=
  ∃ w s number, ix.walkTo schema id doc k = .ok w ∧ w.index.entry? scope = some s ∧
    number < ix.nameLimit ∧ s.children.get? (Name.numbered e.nameStem number) = none

/-- An element gets an entry, going by the record of its document: it is reached, it is of a kind
that declares, and it has a name or one was free when the walk came to it. -/
structure Binds (ix : Index) (schema : Schema) (id : DocumentId) (doc : Document) (r : Record)
    (k : ElementId) (e : Element) : Prop where
  /-- It may be declared. -/
  reached : r.Reaches schema doc k
  /-- It is a frame, an animation or a group of states. -/
  kind : (e.kind schema).isDeclaration = true
  /-- There is a name for it. -/
  named : (e.attributeValue? "name").isSome = true ∨
    ∃ p, doc.parent? k = some p ∧ ix.FindsName schema id doc (r.scopeOf doc p) k e

variable {ix : Index} {schema : Schema} {id : DocumentId} {doc : Document}

/-- A walk goes on with the next element. -/
theorem walkTo_succ {k : ElementId} {e : Element} (he : doc.get? k = some e) :
    ix.walkTo schema id doc (k + 1) = (do
      let w ← ix.walkTo schema id doc k
      w.visit schema id doc e) := by
  have hlast : doc.elements.toList[k]? = some e := by
    rw [Array.getElem?_toList]
    exact he
  unfold walkTo
  cases ix.beginBinding id doc with
  | error fault => rfl
  | ok w =>
    rw [ok_bind, ok_bind, List.take_add_one, hlast, Option.toList_some, List.foldlM_append]
    refine bind_congr fun w' => ?_
    rw [List.foldlM_cons]
    exact bind_pure _

/-- Every visit notes one place. -/
theorem Walk.Visits.size {w w' : Walk} {e : Element} (h : w.Visits schema id doc e w') :
    w'.places.size = w.places.size + 1 := by
  cases h with
  | constant => cases e.attributeValue? "name" <;> exact size_leave ..
  | property => cases e.handle? schema <;> exact size_leave ..
  | declares => rw [size_leave, places_declared]
  | outside => exact size_leave ..
  | within => exact size_leave ..
  | unnamed => exact size_leave ..

/-- The walk through the first elements of a document that is not bound never fails. What holds at
its beginning, and is kept by every visit on the way, holds of it. -/
theorem walkTo_spec (h : ix.Sound) (schema : Schema) (hnew : ix.records.get? id = none)
    (doc : Document) {P : Walk → Prop}
    (start : ∀ {index file v'},
      Entries.Declares ix.entry? ⟨id, .root⟩ .root doc.name .file file v' →
      ix.Reslotted v' index → P { index, record := { file, text := doc.text } })
    (step : ∀ {w e w'}, w.Follows ix id w.places.size →
      ix.walkTo schema id doc w.places.size = .ok w → doc.get? w.places.size = some e → P w →
      w.Visits schema id doc e w' → P w') {count : Nat} (hcount : count ≤ doc.size) :
    ∃ w, ix.walkTo schema id doc count = .ok w ∧ w.Follows ix id w.places.size ∧
      w.places.size = count ∧ P w := by
  induction count with
  | zero =>
    obtain ⟨index, file, v', hbegin, hd, hre, hw⟩ := beginBinding_spec h hnew doc
    refine ⟨{ index, record := { file, text := doc.text } }, ?_, hw, rfl, start hd hre⟩
    unfold walkTo
    rw [hbegin]
    rfl
  | succ count ih =>
    obtain ⟨w, hwalk, hw, rfl, hP⟩ := ih (Nat.le_of_succ_le hcount)
    have he : doc.get? w.places.size = some doc.elements[w.places.size] :=
      Array.getElem?_eq_getElem hcount
    -- No visit fails, and it goes on to the next element.
    obtain ⟨w', hvisit, hvisits⟩ := Walk.visit_spec hw schema doc doc.elements[w.places.size]
    refine ⟨w', ?_, hw.visits hvisits, hvisits.size, step hw hwalk he hP hvisits⟩
    rw [walkTo_succ he, hwalk, ok_bind, hvisit]

/-- Adding a document is the walk through all its elements. -/
theorem addDocument_of_walkTo {w : Walk} (h : ix.walkTo schema id doc doc.size = .ok w) :
    ix.addDocument schema id doc = .ok (w.sealed id, w.record.file) := by
  unfold walkTo at h
  obtain ⟨w₀, hbegin, hfold⟩ := exists_of_bind_eq_ok h
  have hall : doc.elements.toList.take doc.size = doc.elements.toList :=
    List.take_of_length_le (Nat.le_of_eq Array.length_toList)
  rw [hall] at hfold
  unfold addDocument
  rw [hbegin, ok_bind]
  dsimp only
  rw [hfold]
  rfl

/-! ## Names -/

/-- No name is found exactly if all are taken. -/
theorem firstFree?_eq_none_iff {taken : String → Bool} {stem : String} {count number : Nat} :
    firstFree? taken stem count number = none ↔
      ∀ i < count, taken (Name.numbered stem (number + i)) = true := by
  induction count generalizing number with
  | zero => simp [firstFree?]
  | succ count ih =>
    unfold firstFree?
    dsimp only
    split
    -- The first number is taken, so the others are counted from the next one on.
    next htaken =>
      rw [ih]
      constructor
      · intro h i hi
        cases i with
        | zero => exact htaken
        | succ i =>
          rw [show number + (i + 1) = number + 1 + i by omega]
          exact h i (Nat.lt_of_succ_lt_succ hi)
      · intro h i hi
        rw [show number + 1 + i = number + (i + 1) by omega]
        exact h (i + 1) (Nat.succ_lt_succ hi)
    next hfree =>
      refine iff_of_false (Option.some_ne_none _) fun h => hfree ?_
      exact h 0 (Nat.succ_pos count)

/-- The name for an element without one of its own is the first numbered one that is free. -/
theorem nameFor?_of_unnamed {scope : EntryId} {s : Entry} {e : Element}
    (hs : ix.entry? scope = some s) (hown : e.attributeValue? "name" = none) :
    ix.nameFor? scope e = .ok (firstFree? s.children.contains e.nameStem ix.nameLimit 0) := by
  unfold nameFor?
  rw [hown]
  dsimp only
  rw [entry_eq hs]
  rfl

/-- What the walk finds for an element without a name of its own is a name that is free. -/
theorem findsName_iff {w : Walk} {k : ElementId} {e : Element} {scope : EntryId} {s : Entry}
    {name : Option String} (hwalk : ix.walkTo schema id doc k = .ok w)
    (hlimit : w.index.nameLimit = ix.nameLimit) (hs : w.index.entry? scope = some s)
    (hown : e.attributeValue? "name" = none) (hname : w.index.nameFor? scope e = .ok name) :
    ix.FindsName schema id doc scope k e ↔ name ≠ none := by
  -- The walk looks for the name among the children that its scope has at this element.
  have hfree : name = firstFree? s.children.contains e.nameStem ix.nameLimit 0 := by
    rw [nameFor?_of_unnamed hs hown, hlimit] at hname
    exact (Except.ok.inj hname).symm
  rw [hfree, Ne, firstFree?_eq_none_iff]
  push Not
  constructor
  · rintro ⟨w', s', number, hwalk', hs', hlt, hnone⟩
    rw [hwalk] at hwalk'
    cases hwalk'
    rw [hs] at hs'
    cases hs'
    refine ⟨number, hlt, ?_⟩
    rw [Nat.zero_add, OrderedMap.contains, hnone]
    exact Bool.false_ne_true
  · rintro ⟨number, hlt, hnot⟩
    refine ⟨w, s, number, hwalk, hs, hlt, ?_⟩
    rw [Nat.zero_add, OrderedMap.contains, Ne, Option.isSome_iff_ne_none, not_not] at hnot
    exact hnot

/-! ## What a walk tracks -/

/-- Records that agree below an element bind it alike, if they reach it alike. -/
theorem Binds.congr {r r' : Record} {k : ElementId} {e : Element} (h : ix.Binds schema id doc r k e)
    (hplaced : doc.Placed) (he : doc.get? k = some e) {number : ElementId}
    (hagree : r.Agree r' number) (hk : k ≤ number) : ix.Binds schema id doc r' k e := by
  have hroot : k ≠ .root := by
    rintro rfl
    exact Record.not_reaches_root hplaced h.reached
  obtain ⟨p, -, hp, -, hlt, -⟩ := hplaced.ancestors_eq he hroot
  refine ⟨(hagree.reaches hk hplaced he).2 h.reached, h.kind, h.named.imp_right ?_⟩
  rintro ⟨p', hp', hfinds⟩
  rw [hp] at hp'
  cases hp'
  refine ⟨p, hp, ?_⟩
  rw [hagree.scopeOf (Nat.lt_of_lt_of_le hlt hk)]
  exact hfinds

namespace Walk

/-- A bound element has an entry of its name, which stands in the scope of its parent. -/
def Links (doc : Document) (w : Walk) (a : ElementId) (j : EntryId) : Prop :=
  ∃ e entry p, doc.get? a = some e ∧ w.index.entry? j = some entry ∧
    (∀ name, e.attributeValue? "name" = some name → entry.name = name) ∧
    doc.parent? a = some p ∧ p < a ∧ entry.parent = some (w.record.scopeOf doc p)

/-- The places of a walk, its bindings and the entries of these are what the record says. -/
structure Tracks (ix : Index) (schema : Schema) (id : DocumentId) (doc : Document) (w : Walk) :
    Prop where
  /-- An element has a place for entries in it exactly if it is reached and lets elements pass. -/
  reached : ∀ {a}, a < w.places.size →
    ((∃ p, w.places[a]? = some (some p) ∧ p.declares = true) ↔
      w.record.Reaches schema doc a ∧ w.record.Passes schema doc a)
  /-- Such a place is in the scope of the element. -/
  scope : ∀ {a p}, w.places[a]? = some (some p) → p.declares = true →
    p.scope = w.record.scopeOf doc a
  /-- The elements that are bound are those that ought to be. -/
  bound : ∀ {a}, a < w.places.size →
    (a ∈ w.record.bindings.keys ↔ ∃ e, doc.get? a = some e ∧ ix.Binds schema id doc w.record a e)
  /-- Bound elements have their entries where they ought to be. -/
  linked : ∀ {a j}, w.record.bindings.get? a = some j → w.Links doc a j

variable {w : Walk} {e : Element}

/-- The root is not bound. -/
theorem Tracks.root_unbound (h : w.Tracks ix schema id doc) :
    w.record.bindings.get? .root = none := by
  cases hj : w.record.bindings.get? .root with
  | none => rfl
  | some j =>
    obtain ⟨-, -, p, -, -, -, -, hlt, -⟩ := h.linked hj
    exact absurd hlt (Nat.not_lt_zero p)

/-- The next element has a place for its declaration exactly if it is reached. -/
theorem Tracks.exists_placeOf_iff (h : w.Tracks ix schema id doc) (hplaced : doc.Placed)
    (he : doc.get? w.places.size = some e) :
    (∃ p, w.placeOf doc w.places.size e = some p ∧ p.declares = true) ↔
      w.record.Reaches schema doc w.places.size := by
  by_cases hroot : w.places.size = ElementId.root
  · have hnone : e.parent = none := by
      obtain ⟨r, hr, hnone, -⟩ := hplaced.root
      rw [hroot, hr] at he
      cases he
      exact hnone
    rw [hroot]
    -- The root has no place, and is not reached.
    refine iff_of_false ?_ (Record.not_reaches_root hplaced)
    rintro ⟨p, hp, -⟩
    rw [placeOf, hnone] at hp
    exact Option.some_ne_none p hp.symm
  · obtain ⟨p, -, hp, hparent, hlt, -, hancestors⟩ := hplaced.ancestors_eq he hroot
    -- In the root the first element has a place, elsewhere the parent has left one.
    rw [Record.reaches_iff hplaced hp hancestors, placeOf, hparent]
    dsimp only
    split
    next hp =>
      split
      next htop => exact iff_of_true ⟨_, rfl, rfl⟩ htop
      next htop => exact iff_of_false (fun ⟨_, hnone, _⟩ => nomatch hnone) htop
    next hp =>
      simp only [Option.join_eq_some_iff]
      exact h.reached hlt

/-- The place of the next element is in the scope of its parent. -/
theorem Tracks.scope_placeOf (h : w.Tracks ix schema id doc) (hplaced : doc.Placed)
    (he : doc.get? w.places.size = some e) {place : Place}
    (hplace : w.placeOf doc w.places.size e = some place) (hdeclares : place.declares = true) :
    ∃ p, doc.parent? w.places.size = some p ∧ p < w.places.size ∧
      doc.ancestors w.places.size = w.places.size :: doc.ancestors p ∧
      place.scope = w.record.scopeOf doc p := by
  -- An element that declares something is not the root, so it has a parent.
  have hroot : w.places.size ≠ ElementId.root := by
    intro hroot
    have hreached := (h.exists_placeOf_iff hplaced he).1 ⟨place, hplace, hdeclares⟩
    rw [hroot] at hreached
    exact Record.not_reaches_root hplaced hreached
  obtain ⟨p, -, hp, hparent, hlt, -, hancestors⟩ := hplaced.ancestors_eq he hroot
  refine ⟨p, hp, hlt, hancestors, ?_⟩
  rw [placeOf, hparent] at hplace
  dsimp only at hplace
  -- Below the root the scope is the file entry; elsewhere it is what the walk noted for the parent.
  split at hplace
  next hp =>
    split at hplace
    next =>
      cases hplace
      rw [hp, Record.scopeOf_root hplaced h.root_unbound]
    next => exact absurd hplace (Option.some_ne_none place).symm
  next => exact h.scope (Option.join_eq_some_iff.1 hplace) hdeclares

/-- What an element is linked to stays so, if its entry stays in its place and the record does not
change on what is above it. -/
theorem Links.keep {a : ElementId} {j : EntryId} (h : w.Links doc a j) {u : Walk}
    {number : ElementId} (hagree : w.record.Agree u.record number) (ha : a ≤ number)
    (hkeep : ∀ {f}, w.index.entry? j = some f →
      ∃ f', u.index.entry? j = some f' ∧ Entries.SameLinks f f') : u.Links doc a j := by
  obtain ⟨e, f, p, he, hf, hname, hp, hlt, hparent⟩ := h
  obtain ⟨f', hf', hlinks⟩ := hkeep hf
  refine ⟨e, f', p, he, hf', fun own hown => ?_, hp, hlt, ?_⟩
  · rw [hlinks.name]
    exact hname own hown
  · rw [hlinks.parent, hparent, hagree.scopeOf (Nat.lt_of_lt_of_le hlt ha)]

/-- An element is linked to the entry that is declared in the scope of its parent for it. -/
theorem links_of_declares {a p : ElementId} {d : Declaration} {scope j : EntryId} {kind : EntryKind}
    {name : String} {v' : Entries} (hrooted : Entries.Rooted w.index.entry?)
    (hd : Entries.Declares w.index.entry? d scope name kind j v') (he : doc.get? a = some e)
    (hname : w.index.nameFor? scope e = .ok (some name)) (hp : doc.parent? a = some p)
    (hlt : p < a) {u : Walk} (hview : u.index.entry? = v')
    (hscope : scope = u.record.scopeOf doc p) : u.Links doc a j := by
  obtain ⟨s, f, -, hf, hparent, hpath⟩ := hd.exists_entry hrooted
  refine ⟨e, f, p, he, hview ▸ hf, fun own hown => ?_, hp, hlt, hscope ▸ hparent⟩
  -- A name of its own is the one that the entry was declared under.
  rw [nameFor?, hown] at hname
  cases hname
  rw [Entry.name, hpath, List.getLastD_concat]

/-- A visit keeps track, if it does so for the element visited and for the entries. -/
theorem Tracks.next (h : w.Tracks ix schema id doc) (hplaced : doc.Placed)
    (he : doc.get? w.places.size = some e) {u : Walk} {place : Option Place}
    (hplaces : u.places = w.places.push place) (hagree : w.record.Agree u.record w.places.size)
    (hreached : (∃ p, place = some p ∧ p.declares = true) ↔
      u.record.Reaches schema doc w.places.size ∧ u.record.Passes schema doc w.places.size)
    (hscope : ∀ p, place = some p → p.declares = true →
      p.scope = u.record.scopeOf doc w.places.size)
    (hbound : w.places.size ∈ u.record.bindings.keys ↔
      ix.Binds schema id doc u.record w.places.size e)
    (hlinked : ∀ {a j}, u.record.bindings.get? a = some j → u.Links doc a j) :
    u.Tracks ix schema id doc := by
  have hsize : u.places.size = w.places.size + 1 := by rw [hplaces, Array.size_push]
  have hbefore : ∀ {a}, a < w.places.size → u.places[a]? = w.places[a]? := by
    intro a ha
    rw [hplaces, Array.getElem?_push_lt ha, Array.getElem?_eq_getElem ha]
  have hlast : u.places[w.places.size]? = some place := by
    rw [hplaces, Array.getElem?_push_size]
  have hthere : ∀ {a}, a < w.places.size → ∃ f, doc.get? a = some f := by
    intro a ha
    have hlt := (Array.getElem?_eq_some_iff.1 he).1
    exact ⟨_, Array.getElem?_eq_getElem (Nat.lt_trans ha hlt)⟩
  -- The element is one from before or the one visited.
  have hcases : ∀ {a}, a < u.places.size → a < w.places.size ∨ a = w.places.size := by
    intro a ha
    rw [hsize] at ha
    exact Nat.lt_or_eq_of_le (Nat.le_of_lt_succ ha)
  refine ⟨fun {a} ha => ?_, fun {a p} hp hdeclares => ?_, fun {a} ha => ?_, hlinked⟩
  · -- An element from before is reached as it was, for what is above it is older still.
    rcases hcases ha with hold | rfl
    · obtain ⟨f, hf⟩ := hthere hold
      rw [hbefore hold, hagree.reaches (Nat.le_of_lt hold) hplaced hf, hagree.passes hold]
      exact h.reached hold
    · rw [hlast]
      simp only [Option.some.injEq]
      exact hreached
  · -- Its scope is as it was.
    rcases hcases (Array.getElem?_eq_some_iff.1 hp).1 with hold | rfl
    · rw [hagree.scopeOf hold]
      exact h.scope (hbefore hold ▸ hp) hdeclares
    · rw [hlast] at hp
      exact hscope p (Option.some.inj hp) hdeclares
  · -- And it is bound as it was, in whatever index the walk is.
    rcases hcases ha with hold | rfl
    · rw [OrderedMap.mem_keys_iff, hagree.bindings a hold, ← OrderedMap.mem_keys_iff, h.bound hold]
      have hback : u.record.Agree w.record w.places.size :=
        ⟨hagree.file.symm, fun a ha => (hagree.bindings a ha).symm⟩
      constructor
      · rintro ⟨f, hf, hb⟩
        exact ⟨f, hf, hb.congr hplaced hf hagree (Nat.le_of_lt hold)⟩
      · rintro ⟨f, hf, hb⟩
        exact ⟨f, hf, hb.congr hplaced hf hback (Nat.le_of_lt hold)⟩
    · rw [hbound]
      constructor
      · exact fun hb => ⟨e, he, hb⟩
      · rintro ⟨f, hf, hb⟩
        rw [he] at hf
        cases hf
        exact hb

/-- A visit that binds nothing keeps track, if the place it notes is right and the element ought not
to be bound. -/
theorem Tracks.pass (h : w.Tracks ix schema id doc) (hplaced : doc.Placed)
    (hw : w.Follows ix id w.places.size) (he : doc.get? w.places.size = some e) {u : Walk}
    (hplaces : u.places = w.places) (hfile : u.record.file = w.record.file)
    (hbindings : u.record.bindings = w.record.bindings)
    (hview : u.index.entry? = w.index.entry?) {place : Option Place}
    (hreached : (∃ p, place = some p ∧ p.declares = true) ↔
      w.record.Reaches schema doc w.places.size ∧ w.record.Passes schema doc w.places.size)
    (hscope : ∀ p, place = some p → p.declares = true →
      p.scope = w.record.scopeOf doc w.places.size)
    (hnot : ¬ ix.Binds schema id doc w.record w.places.size e) :
    (u.leave place).Tracks ix schema id doc := by
  -- The two records agree on every element, so what is asked of the one holds of the other.
  have hagree : ∀ number, w.record.Agree (u.leave place).record number :=
    fun _ => ⟨hfile, fun a _ => congrArg (OrderedMap.get? · a) hbindings⟩
  have hback : (u.leave place).record.Agree w.record w.places.size :=
    ⟨hfile.symm, fun a _ => congrArg (OrderedMap.get? · a) hbindings.symm⟩
  have hlt := Nat.lt_succ_self w.places.size
  refine h.next hplaced he (by rw [leave, hplaces]) (hagree _) ?_ ?_ ?_ ?_
  · rw [(hagree _).reaches (Nat.le_of_lt hlt) hplaced he, (hagree _).passes hlt]
    exact hreached
  · rw [(hagree _).scopeOf hlt]
    exact hscope
  · -- The element is not bound, since only elements from before are.
    refine iff_of_false (fun hmem => ?_) fun hb => hnot (hb.congr hplaced he hback (Nat.le_refl _))
    have hkey : w.places.size ∈ w.record.bindings.keys := hbindings ▸ hmem
    exact Nat.lt_irrefl _ (hw.bindings _ hkey)
  · intro a j hj
    refine (h.linked (hbindings ▸ hj)).keep (hagree a) (Nat.le_refl a) fun {f} hf => ?_
    exact ⟨f, (congrFun hview j).trans hf, ⟨rfl, rfl, rfl⟩⟩

/-- A visit that leaves no place for what stands in the element keeps track, if the element is not
reached, or lets nothing pass and ought not to be bound. -/
theorem Tracks.stop (h : w.Tracks ix schema id doc) (hplaced : doc.Placed)
    (hw : w.Follows ix id w.places.size) (he : doc.get? w.places.size = some e) {u : Walk}
    (hplaces : u.places = w.places) (hfile : u.record.file = w.record.file)
    (hbindings : u.record.bindings = w.record.bindings)
    (hview : u.index.entry? = w.index.entry?)
    (hstop : w.record.Reaches schema doc w.places.size →
      e.kind schema ≠ .other ∧ ¬ ix.Binds schema id doc w.record w.places.size e) :
    (u.leave none).Tracks ix schema id doc := by
  refine h.pass hplaced hw he hplaces hfile hbindings hview ?_ (fun p hp => nomatch hp) ?_
  · refine iff_of_false (fun ⟨p, hp, _⟩ => nomatch hp) fun ⟨hreached, hpass⟩ => ?_
    have hroot : w.places.size ≠ ElementId.root :=
      fun hroot => Record.not_reaches_root hplaced (hroot ▸ hreached)
    rcases (Record.passes_iff he hroot).1 hpass with hother | ⟨-, hkey⟩
    · exact (hstop hreached).1 hother
    · exact Nat.lt_irrefl _ (hw.bindings _ hkey)
  · exact fun hb => (hstop hb.reached).2 hb

/-- An element of no kind of its own, or one that is not reached, leaves its place to what stands in
it. -/
theorem Tracks.within (h : w.Tracks ix schema id doc) (hplaced : doc.Placed)
    (hw : w.Follows ix id w.places.size) (he : doc.get? w.places.size = some e) {place : Place}
    (hplace : w.placeOf doc w.places.size e = some place)
    (hother : place.declares = true → e.kind schema = .other) :
    (w.leave (some place)).Tracks ix schema id doc := by
  have hiff := h.exists_placeOf_iff hplaced he
  -- A place that a reached element finds is one for declarations.
  have hdeclares : w.record.Reaches schema doc w.places.size → place.declares = true := by
    intro hreached
    obtain ⟨p, hp, hdeclares⟩ := hiff.2 hreached
    rw [hplace] at hp
    cases hp
    exact hdeclares
  refine h.pass hplaced hw he rfl rfl rfl rfl ?_ (fun p hp hd => ?_) fun hb => ?_
  · constructor
    · rintro ⟨p, hp, hd⟩
      cases hp
      exact ⟨hiff.1 ⟨place, hplace, hd⟩, Or.inr ⟨e, he, Or.inl (hother hd)⟩⟩
    · rintro ⟨hreached, -⟩
      exact ⟨place, rfl, hdeclares hreached⟩
  · cases hp
    -- Nothing is bound to the element, so its scope is that of its parent.
    obtain ⟨parent, -, -, hancestors, hscope⟩ := h.scope_placeOf hplaced he hplace hd
    have hkey : w.record.bindings.get? w.places.size = none := OrderedMap.get?_eq_none_iff.2
      fun hmem => absurd (hw.bindings _ hmem) (Nat.lt_irrefl _)
    rw [hscope, Record.scopeOf_of_unbound hkey hancestors]
  · have hkind := hb.kind
    rw [hother (hdeclares hb.reached)] at hkind
    exact Bool.noConfusion hkind

/-- An element that is bound to an entry keeps track. -/
theorem Tracks.declares (h : w.Tracks ix schema id doc) (hplaced : doc.Placed)
    (hw : w.Follows ix id w.places.size) (hwalk : ix.walkTo schema id doc w.places.size = .ok w)
    (he : doc.get? w.places.size = some e) {place : Place} {kind : EntryKind} {name : String}
    {index : Index} {entry : EntryId} {v' : Entries}
    (hplace : w.placeOf doc w.places.size e = some place)
    (hkind : EntryKind.ofNodeKind? (e.kind schema) = some kind) (hdeclares : place.declares = true)
    (hname : w.index.nameFor? place.scope e = .ok (some name))
    (hd : Entries.Declares w.index.entry? ⟨id, w.places.size⟩ place.scope name kind entry v')
    (hre : w.index.Reslotted v' index) {u : Walk}
    (hu : u = (w.declared ⟨id, w.places.size⟩ e index entry).leave
      (some ⟨entry, e.kind schema = .frame⟩)) : u.Tracks ix schema id doc := by
  have hreached := (h.exists_placeOf_iff hplaced he).1 ⟨place, hplace, hdeclares⟩
  obtain ⟨p, hp, hlt, hancestors, hscope⟩ := h.scope_placeOf hplaced he hplace hdeclares
  have hroot : w.places.size ≠ ElementId.root := Nat.ne_of_gt (Nat.zero_lt_of_lt hlt)
  -- The record has one more binding, that of the element.
  have hrecord : u.record = (w.declared ⟨id, w.places.size⟩ e index entry).record := by
    rw [hu]
    rfl
  rw [record_declared] at hrecord
  have hget : ∀ a, u.record.bindings.get? a =
      if a = w.places.size then some entry else w.record.bindings.get? a := by
    intro a
    rw [hrecord]
    exact OrderedMap.get?_insert ..
  have hagree : w.record.Agree u.record w.places.size := by
    refine ⟨by rw [hrecord], fun a ha => ?_⟩
    rw [hget, if_neg (Nat.ne_of_lt ha)]
  have hself : u.record.bindings.get? w.places.size = some entry := by
    rw [hget, if_pos rfl]
  have hkey := OrderedMap.mem_keys_iff.2 ⟨entry, hself⟩
  have hview : u.index.entry? = v' := by
    rw [hu]
    exact (entry?_declared ..).trans hre.view
  have hplaces : u.places = w.places.push (some ⟨entry, e.kind schema = .frame⟩) := by
    rw [hu, leave, places_declared]
  have hreached' := (hagree.reaches (Nat.le_refl _) hplaced he).2 hreached
  refine h.next hplaced he hplaces hagree ?_ ?_ ?_ ?_
  · -- It is bound and of a kind of its own, so it lets elements pass iff it is a frame.
    have hother : e.kind schema ≠ .other := by
      intro hother
      rw [hother] at hkind
      exact absurd hkind (Option.some_ne_none kind).symm
    rw [Record.passes_iff he hroot, or_iff_right hother, and_iff_left hkey,
      and_iff_right hreached']
    constructor
    · rintro ⟨q, hq, hframe⟩
      cases hq
      exact of_decide_eq_true hframe
    · exact fun hframe => ⟨_, rfl, decide_eq_true hframe⟩
  · rintro q hq -
    cases hq
    exact (Record.scopeOf_of_bound hself).symm
  · -- It ought to be bound: it is reached, of a kind that is declared, and has a name or finds one.
    refine iff_of_true hkey ⟨hreached', ?_, ?_⟩
    · rw [NodeKind.isDeclaration_eq_isSome, hkind]
      rfl
    · cases hown : e.attributeValue? "name" with
      | some own => exact Or.inl rfl
      | none =>
        obtain ⟨s, hs, -⟩ := hw.exists_scope (hw.scope_mem hplace)
        refine Or.inr ⟨p, hp, ?_⟩
        rw [hagree.scopeOf hlt, ← hscope, findsName_iff hwalk hw.nameLimit hs hown hname]
        exact Option.some_ne_none name
  · intro a j hj
    rw [hget] at hj
    -- The new entry stands where it was declared, and the others keep their places.
    by_cases ha : a = w.places.size
    · obtain rfl := ha
      rw [if_pos rfl] at hj
      cases hj
      exact links_of_declares hw.ordered.rooted hd he hname hp hlt hview
        (hscope.trans (hagree.scopeOf hlt).symm)
    · rw [if_neg ha] at hj
      have hbefore : a < w.places.size := hw.bindings a (OrderedMap.mem_keys_iff.2 ⟨j, hj⟩)
      refine (h.linked hj).keep hagree (Nat.le_of_lt hbefore) fun {f} hf => ?_
      rw [hview]
      exact hd.exists_sameLinks hf

/-- An element without a name for which none is free ought not to be bound. -/
theorem Tracks.not_binds_of_unnamed (h : w.Tracks ix schema id doc) (hplaced : doc.Placed)
    (hw : w.Follows ix id w.places.size) (hwalk : ix.walkTo schema id doc w.places.size = .ok w)
    (he : doc.get? w.places.size = some e) {place : Place}
    (hplace : w.placeOf doc w.places.size e = some place) (hdeclares : place.declares = true)
    (hname : w.index.nameFor? place.scope e = .ok none) :
    ¬ ix.Binds schema id doc w.record w.places.size e := by
  intro hb
  obtain ⟨p, hp, hlt, -, hscope⟩ := h.scope_placeOf hplaced he hplace hdeclares
  obtain ⟨s, hs, -⟩ := hw.exists_scope (hw.scope_mem hplace)
  have hown : e.attributeValue? "name" = none := by
    cases hown : e.attributeValue? "name" with
    | none => rfl
    | some own =>
      rw [nameFor?, hown] at hname
      cases hname
  rcases hb.named with hsome | ⟨p', hp', hfinds⟩
  · rw [hown] at hsome
    exact Bool.noConfusion hsome
  · obtain rfl := Option.some_inj.1 (hp.symm.trans hp')
    rw [← hscope, findsName_iff hwalk hw.nameLimit hs hown hname] at hfinds
    exact hfinds rfl

/-- A visit keeps track. -/
theorem Tracks.visits (h : w.Tracks ix schema id doc) (hplaced : doc.Placed)
    (hw : w.Follows ix id w.places.size) (hwalk : ix.walkTo schema id doc w.places.size = .ok w)
    (he : doc.get? w.places.size = some e) {w' : Walk} (hw' : w.Visits schema id doc e w') :
    w'.Tracks ix schema id doc := by
  have hiff := h.exists_placeOf_iff hplaced he
  -- Constants and properties declare no entry.
  have hneither : ∀ {kind : NodeKind}, e.kind schema = kind → kind.isDeclaration = false →
      kind ≠ .other → w.record.Reaches schema doc w.places.size →
      e.kind schema ≠ .other ∧ ¬ ix.Binds schema id doc w.record w.places.size e := by
    intro kind hkind hdecl hother _
    refine ⟨hkind ▸ hother, fun hb => ?_⟩
    have hb' := hb.kind
    rw [hkind, hdecl] at hb'
    exact Bool.noConfusion hb'
  cases hw' with
  | outside hplace =>
    refine h.stop hplaced hw he rfl rfl rfl rfl fun hreached => ?_
    -- What is reached has a place.
    obtain ⟨p, hp, -⟩ := hiff.2 hreached
    rw [hplace] at hp
    exact absurd hp (Option.some_ne_none p).symm
  | constant hplace hkind =>
    have hstop := hneither hkind rfl (by decide)
    cases e.attributeValue? "name" with
    | none => exact h.stop hplaced hw he rfl rfl rfl rfl hstop
    | some name =>
      exact h.stop (u := w.addConstant ⟨id, w.places.size⟩ name) hplaced hw he rfl rfl rfl rfl hstop
  | property hplace hkind =>
    have hstop := hneither hkind rfl (by decide)
    cases e.handle? schema with
    | none => exact h.stop hplaced hw he rfl rfl rfl rfl hstop
    | some name =>
      exact h.stop (u := w.addHandle ⟨id, w.places.size⟩ name) hplaced hw he rfl rfl rfl rfl hstop
  | @within place hplace hconstant hproperty hnone =>
    refine h.within hplaced hw he hplace fun hdeclares => ?_
    have hkind := hnone hdeclares
    cases hk : e.kind schema with
    | other => rfl
    | constant => exact absurd hk hconstant
    | frameProperty => exact absurd hk hproperty
    | frame => rw [hk] at hkind; cases hkind
    | animation => rw [hk] at hkind; cases hkind
    | stateGroup => rw [hk] at hkind; cases hkind
  | @unnamed place kind hplace hkind hdeclares hname =>
    refine h.stop hplaced hw he rfl rfl rfl rfl fun _ => ⟨fun hother => ?_, ?_⟩
    · rw [hother] at hkind
      exact absurd hkind (Option.some_ne_none kind).symm
    · exact h.not_binds_of_unnamed hplaced hw hwalk he hplace hdeclares hname
  | declares hplace hkind hdeclares hname hd hre =>
    exact h.declares hplaced hw hwalk he hplace hkind hdeclares hname hd hre rfl

end Walk

/-- Binding a document that is not bound is a walk that keeps track. -/
theorem bind_tracks (h : ix.Sound) (schema : Schema) (hnew : ix.records.get? id = none)
    (hplaced : doc.Placed) :
    ∃ w : Walk, (Command.bind schema id doc).run ix = w.sealed id ∧
      w.Follows ix id w.places.size ∧ w.places.size = doc.size ∧ w.Tracks ix schema id doc := by
  obtain ⟨w, hwalk, hw, hsize, htracks⟩ := walkTo_spec h schema hnew doc
    (P := fun w => w.Tracks ix schema id doc)
    (fun _ _ => ⟨fun ha => absurd ha (Nat.not_lt_zero _), fun hp => (nomatch hp),
      fun ha => absurd ha (Nat.not_lt_zero _), fun hj => (nomatch hj)⟩)
    (fun hw hwalk he htracks hvisits => htracks.visits hplaced hw hwalk he hvisits)
    (Nat.le_refl doc.size)
  exact ⟨w, run_bind_of_added hnew (addDocument_of_walkTo hwalk), hw, hsize, htracks⟩

/-! ## Histories -/

/-- The entry that is found for an element of a bound document is that of its scope. -/
theorem firstBound?_ancestors (ix : Index) {r : Record} (hplaced : doc.Placed)
    (hroot : r.bindings.get? .root = none) {k : ElementId} {e : Element}
    (he : doc.get? k = some e) :
    ix.firstBound? r none (doc.ancestors k) = .ok (some (r.scopeOf doc k)) := by
  induction k using Nat.strong_induction_on generalizing e with
  | _ k ih =>
    by_cases hk : k = ElementId.root
    · subst hk
      rw [hplaced.ancestors_root, Record.scopeOf_root hplaced hroot]
      rfl
    · obtain ⟨p, f, -, -, hlt, hf, hancestors⟩ := hplaced.ancestors_eq he hk
      cases hj : r.bindings.get? k with
      | some j =>
        rw [Record.scopeOf_of_bound hj, hancestors, firstBound?, if_neg hk, hj]
        rfl
      | none =>
        rw [Record.scopeOf_of_unbound hj hancestors, hancestors, firstBound?, if_neg hk, hj]
        exact ih p hlt hf

/-- After every history and for every bound document that was read from a text: an element is bound
exactly if it is reached, declares, and has a name or was given one that was free when the walk came
to it. From then on, as long as the document is bound, the entry of a bound element has the name of
the element, and stands in the entry that is found for the parent of the element, which is that of
the nearest bound one above it or the file. -/
theorem placement_run (limit : Nat) (commands : List Command) (id : DocumentId) (r : Record)
    (b : Holding) (hr : (run limit commands).records.get? id = some r)
    (hb : (held commands).get? id = some b)
    (hread : ∃ name text schema rootType, b.doc = .parse name text schema rootType) :
    ∃ before after, Tenure limit commands id b r before after ∧
      (∀ k, k ∈ r.bindings.keys ↔ ∃ e, b.doc.get? k = some e ∧
        (run limit before).Binds b.schema id b.doc r k e) ∧
      ∀ mid, mid <+: after → ∀ k j, r.bindings.get? k = some j →
        ∃ e entry p, b.doc.get? k = some e ∧ b.doc.parent? k = some p ∧
          entry? (run limit (before ++ .bind b.schema id b.doc :: mid)) j = some entry ∧
          (∀ name, e.attributeValue? "name" = some name → entry.name = name) ∧
          (run limit (before ++ .bind b.schema id b.doc :: mid)).entryOfElement? id b.doc p none =
            .ok entry.parent ∧
          entry.parent = some (r.scopeOf b.doc p) := by
  obtain ⟨b', before, after, hb', htenure⟩ := exists_tenure limit commands id r hr
  rw [hb] at hb'
  cases hb'
  have hplaced : b.doc.Placed := by
    obtain ⟨name, text, schema, rootType, hdoc⟩ := hread
    rw [hdoc]
    exact Document.isPlaced_parse name text schema rootType
  -- The record is the one that the walk through the document has made.
  obtain ⟨w, hrun, hw, hsize, htracks⟩ := bind_tracks (sound_run limit before) b.schema
    htenure.unbound hplaced
  obtain ⟨hbegin, hrecord⟩ := htenure.run_bind hw hrun
  refine ⟨before, after, htenure, fun k => ?_, fun mid hmid k j hj => ?_⟩
  · -- A number that is not in the document is bound to nothing.
    by_cases hk : k < b.doc.size
    · rw [hrecord]
      exact htracks.bound (hsize ▸ hk)
    · refine iff_of_false (fun hmem => hk ?_) fun ⟨e, he, _⟩ => hk (Document.Placed.lt_size he)
      rw [hrecord] at hmem
      exact hsize ▸ hw.bindings k hmem
  · obtain ⟨e, f, p, he, hf, hname, hp, hlt, hparent⟩ := htracks.linked (hrecord ▸ hj)
    -- The entry keeps its place from the end of the walk on.
    have hj' : j ∈ r.ledger.map Prod.snd :=
      List.mem_map_of_mem (List.mem_cons_of_mem _ (OrderedMap.get?_eq_some_iff.1 hj))
    have hf' : entry? (run limit (before ++ [.bind b.schema id b.doc])) j = some f := by
      rw [hbegin]
      exact hf
    obtain ⟨entry, hentry, hlinks⟩ := htenure.exists_sameLinks hj' hf' hmid
    have hscope : entry.parent = some (r.scopeOf b.doc p) := by
      rw [hlinks.parent, hparent, hrecord]
    obtain ⟨g, hg⟩ : ∃ g, b.doc.get? p = some g :=
      ⟨_, Array.getElem?_eq_getElem (Nat.lt_trans hlt (Document.Placed.lt_size he))⟩
    refine ⟨e, entry, p, he, hp, hentry, fun own hown => ?_, ?_, hscope⟩
    · rw [hlinks.name]
      exact hname own hown
    · rw [entryOfElement?, htenure.bound mid hmid, hscope]
      exact firstBound?_ancestors _ hplaced (hrecord ▸ htracks.root_unbound) hg

/-- A document with a frame in which one frame has a name and another has none. -/
def nestedDocument : Document :=
  .parse "Main" "<Frame name=\"Box\"><Frame/><Frame name=\"Inner\"/></Frame>" frameSchema (some 0)

/-- The document is bound, and another one of the same name comes and goes. -/
def nestedCommands : List Command :=
  [.bind frameSchema 0 nestedDocument, .bind frameSchema 1 (buttonDocument "Main"), .unbind 1]

/-- All three frames are bound, in their places. -/
theorem placement_run_nested :
    ∃ r, (run 1 nestedCommands).records.get? 0 = some r ∧
      r.bindings.entries = [(1, 2), (2, 3), (3, 4)] ∧
      (held nestedCommands).get? 0 = some ⟨frameSchema, nestedDocument⟩ ∧
      ∃ before after, Tenure 1 nestedCommands 0 ⟨frameSchema, nestedDocument⟩ r before after ∧
        (∀ k, k ∈ r.bindings.keys ↔ ∃ e, nestedDocument.get? k = some e ∧
          (run 1 before).Binds frameSchema 0 nestedDocument r k e) ∧
        ∀ mid, mid <+: after → ∀ k j, r.bindings.get? k = some j →
          ∃ e entry p, nestedDocument.get? k = some e ∧ nestedDocument.parent? k = some p ∧
            entry? (run 1 (before ++ .bind frameSchema 0 nestedDocument :: mid)) j = some entry ∧
            (∀ name, e.attributeValue? "name" = some name → entry.name = name) ∧
            (run 1 (before ++ .bind frameSchema 0 nestedDocument :: mid)).entryOfElement? 0
              nestedDocument p none = .ok entry.parent ∧
            entry.parent = some (r.scopeOf nestedDocument p) := by
  have hrecord : ((run 1 nestedCommands).records.get? 0).map (·.bindings.entries) =
      some [(1, 2), (2, 3), (3, 4)] := by
    decide +kernel
  obtain ⟨r, hr, hentries⟩ := Option.map_eq_some_iff.1 hrecord
  have hheld : (held nestedCommands).get? 0 = some ⟨frameSchema, nestedDocument⟩ := rfl
  exact ⟨r, hr, hentries, hheld,
    placement_run 1 nestedCommands 0 r _ hr hheld ⟨_, _, _, _, rfl⟩⟩

end Index

end LayoutMarkup
