import LayoutMarkup.Proofs.Index.Slots

/-!
# The tree of names

The entries of an index make a tree (`Entries.Rooted`): every entry but the root stands in its scope
under its name, and its path is that of the scope with the name behind. The tree is kept when the
declarations of an entry change (`Rooted.redeclare`), when a new name comes into a scope
(`Rooted.attach`) and when an entry without names in it goes (`Rooted.detach`). Every path of the
tree leads to its entry (`lookupNames?_path`).
-/

namespace LayoutMarkup.Entries

/-- The entries make a tree of names under the root: scopes and the names in them point at each
other, and the files are the names in the root. -/
structure Rooted (v : Entries) : Prop where
  /-- The root has its slot. -/
  root : ∃ e, v .root = some e ∧ e.kind = .root ∧ e.path = [] ∧ e.parent = none
  /-- A name in a scope leads to an entry that knows the scope and continues its path. -/
  child : ∀ {p s name id}, v p = some s → s.children.get? name = some id →
    ∃ e, v id = some e ∧ e.parent = some p ∧ e.path = s.path ++ [name]
  /-- Every entry but the root stands in its scope under its name. -/
  scope : ∀ {id e}, v id = some e → id ≠ .root →
    ∃ p s, e.parent = some p ∧ v p = some s ∧ s.children.get? e.name = some id
  /-- Names in the root are files, and other names are not; none stands for nothing. -/
  kind : ∀ {id e}, v id = some e → id ≠ .root →
    e.kind = .file ∧ e.parent = some .root ∨
      e.kind.isScope = false ∧ e.kind ≠ .undeclared ∧ e.parent ≠ some .root

/-- An entry with a scope is not the root. -/
theorem Rooted.ne_root {v : Entries} (hv : v.Rooted) {id p : EntryId} {e : Entry}
    (he : v id = some e) (hp : e.parent = some p) : id ≠ .root := by
  rintro rfl
  obtain ⟨r, hr, -, -, hnone⟩ := hv.root
  rw [he] at hr
  cases hr
  rw [hp] at hnone
  exact Option.some_ne_none p hnone

/-- The scope of an entry holds it under its name, and its path is that of the scope with the name
behind. -/
theorem Rooted.scope_of_parent {v : Entries} (hv : v.Rooted) {id p : EntryId} {e : Entry}
    (he : v id = some e) (hp : e.parent = some p) :
    ∃ s, v p = some s ∧ s.children.get? e.name = some id ∧ e.path = s.path ++ [e.name] := by
  obtain ⟨p', s, hp', hs, hc⟩ := hv.scope he (hv.ne_root he hp)
  rw [hp] at hp'
  cases hp'
  obtain ⟨e', he', -, hpath⟩ := hv.child hs hc
  rw [he] at he'
  cases he'
  exact ⟨s, hs, hc, hpath⟩

/-- No entry is its own scope. -/
theorem Rooted.parent_ne {v : Entries} (hv : v.Rooted) {id p : EntryId} {e : Entry}
    (he : v id = some e) (hp : e.parent = some p) : p ≠ id := by
  rintro rfl
  obtain ⟨s, hs, -, hpath⟩ := hv.scope_of_parent he hp
  rw [he] at hs
  cases hs
  exact absurd (congrArg List.length hpath) (by simp)

/-- No two entries have the same path. -/
theorem Rooted.id_eq_of_path_eq {v : Entries} (hv : v.Rooted) {id id' : EntryId} {e e' : Entry}
    (he : v id = some e) (he' : v id' = some e') (h : e.path = e'.path) : id = id' := by
  -- Only the root has the empty path.
  have hroot : ∀ {j f}, v j = some f → f.path = [] → j = .root := by
    intro j f hf hnil
    by_contra hj
    obtain ⟨p, s, hp, -⟩ := hv.scope hf hj
    obtain ⟨s, -, -, hpath⟩ := hv.scope_of_parent hf hp
    rw [hnil] at hpath
    exact absurd hpath (by simp)
  -- The induction is on the path from its end, that is from an entry to its scope.
  generalize hpath : e'.path = path at h
  induction path using List.reverseRecOn generalizing id id' e e' with
  | nil => rw [hroot he h, hroot he' hpath]
  | append_singleton path name ih =>
    -- An entry with a longer path stands in its scope under the last name.
    have hup : ∀ {j f}, v j = some f → f.path = path ++ [name] →
        ∃ p s, v p = some s ∧ s.children.get? name = some j ∧ s.path = path := by
      intro j f hf hj
      have hne : j ≠ .root := by
        rintro rfl
        obtain ⟨r, hr, -, hnil, -⟩ := hv.root
        rw [hf] at hr
        cases hr
        rw [hnil] at hj
        exact absurd hj (by simp)
      obtain ⟨p, s, hp, -⟩ := hv.scope hf hne
      obtain ⟨s, hs, hc, hcat⟩ := hv.scope_of_parent hf hp
      obtain ⟨hscope, hname⟩ := List.append_inj' (hj.symm.trans hcat) rfl
      rw [← List.singleton_inj.1 hname] at hc
      exact ⟨p, s, hs, hc, hscope.symm⟩
    obtain ⟨p, s, hs, hc, hps⟩ := hup he h
    obtain ⟨p', s', hs', hc', hps'⟩ := hup he' hpath
    have hp : p = p' := ih hs hs' hps' hps
    subst hp
    rw [hs] at hs'
    cases hs'
    rw [hc] at hc'
    exact Option.some.inj hc'

/-- What holds of the root, and goes on from a scope to the names in it, holds of every entry. -/
theorem Rooted.induction {v : Entries} (hv : v.Rooted) {P : EntryId → Entry → Prop}
    (root : ∀ {e}, v .root = some e → e.path = [] → P .root e)
    (name : ∀ {p s id e}, v p = some s → P p s → v id = some e → e.parent = some p →
      s.children.get? e.name = some id → e.path = s.path ++ [e.name] → P id e)
    {id : EntryId} {e : Entry} (he : v id = some e) : P id e := by
  -- The induction is on the length of the path: that of the scope is shorter by one.
  induction hlen : e.path.length using Nat.strongRecOn generalizing id e with
  | ind k ih =>
    by_cases hroot : id = .root
    · subst hroot
      obtain ⟨r, hr, -, hnil, -⟩ := hv.root
      rw [he] at hr
      cases hr
      exact root he hnil
    · obtain ⟨p, s, hp, -⟩ := hv.scope he hroot
      obtain ⟨s, hs, hget, hpath⟩ := hv.scope_of_parent he hp
      have hshorter : s.path.length < k := by
        rw [← hlen, hpath, List.length_append, List.length_singleton]
        exact Nat.lt_succ_self _
      exact name hs (ih _ hshorter hs rfl) he hp hget hpath

/-- Two entries that have the same place in the tree and stand for the same. -/
structure SameLinks (e e' : Entry) : Prop where
  /-- They stand for the same. -/
  kind : e'.kind = e.kind
  /-- They have the same path. -/
  path : e'.path = e.path
  /-- They have the same scope. -/
  parent : e'.parent = e.parent

/-- Entries with the same path have the same name. -/
theorem SameLinks.name {e e' : Entry} (h : SameLinks e e') : e'.name = e.name := by
  unfold Entry.name
  rw [h.path]

/-- An entry with other declarations has the same place. -/
theorem sameLinks_declarations (e : Entry) (declarations : OrderedSet Declaration) :
    SameLinks e { e with declarations } :=
  ⟨rfl, rfl, rfl⟩

/-- An entry with other names in it has the same place. -/
theorem sameLinks_children (e : Entry) (children : OrderedMap String EntryId) :
    SameLinks e { e with children } :=
  ⟨rfl, rfl, rfl⟩

/-- Entries that keep their places, and whose scopes lose only the names of entries that go, are
still a tree. -/
theorem Rooted.restrict {v v' : Entries} (hv : v.Rooted) (hroot : v' .root ≠ none)
    (hback : ∀ {j f'}, v' j = some f' → ∃ f, v j = some f ∧ SameLinks f f')
    (hdown : ∀ {p s s' x c}, v p = some s → v' p = some s' → s'.children.get? x = some c →
      s.children.get? x = some c ∧ v' c ≠ none)
    (hup : ∀ {j f' p s x}, v' j = some f' → v p = some s → s.children.get? x = some j →
      ∃ s', v' p = some s' ∧ s'.children.get? x = some j) : v'.Rooted := by
  refine ⟨?_, fun {p s' x c} hs' hc' => ?_, fun {j f'} hf' hj => ?_, fun {j f'} hf' hj => ?_⟩
  · obtain ⟨r', hr'⟩ := Option.ne_none_iff_exists'.1 hroot
    obtain ⟨r, hr, hl⟩ := hback hr'
    obtain ⟨r₀, hr₀, hk, hpath, hparent⟩ := hv.root
    rw [hr] at hr₀
    cases hr₀
    exact ⟨r', hr', hl.kind.trans hk, hl.path.trans hpath, hl.parent.trans hparent⟩
  · obtain ⟨s, hs, hl⟩ := hback hs'
    obtain ⟨hc, hlive⟩ := hdown hs hs' hc'
    obtain ⟨f', hf'⟩ := Option.ne_none_iff_exists'.1 hlive
    obtain ⟨f, hf, hlf⟩ := hback hf'
    obtain ⟨f₀, hf₀, hp, hpath⟩ := hv.child hs hc
    rw [hf] at hf₀
    cases hf₀
    exact ⟨f', hf', hlf.parent.trans hp, by rw [hlf.path, hpath, hl.path]⟩
  · -- An entry still stands in its scope under its name.
    obtain ⟨f, hf, hl⟩ := hback hf'
    obtain ⟨p, s, hp, hs, hc⟩ := hv.scope hf hj
    obtain ⟨s', hs', hc'⟩ := hup hf' hs hc
    exact ⟨p, s', hl.parent.trans hp, hs', by rw [hl.name, hc']⟩
  · obtain ⟨f, hf, hl⟩ := hback hf'
    rw [hl.kind, hl.parent]
    exact hv.kind hf hj

section redeclare

variable {v : Entries} {id j : EntryId} {e : Entry} {declarations : OrderedSet Declaration}

/-- Every entry keeps its place and its names when one is declared by others. -/
theorem exists_redeclare (he : v id = some e) {f : Entry} (hf : v j = some f) :
    ∃ f', Function.update v id (some { e with declarations }) j = some f' ∧ SameLinks f f' ∧
      f'.children = f.children := by
  by_cases hj : j = id
  · obtain rfl := hj
    obtain rfl := Option.some_inj.1 (he.symm.trans hf)
    exact ⟨_, Function.update_self .., sameLinks_declarations .., rfl⟩
  · exact ⟨f, by rw [Function.update_of_ne hj, hf], ⟨rfl, rfl, rfl⟩, rfl⟩

/-- What is there afterwards was there before, and only the entry itself is declared by others. -/
theorem redeclare_cases (he : v id = some e) {f' : Entry}
    (hf' : Function.update v id (some { e with declarations }) j = some f') :
    ∃ f, v j = some f ∧ SameLinks f f' ∧
      (j ≠ id ∧ f'.declarations = f.declarations ∨
        j = id ∧ f = e ∧ f'.declarations = declarations) := by
  by_cases hj : j = id
  · obtain rfl := hj
    rw [Function.update_self] at hf'
    obtain rfl := Option.some.inj hf'
    exact ⟨e, he, sameLinks_declarations .., Or.inr ⟨rfl, rfl, rfl⟩⟩
  · rw [Function.update_of_ne hj] at hf'
    exact ⟨f', hf', ⟨rfl, rfl, rfl⟩, Or.inl ⟨hj, rfl⟩⟩

/-- What an entry is declared by does not matter for the tree. -/
theorem Rooted.redeclare (hv : v.Rooted) (he : v id = some e)
    (declarations : OrderedSet Declaration) :
    Rooted (Function.update v id (some { e with declarations })) := by
  -- No entry goes away, so the new tree is the old one restricted to all of it.
  refine hv.restrict ?_ (fun {j f'} hf' => ?_) (fun {p s s' x c} hs hs' hc => ?_)
    (fun {j f' p s x} _ hs hc => ?_)
  · obtain ⟨r, hr, -⟩ := hv.root
    obtain ⟨r', hr', -⟩ := exists_redeclare he hr
    rw [hr']
    exact Option.some_ne_none r'
  · obtain ⟨f, hf, hlinks, -⟩ := redeclare_cases he hf'
    exact ⟨f, hf, hlinks⟩
  · obtain ⟨s₀, hs₀, -, hch⟩ := exists_redeclare he hs
    obtain rfl := Option.some_inj.1 (hs'.symm.trans hs₀)
    rw [hch] at hc
    obtain ⟨f, hf, -⟩ := hv.child hs hc
    obtain ⟨f', hf', -⟩ := exists_redeclare he hf
    exact ⟨hc, by rw [hf']; exact Option.some_ne_none f'⟩
  · obtain ⟨s', hs', -, hch⟩ := exists_redeclare he hs
    exact ⟨s', hs', by rw [hch, hc]⟩

end redeclare

/-- What is in the other slots after a detachment. -/
theorem detach_of_ne {v : Entries} {id j : EntryId} {e : Entry} (hj : j ≠ id) :
    v.detach id e j = if e.parent = some j then
      (v j).map fun s => { s with children := s.children.erase e.name } else v j :=
  Function.update_of_ne hj ..

/-- An entry that stays after a detachment keeps its place and its declarations, and loses at most
the name of the entry that goes. -/
theorem detach_eq_some {v : Entries} {id j : EntryId} {e f' : Entry}
    (h : v.detach id e j = some f') : j ≠ id ∧ ∃ f, v j = some f ∧ SameLinks f f' ∧
      f'.declarations = f.declarations ∧
      f'.children = if e.parent = some j then f.children.erase e.name else f.children := by
  have hj : j ≠ id := by
    rintro rfl
    rw [detach, Function.update_self] at h
    exact Option.some_ne_none f' h.symm
  refine ⟨hj, ?_⟩
  rw [detach_of_ne hj] at h
  by_cases hp : e.parent = some j
  · rw [if_pos hp] at h
    obtain ⟨f, hf, rfl⟩ := Option.map_eq_some_iff.1 h
    exact ⟨f, hf, sameLinks_children .., rfl, by rw [if_pos hp]⟩
  · rw [if_neg hp] at h
    exact ⟨f', h, ⟨rfl, rfl, rfl⟩, rfl, by rw [if_neg hp]⟩

/-- Every other entry stays after a detachment. -/
theorem exists_detach {v : Entries} {id j : EntryId} {f : Entry} (e : Entry) (hj : j ≠ id)
    (hf : v j = some f) : ∃ f', v.detach id e j = some f' := by
  rw [detach_of_ne hj, hf]
  split <;> exact ⟨_, rfl⟩

/-- An entry stands only in its scope, under its name. -/
theorem Rooted.eq_of_get?_children {v : Entries} (hv : v.Rooted) {id p q : EntryId} {e t : Entry}
    {x : String} (he : v id = some e) (hp : e.parent = some p) (ht : v q = some t)
    (hx : t.children.get? x = some id) : q = p ∧ x = e.name := by
  obtain ⟨s, hs, -, hpath⟩ := hv.scope_of_parent he hp
  obtain ⟨e', he', hq, hpath'⟩ := hv.child ht hx
  obtain rfl : e = e' := Option.some_inj.1 (he.symm.trans he')
  obtain rfl : p = q := Option.some_inj.1 (hp.symm.trans hq)
  obtain rfl : s = t := Option.some_inj.1 (hs.symm.trans ht)
  exact ⟨rfl, (List.singleton_inj.1 (List.append_cancel_left (hpath.symm.trans hpath'))).symm⟩

/-- After an entry went, an entry has the names in it that it had, but that of the other one. -/
theorem Rooted.get?_children_detach {v : Entries} (hv : v.Rooted) {id p q : EntryId}
    {e t t' : Entry} (he : v id = some e) (hp : e.parent = some p) (ht : v q = some t)
    (ht' : v.detach id e q = some t') {x : String} {c : EntryId} :
    t'.children.get? x = some c ↔ t.children.get? x = some c ∧ c ≠ id := by
  obtain ⟨-, t₀, ht₀, -, -, hch⟩ := detach_eq_some ht'
  obtain rfl : t = t₀ := Option.some_inj.1 (ht.symm.trans ht₀)
  have honly : t.children.get? x = some id → q = p ∧ x = e.name :=
    hv.eq_of_get?_children he hp ht
  rw [hch]
  by_cases hq : e.parent = some q
  · obtain rfl : p = q := Option.some_inj.1 (hp.symm.trans hq)
    rw [if_pos hp, OrderedMap.get?_erase]
    by_cases hx : x = e.name
    · -- The name of the entry in its scope is the name that went.
      obtain ⟨s, hs, hname, -⟩ := hv.scope_of_parent he hp
      obtain rfl : t = s := Option.some_inj.1 (ht.symm.trans hs)
      rw [if_pos hx, hx, hname]
      exact ⟨fun h => absurd h (Option.some_ne_none c).symm,
        fun ⟨hc, hne⟩ => absurd (Option.some_inj.1 hc).symm hne⟩
    · rw [if_neg hx]
      exact ⟨fun hc => ⟨hc, fun hcid => hx (honly (hcid ▸ hc)).2⟩, And.left⟩
  · rw [if_neg hq]
    exact ⟨fun hc => ⟨hc, fun hcid => hq ((honly (hcid ▸ hc)).1 ▸ hp)⟩, And.left⟩

/-- An entry without names in it may be taken out of the tree. -/
theorem Rooted.detach {v : Entries} (hv : v.Rooted) {id p : EntryId} {e : Entry}
    (he : v id = some e) (hp : e.parent = some p) (hleaf : e.children.isEmpty = true) :
    Rooted (v.detach id e) := by
  refine hv.restrict ?_ (fun {j f'} hf' => ?_) (fun {q t t' x c} ht ht' hc => ?_)
    (fun {j f' q t x} hf' ht hx => ?_)
  · obtain ⟨r, hr, -⟩ := hv.root
    obtain ⟨r', hr'⟩ := exists_detach e (hv.ne_root he hp).symm hr
    rw [hr']
    exact Option.some_ne_none r'
  · obtain ⟨-, f, hf, hl, -⟩ := detach_eq_some hf'
    exact ⟨f, hf, hl⟩
  · obtain ⟨hold, hne⟩ := (hv.get?_children_detach he hp ht ht').1 hc
    obtain ⟨f, hf, -⟩ := hv.child ht hold
    obtain ⟨f', hf'⟩ := exists_detach e hne hf
    exact ⟨hold, by rw [hf']; exact Option.some_ne_none f'⟩
  · -- What stays stands in an entry that stays, as there is nothing in the one that goes.
    have hq : q ≠ id := by
      rintro rfl
      obtain rfl : e = t := Option.some_inj.1 (he.symm.trans ht)
      rw [OrderedMap.isEmpty_eq_true_iff.1 hleaf] at hx
      exact absurd hx (Option.some_ne_none j).symm
    obtain ⟨t', ht'⟩ := exists_detach e hq ht
    have hj : j ≠ id := (detach_eq_some hf').1
    exact ⟨t', ht', (hv.get?_children_detach he hp ht ht').2 ⟨hx, hj⟩⟩

/-- The entry of a new name in a scope. -/
def newcomer (s : Entry) (scope : EntryId) (name : String) (kind : EntryKind)
    (declarations : OrderedSet Declaration) : Entry :=
  { kind, path := s.path ++ [name], parent := some scope, declarations }

/-- The entry of a new name knows its scope. -/
theorem parent_newcomer (s : Entry) (scope : EntryId) (name : String) (kind : EntryKind)
    (declarations : OrderedSet Declaration) :
    (newcomer s scope name kind declarations).parent = some scope := rfl

/-- The entry of a new name has that name. -/
theorem name_newcomer (s : Entry) (scope : EntryId) (name : String) (kind : EntryKind)
    (declarations : OrderedSet Declaration) :
    (newcomer s scope name kind declarations).name = name := by
  simp [newcomer, Entry.name]

section attach

variable {v : Entries} {scope id : EntryId} {s : Entry} {name : String}

/-- What was there when a new name is put into a scope keeps its place and its names. -/
theorem exists_attach (hs : v scope = some s) (hnew : s.children.get? name = none)
    (hid : v id = none) (n : Entry) {j : EntryId} {f : Entry} (hf : v j = some f) :
    ∃ f', Function.update
        (Function.update v scope (some { s with children := s.children.insert name id })) id
        (some n) j = some f' ∧ SameLinks f f' ∧
      ∀ {x c}, f.children.get? x = some c → f'.children.get? x = some c := by
  have hj : j ≠ id := by
    rintro rfl
    rw [hid] at hf
    exact Option.some_ne_none f hf.symm
  rw [Function.update_of_ne hj]
  by_cases hjs : j = scope
  · obtain rfl := hjs
    obtain rfl := Option.some_inj.1 (hs.symm.trans hf)
    refine ⟨_, Function.update_self .., sameLinks_children .., fun {x c} hx => ?_⟩
    have hxn : x ≠ name := by
      rintro rfl
      rw [hnew] at hx
      exact Option.some_ne_none c hx.symm
    rw [OrderedMap.get?_insert, if_neg hxn, hx]
  · exact ⟨f, by rw [Function.update_of_ne hjs, hf], ⟨rfl, rfl, rfl⟩, fun h => h⟩

/-- What is there afterwards is the new entry, or it was there with the same declarations and, but
for the new one, the same names. -/
theorem attach_cases (hs : v scope = some s) {n : Entry} {j : EntryId} {f' : Entry}
    (hf' : Function.update
      (Function.update v scope (some { s with children := s.children.insert name id })) id
      (some n) j = some f') :
    j = id ∧ f' = n ∨ j ≠ id ∧ ∃ f, v j = some f ∧ SameLinks f f' ∧
      f'.declarations = f.declarations ∧
      ∀ {x c}, f'.children.get? x = some c → f.children.get? x = some c ∨
        j = scope ∧ x = name ∧ c = id := by
  by_cases hj : j = id
  · obtain rfl := hj
    rw [Function.update_self] at hf'
    exact Or.inl ⟨rfl, (Option.some.inj hf').symm⟩
  · rw [Function.update_of_ne hj] at hf'
    refine Or.inr ⟨hj, ?_⟩
    by_cases hjs : j = scope
    · obtain rfl := hjs
      rw [Function.update_self] at hf'
      obtain rfl := Option.some.inj hf'
      refine ⟨s, hs, sameLinks_children .., rfl, fun {x c} hx => ?_⟩
      rw [OrderedMap.get?_insert] at hx
      split at hx
      next hxn => exact Or.inr ⟨rfl, hxn, (Option.some.inj hx).symm⟩
      next => exact Or.inl hx
    · rw [Function.update_of_ne hjs] at hf'
      exact ⟨f', hf', ⟨rfl, rfl, rfl⟩, rfl, Or.inl⟩

/-- A scope with a new name in it, and the entry of that name, keep the tree. -/
theorem Rooted.attach (hv : v.Rooted) {kind : EntryKind} (hs : v scope = some s)
    (hnew : s.children.get? name = none) (hid : v id = none)
    (hkind : scope = .root ∧ kind = .file ∨
      scope ≠ .root ∧ kind.isScope = false ∧ kind ≠ .undeclared)
    (declarations : OrderedSet Declaration) :
    Rooted (Function.update
      (Function.update v scope (some { s with children := s.children.insert name id })) id
      (some (newcomer s scope name kind declarations))) := by
  set n : Entry := newcomer s scope name kind declarations with hn
  set s₁ : Entry := { s with children := s.children.insert name id } with hs₁
  set v' : Entries := Function.update (Function.update v scope (some s₁)) id (some n) with hv'
  have hself : v' id = some n := Function.update_self ..
  have hkeep : ∀ {j f}, v j = some f → ∃ f', v' j = some f' ∧ SameLinks f f' ∧
      ∀ {x c}, f.children.get? x = some c → f'.children.get? x = some c :=
    exists_attach hs hnew hid n
  -- Each condition is asked of the new entry, or of one that was there.
  refine ⟨?_, fun {p s' x c} hs' hc => ?_, fun {j f'} hf' hj => ?_, fun {j f'} hf' hj => ?_⟩
  · obtain ⟨r, hr, hk, hpath, hparent⟩ := hv.root
    obtain ⟨r', hr', hl, -⟩ := hkeep hr
    exact ⟨r', hr', hl.kind.trans hk, hl.path.trans hpath, hl.parent.trans hparent⟩
  · rcases attach_cases hs hs' with ⟨-, rfl⟩ | ⟨-, s₀, hs₀, hl, -, hch⟩
    · -- There are no names in the new entry.
      exact absurd hc (Option.some_ne_none c).symm
    · rcases hch hc with hc | ⟨rfl, rfl, rfl⟩
      · obtain ⟨f, hf, hp, hpath⟩ := hv.child hs₀ hc
        obtain ⟨f', hf', hl', -⟩ := hkeep hf
        exact ⟨f', hf', hl'.parent.trans hp, by rw [hl'.path, hpath, hl.path]⟩
      · obtain rfl := Option.some_inj.1 (hs.symm.trans hs₀)
        exact ⟨n, hself, rfl, by rw [hl.path]; rfl⟩
  · rcases attach_cases hs hf' with ⟨rfl, rfl⟩ | ⟨-, f, hf, hl, -⟩
    · have hid' : v scope ≠ v j := by rw [hs, hid]; exact Option.some_ne_none s
      have hscope : v' scope = some s₁ := by
        rw [hv', Function.update_of_ne fun h => hid' (congrArg v h), Function.update_self]
      refine ⟨scope, s₁, rfl, hscope, ?_⟩
      rw [hn, name_newcomer, hs₁, OrderedMap.get?_insert, if_pos rfl]
    · obtain ⟨p, s₀, hp, hs₀, hc⟩ := hv.scope hf hj
      obtain ⟨s', hs', -, hch⟩ := hkeep hs₀
      exact ⟨p, s', hl.parent.trans hp, hs', by rw [hl.name]; exact hch hc⟩
  · rcases attach_cases hs hf' with ⟨rfl, rfl⟩ | ⟨-, f, hf, hl, -⟩
    · rcases hkind with ⟨rfl, hk⟩ | ⟨hs', hk, hk'⟩
      · exact Or.inl ⟨hk, rfl⟩
      · exact Or.inr ⟨hk, hk', fun h => hs' (Option.some.inj h)⟩
    · rw [hl.kind, hl.parent]
      exact hv.kind hf hj

end attach

end LayoutMarkup.Entries

namespace LayoutMarkup.Index

/-- Names are looked up one after another. -/
theorem lookupNames?_append (ix : Index) (scope : EntryId) (names names' : List String) :
    ix.lookupNames? scope (names ++ names') =
      (ix.lookupNames? scope names).bind (ix.lookupNames? · names') :=
  List.foldlM_append

/-- The path of an entry leads to it. -/
theorem lookupNames?_path {ix : Index} (h : Entries.Rooted ix.entry?) {id : EntryId} {e : Entry}
    (he : ix.entry? id = some e) : ix.lookupNames? .root e.path = some id := by
  refine h.induction (P := fun id e => ix.lookupNames? .root e.path = some id)
    (fun {e} _ hnil => ?_) (fun {p s id e} hs hscope _ _ hget hpath => ?_) he
  · rw [hnil]
    rfl
  · rw [hpath, lookupNames?_append, hscope, Option.bind_some]
    show (ix.child? p e.name).bind _ = _
    rw [child?, hs, Option.bind_some, hget]
    rfl

end LayoutMarkup.Index
