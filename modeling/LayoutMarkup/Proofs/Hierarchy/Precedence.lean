import LayoutMarkup.Proofs.Hierarchy.Cutting

/-!
# Precedence

The contributors of a node stand in the order in which they are collected, the highest precedence
first. What extends an entry should take precedence over it, and its template should come behind it.

As long as no entry leads back to itself, extensions do come first (`Gathers.extension_precedes`):
an extension that is collected later would have been met on the way to the entry. Templates are
another matter. An entry is collected where it is met first, and that need not be behind all entries
that name it as their template: `Gathers.origin` tells from where it was met. So a template may only
stand before an entry that names it if another entry before that one names it too, or if the
template itself extends a contributor (`expandLevel_ranked`). Both happen. In `expandLevel_shared`
a frame and its extension share a template, which then takes precedence over the frame.
-/

namespace LayoutMarkup

/-! ## Before and behind -/

/-- One element stands before another one in a set. -/
def OrderedSet.Precedes {α : Type} (s : OrderedSet α) (a b : α) : Prop :=
  [a, b].Sublist s.elements

instance {α : Type} [DecidableEq α] (s : OrderedSet α) (a b : α) : Decidable (s.Precedes a b) :=
  inferInstanceAs (Decidable ([a, b].Sublist s.elements))

namespace Hierarchy

section Pairs

variable {α : Type} {a b c : α} {l l' : List α}

/-- An element of a list stands before every element of what follows the list. -/
theorem pair_sublist_append (ha : a ∈ l) (hb : b ∈ l') : [a, b].Sublist (l ++ l') :=
  (List.singleton_sublist.2 ha).append (List.singleton_sublist.2 hb)

/-- Of two elements of a list one stands before the other. -/
theorem pair_sublist_total (ha : a ∈ l) (hb : b ∈ l) (hne : a ≠ b) :
    [a, b].Sublist l ∨ [b, a].Sublist l := by
  obtain ⟨front, back, rfl⟩ := List.append_of_mem ha
  rw [List.mem_append, List.mem_cons] at hb
  rcases hb with hfront | rfl | hback
  · exact Or.inr (pair_sublist_append hfront List.mem_cons_self)
  · exact absurd rfl hne
  · refine Or.inl (List.Sublist.trans ?_ (List.sublist_append_right front _))
    exact (List.singleton_sublist.2 hback).cons_cons a

/-- What stands before an element stands before what is behind it. -/
theorem pair_sublist_trans (hl : l.Nodup) (hab : [a, b].Sublist l) (hbc : [b, c].Sublist l) :
    [a, c].Sublist l := by
  induction l with
  | nil => exact absurd hab (by simp)
  | cons x l ih =>
    obtain ⟨hx, hl⟩ := List.nodup_cons.1 hl
    -- The first element of the list is not the one in the middle, for that one comes later.
    have hb : b ∈ l := by
      cases hab with
      | cons _ h => exact h.subset (by simp)
      | cons_cons _ h => exact List.singleton_sublist.1 h
    have hbc' : [b, c].Sublist l := by
      cases hbc with
      | cons _ h => exact h
      | cons_cons _ _ => exact absurd hb hx
    cases hab with
    | cons _ h => exact (ih hl h hbc').cons x
    | cons_cons _ _ => exact (List.singleton_sublist.2 (hbc'.subset (by simp))).cons_cons a

end Pairs

/-! ## The order of collecting -/

namespace Sources

variable {src : Sources} {visited : Set EntryId} {ids new : List EntryId}

/-- No entry that an entry reaches leads back to itself. -/
def Acyclic (src : Sources) (entry : EntryId) : Prop :=
  ∀ a, src.Reaches entry a → ¬ Relation.TransGen src.Leads a a

/-- What is reached from an entry that leads nowhere back to itself leads nowhere back either. -/
theorem Acyclic.of_leads {a b : EntryId} (h : src.Acyclic a) (hlead : src.Leads a b) :
    src.Acyclic b :=
  fun c hc => h c (Relation.ReflTransGen.head hlead hc)

/-- What an entry reaches does not lead to it. -/
theorem Acyclic.not_leads {a b : EntryId} (h : src.Acyclic a) (hreach : src.Reaches a b) :
    ¬ src.Leads b a :=
  fun hlead => h a Relation.ReflTransGen.refl (Relation.TransGen.tail' hreach hlead)

/-- An extension of a collected entry was met before, or it is collected before the entry. -/
theorem Gathers.extension_precedes (h : src.Gathers visited ids new)
    (hacyclic : ∀ id ∈ ids, src.Acyclic id) {d e : EntryId} (hd : d ∈ new)
    (he : e ∈ src.index.extensionsOf d) (hlive : src.index.entry? e ≠ none) :
    e ∈ visited ∨ [e, d].Sublist new := by
  induction h with
  | nil => exact absurd hd List.not_mem_nil
  | skip _ _ ih => exact ih (fun id hid => hacyclic id (List.mem_cons_of_mem _ hid)) hd
  | @collect visited id ids above below new _ _ habove _ _ iha ihb ihr =>
    have hid := hacyclic id List.mem_cons_self
    -- Whatever was met before a part that comes behind the entry is met before the whole, or it is
    -- collected before that part.
    have hmet : ∀ {part : List EntryId}, d ∈ part →
        (e ∈ insert id visited ∪ {x | x ∈ above}) →
        e ∈ visited ∨ [e, d].Sublist (above ++ id :: part) := by
      rintro part hpart ((rfl | hv) | ha)
      · exact Or.inr (((List.singleton_sublist.2 hpart).cons_cons e).trans
          (List.sublist_append_right above _))
      · exact Or.inl hv
      · exact Or.inr (pair_sublist_append ha (List.mem_cons_of_mem id hpart))
    have hwhole : (above ++ id :: below).Sublist (above ++ id :: (below ++ new)) :=
      ((List.sublist_append_left below new).cons_cons id).append_left above
    rw [List.mem_append, List.mem_cons, List.mem_append] at hd
    rcases hd with ha | rfl | hb | hr
    · rcases iha (fun j hj => hid.of_leads (Or.inl hj)) ha with (rfl | hv) | hsub
      · -- The entry would lead to its extension and back.
        obtain ⟨ext, hext, -, hreach⟩ := habove.reached d ha
        exact absurd (Or.inl he)
          (hid.not_leads (Relation.ReflTransGen.head (Or.inl hext) hreach))
      · exact Or.inl hv
      · exact Or.inr (hsub.trans (List.sublist_append_left above _))
    · rcases habove.met e he hlive with (rfl | hv) | ha
      · exact absurd (Or.inl he) (hid.not_leads Relation.ReflTransGen.refl)
      · exact Or.inl hv
      · exact Or.inr (pair_sublist_append ha List.mem_cons_self)
    · rcases ihb (fun j hj => hid.of_leads (Or.inr (Option.mem_toList.1 hj))) hb with hv | hsub
      · exact (hmet hb hv).imp_right fun hsub => hsub.trans hwhole
      · refine Or.inr (hsub.trans (List.Sublist.trans ?_ hwhole))
        exact (List.sublist_cons_self id below).trans (List.sublist_append_right above _)
    · rcases ihr (fun j hj => hacyclic j (List.mem_cons_of_mem id hj)) hr with (hv | hb) | hsub
      · exact hmet (List.mem_append_right below hr) hv
      · refine Or.inr (List.Sublist.trans (pair_sublist_append hb hr) ?_)
        exact (List.sublist_cons_self id _).trans (List.sublist_append_right above _)
      · refine Or.inr (hsub.trans ((List.sublist_append_right below new).trans ?_))
        exact (List.sublist_cons_self id _).trans (List.sublist_append_right above _)

/-- A collected entry is one of those that were to be collected, or it extends a collected entry, or
it is the template of an entry that is collected before it. -/
theorem Gathers.origin (h : src.Gathers visited ids new) {x : EntryId} (hx : x ∈ new) :
    x ∈ ids ∨ ∃ c ∈ new, x ∈ src.index.extensionsOf c ∨
      src.template? c = some x ∧ [c, x].Sublist new := by
  induction h with
  | nil => exact absurd hx List.not_mem_nil
  | skip _ _ ih => exact (ih hx).imp_left (List.mem_cons_of_mem _)
  | @collect visited id ids above below new _ _ _ _ _ iha ihb ihr =>
    have hid : id ∈ above ++ id :: (below ++ new) := List.mem_append_right _ List.mem_cons_self
    -- What is known in a part holds in the whole.
    have hpart : ∀ {part : List EntryId}, part.Sublist (above ++ id :: (below ++ new)) →
        (∃ c ∈ part, x ∈ src.index.extensionsOf c ∨
          src.template? c = some x ∧ [c, x].Sublist part) →
        ∃ c ∈ above ++ id :: (below ++ new), x ∈ src.index.extensionsOf c ∨
          src.template? c = some x ∧ [c, x].Sublist (above ++ id :: (below ++ new)) := by
      rintro part hsub ⟨c, hc, horigin⟩
      exact ⟨c, hsub.subset hc, horigin.imp_right (And.imp_right (·.trans hsub))⟩
    have hbehind : (below ++ new).Sublist (above ++ id :: (below ++ new)) :=
      (List.sublist_cons_self id _).trans (List.sublist_append_right above _)
    rw [List.mem_append, List.mem_cons, List.mem_append] at hx
    rcases hx with ha | rfl | hb | hr
    · -- It is found from the extensions of the entry,
      rcases iha ha with hext | hin
      · exact Or.inr ⟨id, hid, Or.inl hext⟩
      · exact Or.inr (hpart (List.sublist_append_left above _) hin)
    · exact Or.inl List.mem_cons_self
    · -- or from its template, which is searched after the entry itself,
      rcases ihb hb with htemplate | hin
      · refine Or.inr ⟨id, hid, Or.inr ⟨Option.mem_toList.1 htemplate, ?_⟩⟩
        exact ((List.singleton_sublist.2 (List.mem_append_left new hb)).cons_cons id).trans
          (List.sublist_append_right above _)
      · exact Or.inr (hpart ((List.sublist_append_left below new).trans hbehind) hin)
    · -- or from the entries behind it.
      rcases ihr hr with hmem | hin
      · exact Or.inl (List.mem_cons_of_mem id hmem)
      · exact Or.inr (hpart ((List.sublist_append_right below new).trans hbehind) hin)

/-! ## Ranked contributors -/

/-- Contributors stand in the order of their precedence. -/
structure Ranked (src : Sources) (s : OrderedSet EntryId) : Prop where
  /-- Every extension of a contributor is one, and stands before it. -/
  extension : ∀ d ∈ s, ∀ e ∈ src.index.extensionsOf d, s.Precedes e d
  /-- The template of a contributor stands behind it, unless it extends a contributor or is also the
  template of one that stands before. -/
  template : ∀ d ∈ s, ∀ x, src.template? d = some x →
    (∀ c ∈ s, x ∉ src.index.extensionsOf c) →
    (∀ c ∈ s, src.template? c = some x → ¬ s.Precedes c d) → s.Precedes d x

/-- The contributors that come with an entry are ranked if no entry on the way leads back to
itself. -/
theorem ranked_contributors (hs : src.index.Sound) {entry : EntryId}
    (hlive : src.index.entry? entry ≠ none) (hacyclic : src.Acyclic entry) :
    src.Ranked (src.contributors [entry]) := by
  have hgathers := src.gathers_contributors [entry]
  have hreached : ∀ d ∈ src.contributors [entry], src.Reaches entry d := by
    intro d hd
    obtain ⟨id, hid, -, hreach⟩ := (mem_contributors hs).1 hd
    rwa [List.mem_singleton.1 hid] at hreach
  have hmem : ∀ d ∈ src.contributors [entry], ∀ x, src.Leads d x →
      x ∈ src.contributors [entry] := fun d hd x hlead =>
    (mem_contributors hs).2 ⟨entry, List.mem_singleton.2 rfl, hlive, (hreached d hd).tail hlead⟩
  refine ⟨fun d hd e he => ?_, fun d hd x hx hnoext hfirst => ?_⟩
  · have hacyclic' : ∀ id ∈ [entry], src.Acyclic id := by
      intro id hid
      rwa [List.mem_singleton.1 hid]
    have hprecedes :=
      hgathers.extension_precedes hacyclic' hd he (entry?_of_leads hs (Or.inl he))
    exact hprecedes.resolve_left (Set.notMem_empty e)
  · have hxmem := hmem d hd x (Or.inr hx)
    have hne : d ≠ x := by
      rintro rfl
      exact hacyclic d (hreached d hd) (Relation.TransGen.single (Or.inr hx))
    refine (pair_sublist_total hd hxmem hne).resolve_right fun hbefore => ?_
    -- The template stands before the contributor, so it was met from another place.
    rcases hgathers.origin hxmem with hroot | ⟨c, hc, hext | ⟨htemplate, hcx⟩⟩
    · rw [List.mem_singleton.1 hroot] at hx
      exact hacyclic.not_leads (hreached d hd) (Or.inr hx)
    · exact hnoext c hc hext
    · exact hfirst c hc htemplate
        (pair_sublist_trans (src.contributors [entry]).nodup hcx hbefore)

/-- A new node for an entry that is there can be expanded by one level. It has all contributors then
that come with the entry. -/
theorem expandLevel_createRoot? (hs : src.index.Sound) {entry : EntryId}
    (hlive : src.index.entry? entry ≠ none) (t : Tree) :
    ∃ u root level n, src.createRoot? t entry = some (u, root) ∧
      src.expandLevel u root = .ok level ∧ level.node? root = some n ∧
      n.contributors = src.contributors [entry] := by
  obtain ⟨e, he⟩ := Option.ne_none_iff_exists'.1 hlive
  obtain ⟨u, root, hroot, h, hle, hbud⟩ := createRoot?_bud he t
  obtain ⟨level, hlevel, -, -, hopen⟩ := expandLevel_bud hs h hle hbud
  obtain ⟨n, hn, hface⟩ := hopen.exists_node
  exact ⟨u, root, level, n, hroot, hlevel, hn, congrArg Face.contributors hface⟩

/-- For every entry of an index that a history led to, a new node for it can be expanded by one
level. Its contributors are then all entries that it reaches, and they are ranked if none of these
leads back to itself. -/
theorem expandLevel_ranked (limit : Nat) (commands : List Index.Command) (src : Sources)
    (hindex : src.index = Index.run limit commands) (entry : EntryId)
    (hlive : src.index.entry? entry ≠ none) (hacyclic : src.Acyclic entry) (t : Tree) :
    ∃ u root level n, src.createRoot? t entry = some (u, root) ∧
      src.expandLevel u root = .ok level ∧ level.node? root = some n ∧
      (∀ d, d ∈ n.contributors ↔ src.Reaches entry d) ∧ src.Ranked n.contributors := by
  have hs : src.index.Sound := hindex ▸ Index.sound_run limit commands
  obtain ⟨u, root, level, n, hroot, hlevel, hn, hcontributors⟩ := expandLevel_createRoot? hs hlive t
  refine ⟨u, root, level, n, hroot, hlevel, hn, fun d => ?_, ?_⟩
  · rw [hcontributors, mem_contributors hs]
    simp [hlive]
  · rw [hcontributors]
    exact ranked_contributors hs hlive hacyclic

/-- No entry leads back to itself if every step leads to a lower rank. -/
theorem acyclic_of_rank {rank : EntryId → Nat}
    (h : ∀ a < src.index.slots.size, (∀ b ∈ src.index.extensionsOf a, rank b < rank a) ∧
      ∀ b ∈ src.template? a, rank b < rank a) (entry : EntryId) : src.Acyclic entry := by
  have hstep : ∀ {a b}, src.Leads a b → rank b < rank a := by
    intro a b hlead
    have hlt : a < src.index.slots.size := by
      by_contra hge
      have hnone : src.index.entry? a = none := by
        rw [Index.entry?, Array.getElem?_eq_none (Nat.not_lt.1 hge)]
        rfl
      exact not_leads_of_eq_none hnone hlead
    exact hlead.elim ((h a hlt).1 b) ((h a hlt).2 b)
  have hsteps : ∀ {a b}, Relation.TransGen src.Leads a b → rank b < rank a := by
    intro a b hpath
    induction hpath with
    | single hlead => exact hstep hlead
    | tail _ hlead ih => exact (hstep hlead).trans ih
  exact fun a _ hcycle => Nat.lt_irrefl _ (hsteps hcycle)

/-- A button and its extension name different templates. -/
def layered : Sources :=
  .ofTexts [("T", "<Frame name=\"X\" type=\"Label\"/>"), ("U", "<Frame name=\"Y\"/>"),
    ("B", "<Frame name=\"M\" type=\"Button\" template=\"T/X\"/>"),
    ("E", "<Frame name=\"M\" file=\"B\" template=\"U/Y\"/>")]

/-- The button is expanded. -/
theorem expandLevel_ranked_layered :
    layered.index.entry? 6 ≠ none ∧ layered.Acyclic 6 ∧
    ∃ u root level n, layered.createRoot? {} 6 = some (u, root) ∧
      layered.expandLevel u root = .ok level ∧ level.node? root = some n ∧
      (∀ d, d ∈ n.contributors ↔ layered.Reaches 6 d) ∧ layered.Ranked n.contributors := by
  -- The steps lead from the button to its extension, and from both to a template.
  let rank : EntryId → Nat := fun a => if a = 6 then 2 else if a = 8 then 1 else 0
  obtain ⟨hlive, hrank⟩ : layered.index.entry? 6 ≠ none ∧ ∀ a < layered.index.slots.size,
      (∀ b ∈ layered.index.extensionsOf a, rank b < rank a) ∧
      ∀ b ∈ layered.template? a, rank b < rank a := by
    decide +kernel
  have hacyclic : layered.Acyclic 6 := acyclic_of_rank hrank 6
  exact ⟨hlive, hacyclic, expandLevel_ranked 1 _ layered rfl 6 hlive hacyclic {}⟩

/-- A button and its extension name the same template, a label. -/
def shared : Sources :=
  .ofTexts [("T", "<Frame name=\"X\" type=\"Label\"/>"),
    ("B", "<Frame name=\"M\" type=\"Button\" template=\"T/X\"/>"),
    ("E", "<Frame name=\"M\" file=\"B\" template=\"T/X\"/>")]

/-- The template of the button is collected with the extension, so it stands before the button, and
the node is taken for a label. -/
theorem expandLevel_shared :
    shared.index.entry? 4 ≠ none ∧ shared.Acyclic 4 ∧
    ∃ u root level n, shared.createRoot? {} 4 = some (u, root) ∧
      shared.expandLevel u root = .ok level ∧ level.node? root = some n ∧
      n.contributors.elements = [6, 2, 4] ∧ shared.template? 4 = some 2 ∧
      ¬ n.contributors.Precedes 4 2 ∧
      shared.effectiveType? level root = .ok (some "Frame:Label") := by
  -- The extensions and the template of the frame lead to lower ranks, so nothing is cyclic here.
  let rank : EntryId → Nat := fun a => if a = 4 then 2 else if a = 6 then 1 else 0
  obtain ⟨hlive, hrank, hfound, htemplate, htype⟩ : shared.index.entry? 4 ≠ none ∧
      (∀ a < shared.index.slots.size, (∀ b ∈ shared.index.extensionsOf a, rank b < rank a) ∧
        ∀ b ∈ shared.template? a, rank b < rank a) ∧
      (shared.contributors [4]).elements = [6, 2, 4] ∧ shared.template? 4 = some 2 ∧
      ((shared.contributors [4]).elements.findSome? fun entry => do
        let e ← shared.firstElement? entry
        let type ← e.attributeValue? "type"
        let tag ← e.tag
        return s!"{tag}:{type}") = some "Frame:Label" := by
    decide +kernel
  obtain ⟨u, root, level, n, hroot, hlevel, hn, hcontributors⟩ :=
    expandLevel_createRoot? (Index.sound_run 1 _) hlive {}
  refine
    ⟨hlive, acyclic_of_rank hrank 4, u, root, level, n, hroot, hlevel, hn, ?_, htemplate, ?_, ?_⟩
  · rw [hcontributors, hfound]
  · rw [OrderedSet.Precedes, hcontributors, hfound]
    decide
  · rw [effectiveType?, Tree.node_eq hn, ok_bind, hcontributors, htype]
    rfl

end Sources

end Hierarchy

end LayoutMarkup
