import LayoutMarkup.Proofs.OrderedMap
import LayoutMarkup.Schema.Assembly

/-!
# Numbers in a schema

Types and definitions refer to each other by number. The steps that assemble a schema answer with
the numbers that they give, and when each step refers only to numbers that were answered before
(`Schema.Issued`), the numbers in the tables are those of types and definitions that are there, and
the table of names goes with that of types (`Schema.Ranged`). Numbers are given one after another
and none is taken back, so what was answered are the numbers in range (`Schema.Numbered`). One step
keeps both (`Schema.Ranged.apply`), hence so do all of them (`Schema.ranged_assemble`).
-/

namespace LayoutMarkup

/-- The types that a definition may give to an element. -/
def ElementDef.types (d : ElementDef) : List TypeId :=
  d.type :: (d.alternatives.map OrderedMap.values).getD []

namespace Schema

/-! ## What steps refer to -/

/-- The types that a step refers to. -/
def Step.types : Step → List TypeId
  | declareType _ | declareFrameType _ => []
  | declareAttribute type _ | indeterminate type _ _ | extraAttributes type | extraChildren type
  | shareChild type _ => [type]
  | child parent d => parent :: d.types

/-- The definitions that a step refers to. -/
def Step.definitions : Step → List DefinitionId
  | shareChild _ id => [id]
  | _ => []

/-- A step refers only to numbers that were answered. -/
def Step.Follows (step : Step) (given : List Outcome) : Prop :=
  (∀ id ∈ step.types, .type id ∈ given) ∧ ∀ id ∈ step.definitions, .definition id ∈ given

instance (step : Step) (given : List Outcome) : Decidable (step.Follows given) :=
  inferInstanceAs (Decidable (_ ∧ _))

/-- Each step refers only to numbers that were answered before it. -/
def IssuedFrom (s : Schema) (given : List Outcome) : List Step → Prop
  | [] => True
  | step :: steps =>
    step.Follows given ∧ IssuedFrom (s.apply step).1 (given ++ [(s.apply step).2]) steps

/-- Whether numbers are used in order can be found out. -/
def decidableIssuedFrom (s : Schema) (given : List Outcome) :
    (steps : List Step) → Decidable (s.IssuedFrom given steps)
  | [] => .isTrue trivial
  | step :: steps =>
    have := (s.apply step).1.decidableIssuedFrom (given ++ [(s.apply step).2]) steps
    inferInstanceAs (Decidable (_ ∧ _))

/-- The steps that assemble a schema refer only to numbers that were answered before. -/
def Issued (steps : List Step) : Prop :=
  IssuedFrom {} [] steps

instance (steps : List Step) : Decidable (Issued steps) :=
  decidableIssuedFrom {} [] steps

/-! ## Tables -/

/-- The numbers in the tables of a schema are those of what is there, and each type is found by its
name. -/
structure Ranged (s : Schema) : Prop where
  /-- A name stands for the type that has it, and for none if there is no such type. -/
  name : ∀ {name id}, s.typeId? name = some id ↔ ∃ t, s.type? id = some t ∧ t.name = name
  /-- The definitions that a type expects are there. -/
  child : ∀ {id t}, s.type? id = some t → ∀ d ∈ t.children.values, d < s.definitions.size
  /-- The types that a definition may give are there. -/
  type : ∀ {id d}, s.definition? id = some d → ∀ t ∈ d.types, t < s.types.size

/-- The numbers that were answered are those in range. -/
structure Numbered (s : Schema) (given : List Outcome) : Prop where
  /-- Those of types. -/
  type : ∀ id, .type id ∈ given ↔ id < s.types.size
  /-- Those of definitions. -/
  definition : ∀ id, .definition id ∈ given ↔ id < s.definitions.size

variable {s : Schema} {given : List Outcome} {id : TypeId} {f : ComplexType → ComplexType}

/-- The types after one was changed. -/
theorem type?_adjustType (s : Schema) (id j : TypeId) (f : ComplexType → ComplexType) :
    (s.adjustType id f).type? j = if id = j then (s.type? j).map f else s.type? j :=
  Array.getElem?_modify

/-- The types after one was declared. -/
theorem type?_withType (s : Schema) (name : String) (id : TypeId) :
    (s.withType name).type? id = if id = s.types.size then some { name } else s.type? id :=
  Array.getElem?_push

/-- The names after a type was declared. -/
theorem typeId?_withType (s : Schema) (name other : String) :
    (s.withType name).typeId? other =
      if other = name then some s.types.size else s.typeId? other :=
  OrderedMap.get?_insert ..

/-- A change of a type leaves the number of types. -/
theorem size_adjustType (s : Schema) (id : TypeId) (f : ComplexType → ComplexType) :
    (s.adjustType id f).types.size = s.types.size :=
  Array.size_modify

/-- A number with a type is in range. -/
theorem lt_of_type? {t : ComplexType} (h : s.type? id = some t) : id < s.types.size :=
  (Array.getElem?_eq_some_iff.1 h).1

/-- No two types have one name. -/
theorem Ranged.eq_of_name_eq (h : s.Ranged) {i j : TypeId} {t u : ComplexType}
    (ht : s.type? i = some t) (hu : s.type? j = some u) (hname : t.name = u.name) : i = j := by
  have hi : s.typeId? u.name = some i := h.name.2 ⟨t, ht, hname⟩
  have hj : s.typeId? u.name = some j := h.name.2 ⟨u, hu, rfl⟩
  exact Option.some_inj.1 (hi.symm.trans hj)

/-- A name stands for a number in range. -/
theorem Ranged.lt_of_typeId? (h : s.Ranged) {name : String} (hid : s.typeId? name = some id) :
    id < s.types.size := by
  obtain ⟨t, ht, -⟩ := h.name.1 hid
  exact lt_of_type? ht

/-- Changing the tables of a type keeps the numbers in range, if those that come in are. -/
theorem Ranged.adjustType (h : s.Ranged) (id : TypeId) (hname : ∀ t, (f t).name = t.name)
    (hchild : ∀ {t}, s.type? id = some t → ∀ d ∈ (f t).children.values, d < s.definitions.size) :
    (s.adjustType id f).Ranged := by
  have hnames : ∀ {j name}, ((s.adjustType id f).type? j).map ComplexType.name = some name ↔
      (s.type? j).map ComplexType.name = some name := by
    intro j name
    rw [type?_adjustType]
    split
    next => rw [Option.map_map, show ComplexType.name ∘ f = ComplexType.name from funext hname]
    next => exact Iff.rfl
  refine ⟨?_, fun {j t} ht => ?_, fun hd t ht => ?_⟩
  · intro name j
    rw [← Option.map_eq_some_iff, hnames, Option.map_eq_some_iff]
    exact h.name
  · -- The tables of a type are those of before, or made from them.
    rw [type?_adjustType] at ht
    split at ht
    next heq =>
      subst heq
      obtain ⟨u, hu, rfl⟩ := Option.map_eq_some_iff.1 ht
      exact hchild hu
    next => exact h.child ht
  · rw [size_adjustType]
    exact h.type hd t ht

/-- Changing what a type says of attributes keeps the numbers in range. -/
theorem Ranged.aside (h : s.Ranged) (id : TypeId)
    (hf : ∀ t, (f t).name = t.name ∧ (f t).children = t.children) : (s.adjustType id f).Ranged :=
  h.adjustType id (fun t => (hf t).1) fun {t} ht => by
    rw [(hf t).2]
    exact h.child ht

/-- Expecting a definition that is there keeps the numbers in range. -/
theorem Ranged.expectChild (h : s.Ranged) (parent : TypeId) (tag : String) {id : DefinitionId}
    (hid : id < s.definitions.size) : (s.expectChild parent tag id).Ranged := by
  refine h.adjustType parent (fun _ => rfl) fun ht d hd => ?_
  rcases OrderedMap.mem_values_insert hd with rfl | hd
  · exact hid
  · exact h.child ht d hd

/-- Defining an element whose types are there keeps the numbers in range. -/
theorem Ranged.define (h : s.Ranged) {d : ElementDef} (hd : ∀ t ∈ d.types, t < s.types.size) :
    { s with definitions := s.definitions.push d }.Ranged := by
  refine ⟨h.name, fun ht c hc => ?_, fun hget => ?_⟩
  · rw [Array.size_push]
    exact Nat.lt_succ_of_lt (h.child ht c hc)
  · -- A definition is one of before, or the new one.
    rcases Array.mem_push.1 (Array.mem_of_getElem? hget) with hmem | rfl
    · obtain ⟨i, hi⟩ := Array.mem_iff_getElem?.1 hmem
      exact h.type hi
    · exact hd

/-- Declaring a type of a new name keeps the numbers in range. -/
theorem Ranged.withType (h : s.Ranged) {name : String} (hnew : s.typeId? name = none) :
    (s.withType name).Ranged := by
  refine ⟨?_, fun {id t} ht c hc => ?_, fun hd t ht => ?_⟩
  · intro other id
    rw [typeId?_withType, type?_withType]
    by_cases hsize : id = s.types.size
    · -- No name stood for the new number before.
      have hnone : s.typeId? other ≠ some id := fun hid =>
        absurd (h.lt_of_typeId? hid) (hsize ▸ Nat.lt_irrefl _)
      rw [if_pos hsize]
      split
      next heq => exact iff_of_true (hsize ▸ rfl) ⟨_, rfl, heq.symm⟩
      next hne =>
        refine iff_of_false hnone ?_
        rintro ⟨t, ht, hname⟩
        obtain rfl := Option.some_inj.1 ht
        exact hne hname.symm
    · -- No type of before has the new name.
      have hother : ¬ ∃ t, s.type? id = some t ∧ t.name = name := fun ht =>
        absurd (hnew.symm.trans (h.name.2 ht)) (Option.some_ne_none _).symm
      rw [if_neg hsize]
      split
      next heq =>
        subst heq
        exact iff_of_false (fun hid => hsize (Option.some_inj.1 hid).symm) hother
      next => exact h.name
  · rw [type?_withType] at ht
    split at ht
    next =>
      obtain rfl := Option.some_inj.1 ht
      exact absurd hc List.not_mem_nil
    next => exact h.child ht c hc
  · show t < (s.types.push _).size
    rw [Array.size_push]
    exact Nat.lt_succ_of_lt (h.type hd t ht)

/-- The next answer gives one number more, or none. -/
theorem Numbered.concat (h : s.Numbered given) {s' : Schema} {outcome : Outcome}
    (htype : ∀ id, id < s'.types.size ↔ id < s.types.size ∨ .type id = outcome)
    (hdefinition : ∀ id, id < s'.definitions.size ↔
      id < s.definitions.size ∨ .definition id = outcome) :
    s'.Numbered (given ++ [outcome]) where
  type id := by rw [List.mem_append, List.mem_singleton, h.type, htype]
  definition id := by rw [List.mem_append, List.mem_singleton, h.definition, hdefinition]

/-- An answer that gives no number. -/
theorem Numbered.silent (h : s.Numbered given) {s' : Schema} {outcome : Outcome}
    (htypes : s'.types.size = s.types.size)
    (hdefinitions : s'.definitions.size = s.definitions.size)
    (htype : ∀ id, .type id ≠ outcome) (hdefinition : ∀ id, .definition id ≠ outcome) :
    s'.Numbered (given ++ [outcome]) := by
  refine h.concat (fun id => ?_) fun id => ?_
  · rw [htypes, or_iff_left (htype id)]
  · rw [hdefinitions, or_iff_left (hdefinition id)]

/-! ## Steps -/

/-- A type of a new name gets the next number; a name that is taken changes nothing. -/
theorem apply_declareType (s : Schema) (name : String) :
    s.typeId? name = none ∧ s.apply (.declareType name) =
      (s.withType name, .type s.types.size) ∨
    s.apply (.declareType name) = (s, .refused (.duplicateType name)) := by
  have htaken : s.typeIds.contains name = (s.typeId? name).isSome := rfl
  unfold Schema.apply declareType
  dsimp only
  rw [htaken]
  cases s.typeId? name with
  | none => exact .inl ⟨rfl, rfl⟩
  | some id => exact .inr rfl

/-- A frame type is declared, or it changes nothing. It gives no number. -/
theorem apply_declareFrameType (s : Schema) (t : FrameType) :
    s.apply (.declareFrameType t) = ({ s with frameTypes := s.frameTypes.insert t.name t }, .done) ∨
    s.apply (.declareFrameType t) = (s, .refused (.duplicateFrameType t.name)) := by
  unfold Schema.apply addFrameType
  dsimp only
  cases s.frameTypes.contains t.name with
  | false => exact .inl rfl
  | true => exact .inr rfl

/-- A definition that is there is expected below another type. -/
theorem exists_shareChild_eq (parent : TypeId) {id : DefinitionId} (hid : id < s.definitions.size) :
    ∃ tag, s.shareChild parent id = s.expectChild parent tag id := by
  unfold shareChild definition?
  rw [Array.getElem?_eq_getElem hid]
  exact ⟨_, rfl⟩

/-- A step that refers to what is there keeps the numbers in range, and it answers with those that
come in. -/
theorem Ranged.apply (h : s.Ranged) (hgiven : s.Numbered given) {step : Step}
    (hstep : step.Follows given) :
    (s.apply step).1.Ranged ∧ (s.apply step).1.Numbered (given ++ [(s.apply step).2]) := by
  -- All steps but those that declare a type or define an element give no number.
  have hsame : ∀ {s' : Schema} {outcome : Outcome}, s'.types.size = s.types.size →
      s'.definitions = s.definitions → (∀ id, .type id ≠ outcome) →
      (∀ id, .definition id ≠ outcome) → s'.Numbered (given ++ [outcome]) :=
    fun htypes hdefinitions => hgiven.silent htypes (congrArg Array.size hdefinitions)
  have hdone : ∀ (id : TypeId) (f : ComplexType → ComplexType),
      (s.adjustType id f).Numbered (given ++ [.done]) := fun id f =>
    hsame (size_adjustType s id f) rfl (fun _ heq => nomatch heq) fun _ heq => nomatch heq
  cases step with
  | declareType name =>
    rcases s.apply_declareType name with ⟨hnew, happly⟩ | happly <;> rw [happly]
    · refine ⟨h.withType hnew, hgiven.concat (fun id => ?_) fun id => ?_⟩
      · show id < (s.types.push _).size ↔ _
        rw [Array.size_push, Outcome.type.injEq, Nat.lt_succ_iff_lt_or_eq]
      · exact (or_iff_left fun heq => nomatch heq).symm
    · exact ⟨h, hsame rfl rfl (fun _ heq => nomatch heq) fun _ heq => nomatch heq⟩
  | declareAttribute type a => exact ⟨h.aside type fun _ => ⟨rfl, rfl⟩, hdone type _⟩
  | indeterminate type key v => exact ⟨h.aside type fun _ => ⟨rfl, rfl⟩, hdone type _⟩
  | extraAttributes type => exact ⟨h.aside type fun _ => ⟨rfl, rfl⟩, hdone type _⟩
  | extraChildren type => exact ⟨h.aside type fun _ => ⟨rfl, rfl⟩, hdone type _⟩
  | child parent d =>
    -- The definition is there before its number goes into the table of the parent.
    have hdefined := h.define fun t ht =>
      (hgiven.type t).1 (hstep.1 t (List.mem_cons_of_mem parent ht))
    have hnew : s.definitions.size < (s.definitions.push d).size := by
      rw [Array.size_push]
      exact Nat.lt_succ_self _
    refine ⟨hdefined.expectChild parent d.name hnew, hgiven.concat (fun id => ?_) fun id => ?_⟩
    · show id < (Schema.adjustType _ parent _).types.size ↔ _
      rw [size_adjustType]
      exact (or_iff_left fun heq => nomatch heq).symm
    · show id < (s.definitions.push d).size ↔ _ ∨ Outcome.definition id = .definition _
      rw [Array.size_push, Outcome.definition.injEq, Nat.lt_succ_iff_lt_or_eq]
  | shareChild parent id =>
    have hid := (hgiven.definition id).1 (hstep.2 id (List.mem_singleton_self id))
    obtain ⟨tag, hshare⟩ := exists_shareChild_eq parent hid
    show (s.shareChild parent id).Ranged ∧ (s.shareChild parent id).Numbered (given ++ [.done])
    rw [hshare]
    exact ⟨h.expectChild parent tag hid, hdone parent _⟩
  | declareFrameType t =>
    rcases s.apply_declareFrameType t with happly | happly <;> rw [happly]
    · exact ⟨⟨h.name, h.child, h.type⟩,
        hsame rfl rfl (fun _ heq => nomatch heq) fun _ heq => nomatch heq⟩
    · exact ⟨h, hsame rfl rfl (fun _ heq => nomatch heq) fun _ heq => nomatch heq⟩

/-- Steps that refer to what is there keep the numbers in range. -/
theorem Ranged.applyAll (h : s.Ranged) (hgiven : s.Numbered given) {steps : List Step}
    (hsteps : s.IssuedFrom given steps) :
    (s.applyAll steps).1.Ranged ∧
      (s.applyAll steps).1.Numbered (given ++ (s.applyAll steps).2) := by
  induction steps generalizing s given with
  | nil =>
    show s.Ranged ∧ s.Numbered (given ++ [])
    rw [List.append_nil]
    exact ⟨h, hgiven⟩
  | cons step steps ih =>
    -- Later steps may refer to all that was answered, so the answers are carried along.
    obtain ⟨hstep, hrest⟩ := hsteps
    obtain ⟨hnext, hnumbered⟩ := h.apply hgiven hstep
    have hall := ih hnext hnumbered hrest
    rw [List.append_assoc] at hall
    exact hall

/-- Where each step refers only to numbers that were answered before, the numbers in the tables are
those of what is there, and what was answered are the numbers in range. -/
theorem ranged_assemble {steps : List Step} (h : Issued steps) :
    (assemble steps).Ranged ∧ (assemble steps).Numbered (Schema.applyAll {} steps).2 := by
  have hempty : Ranged {} :=
    ⟨iff_of_false (Option.some_ne_none _).symm
        (by rintro ⟨t, ht, -⟩; exact absurd ht (Option.some_ne_none _).symm),
      fun ht => absurd ht (Option.some_ne_none _).symm,
      fun hd => absurd hd (Option.some_ne_none _).symm⟩
  have hnone : Numbered {} [] := ⟨fun id => by simp, fun id => by simp⟩
  have hall := hempty.applyAll hnone h
  rwa [List.nil_append] at hall

end Schema

end LayoutMarkup
