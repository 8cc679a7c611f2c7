import LayoutMarkup.Proofs.Hierarchy.Reaching
import LayoutMarkup.Workspace.Basic

/-!
# Workspaces over time

A workspace is used by commands that open, update and close documents (`Workspace.run`). The
documents that are open are those that are held by the index, each with its current text
(`inStep_run`): every command on a workspace is a command on its index, or two. So whatever holds of
hierarchies over bound documents holds in every workspace that can be reached. The first such result
is that building the hierarchy of an entry reaches the entry (`buildNode_run`).
-/

namespace LayoutMarkup.Workspace

open Index (Holding)

/-- What can be asked of a workspace. -/
inductive Command where
  /-- Opens a text as the document at a path. -/
  | openText (path text : String)
  /-- Opens the file at a path of a folder. -/
  | openFile (folder : Folder) (path : String)
  /-- Gives an open document another text. -/
  | update (id : DocumentId) (text : String)
  /-- Closes an open document. -/
  | close (id : DocumentId)

/-- What a command makes of a workspace. -/
def Command.apply (ws : Workspace) : Command → Except Error Workspace
  | openText path text => do return (← ws.openText path text).1
  | openFile folder path => do return (← ws.openFile folder path).1
  | update id text => ws.update id text
  | close id => do return (← ws.close id).1

/-- What a command makes of a workspace, which stays as it is if the command is refused. -/
def Command.run (ws : Workspace) (command : Command) : Workspace :=
  match command.apply ws with
  | .ok ws' => ws'
  | .error _ => ws

/-- The workspace after a history of commands. -/
def run (schema : Schema) (config : Config) (commands : List Command) : Workspace :=
  commands.foldl Command.run (empty schema config)

/-! ## Workspace and index -/

/-- Another wording of an error does not make a success. -/
theorem eq_ok_of_mapError_eq_ok {ε ε' α : Type} {x : Except ε α} {f : ε → ε'} {a : α}
    (h : x.mapError f = .ok a) : x = .ok a := by
  cases x with
  | error e => cases h
  | ok b =>
    cases h
    rfl

/-- A workspace is in step with a history of its index: the documents that are open are those that
the history leaves, and no document that is open has the next number. -/
structure InStep (ws : Workspace) (history : List Index.Command) : Prop where
  /-- The index is the one after the history. -/
  index : ws.index = Index.run ws.config.nameLimit history
  /-- The open documents are held. -/
  held : ∀ id, (Index.held history).get? id = (ws.documents.get? id).map fun doc => ⟨ws.schema, doc⟩
  /-- Their numbers were given. -/
  numbered : ∀ id, ws.nextId ≤ id → ws.documents.get? id = none

namespace InStep

variable {ws : Workspace} {history : List Index.Command}

/-- A history goes on with a command that the index accepts. -/
theorem run_concat (h : ws.InStep history) {command : Index.Command} {index : Index}
    (hok : command.apply ws.index = .ok index) :
    Index.run ws.config.nameLimit (history ++ [command]) = index := by
  rw [Index.run, List.foldl_append]
  show command.run (Index.run ws.config.nameLimit history) = index
  rw [← h.index, Index.Command.run, hok]

/-- One more document is held. -/
theorem held_bind (h : ws.InStep history) {id : DocumentId} (hid : ws.documents.get? id = none)
    (doc : Document) (j : DocumentId) :
    (Index.held (history ++ [.bind ws.schema id doc])).get? j =
      ((ws.documents.insert id doc).get? j).map fun doc => ⟨ws.schema, doc⟩ := by
  have hnew : (Index.held history).get? id = none := by
    rw [h.held, hid]
    rfl
  rw [Index.held, List.foldl_append]
  show (Index.Command.hold (Index.held history) (.bind ws.schema id doc)).get? j = _
  rw [Index.Command.hold, hnew, OrderedMap.get?_insert]
  show ((Index.held history).insert id _).get? j = _
  rw [OrderedMap.get?_insert, h.held]
  split <;> rfl

/-- One document less is held. -/
theorem held_unbind (h : ws.InStep history) (id j : DocumentId) :
    (Index.held (history ++ [.unbind id])).get? j =
      ((ws.documents.erase id).get? j).map fun doc => ⟨ws.schema, doc⟩ := by
  rw [Index.held, List.foldl_append]
  show ((Index.held history).erase id).get? j = _
  rw [OrderedMap.get?_erase, OrderedMap.get?_erase, h.held]
  split <;> rfl

/-- A document is opened. -/
theorem openText (h : ws.InStep history) {path text : String} {ws' : Workspace} {id : DocumentId}
    (hok : ws.openText path text = .ok (ws', id)) : ∃ history', ws'.InStep history' := by
  obtain ⟨⟨index, file⟩, hbind, hok⟩ := exists_of_bind_eq_ok hok
  cases hok
  have happly : (Index.Command.bind ws.schema ws.nextId
      (ws.parse (FilePath.documentName path) text)).apply ws.index = .ok index := by
    rw [Index.Command.apply, eq_ok_of_mapError_eq_ok hbind]
    rfl
  have hnew := h.numbered ws.nextId (Nat.le_refl _)
  refine ⟨_, (h.run_concat happly).symm, h.held_bind hnew _, fun j hj => ?_⟩
  rw [OrderedMap.get?_insert, if_neg (Nat.ne_of_gt hj)]
  exact h.numbered j (Nat.le_of_succ_le hj)

/-- A document is taken out. -/
theorem unbind (h : ws.InStep history) {id : DocumentId} {index : Index}
    (hok : ws.index.unbind id = .ok index) :
    InStep { ws with index, documents := ws.documents.erase id } (history ++ [.unbind id]) := by
  have happly : (Index.Command.unbind id).apply ws.index = .ok index := hok
  refine ⟨(h.run_concat happly).symm, h.held_unbind id, fun j hj => ?_⟩
  rw [OrderedMap.get?_erase, h.numbered j hj, ite_self]

/-- A document is closed. -/
theorem close (h : ws.InStep history) {id : DocumentId} {ws' : Workspace} {doc : Document}
    (hok : ws.close id = .ok (ws', doc)) : ∃ history', ws'.InStep history' := by
  unfold Workspace.close at hok
  split at hok
  next => cases hok
  next =>
    obtain ⟨index, hunbind, hok⟩ := exists_of_bind_eq_ok hok
    cases hok
    have hclosed := h.unbind (eq_ok_of_mapError_eq_ok hunbind)
    exact ⟨_, hclosed.index, hclosed.held, hclosed.numbered⟩

/-- A document gets another text: it is taken out and bound again under its number. -/
theorem update (h : ws.InStep history) {id : DocumentId} {text : String} {ws' : Workspace}
    (hok : ws.update id text = .ok ws') : ∃ history', ws'.InStep history' := by
  unfold Workspace.update at hok
  split at hok
  next => cases hok
  next old hold =>
    obtain ⟨index, hunbind, hok⟩ := exists_of_bind_eq_ok hok
    obtain ⟨⟨index', file⟩, hbind, hok⟩ := exists_of_bind_eq_ok hok
    cases hok
    have hclosed := h.unbind (eq_ok_of_mapError_eq_ok hunbind)
    have happly : (Index.Command.bind ws.schema id (ws.parse old.name text)).apply index =
        .ok index' := by
      rw [Index.Command.apply, eq_ok_of_mapError_eq_ok hbind]
      rfl
    -- Between the two commands the number belongs to no document, so it can be bound.
    have hfree : (ws.documents.erase id).get? id = none := by
      rw [OrderedMap.get?_erase, if_pos rfl]
    refine ⟨_, (hclosed.run_concat happly).symm, fun j => ?_, fun j hj => ?_⟩
    · rw [hclosed.held_bind hfree, OrderedMap.get?_insert, OrderedMap.get?_insert,
        OrderedMap.get?_erase]
      split <;> rfl
    · -- The number was given before, since its document was open.
      have hlt : id < ws.nextId := by
        by_contra hge
        rw [h.numbered id (Nat.not_lt.1 hge)] at hold
        cases hold
      rw [OrderedMap.get?_insert, if_neg (Nat.ne_of_gt (lt_of_lt_of_le hlt hj))]
      exact h.numbered j hj

/-- A command on a workspace is a command on its index, or two. -/
theorem run (h : ws.InStep history) (command : Command) :
    ∃ history', (command.run ws).InStep history' := by
  unfold Command.run
  split
  next ws' hok =>
    cases command with
    | openText path text =>
      obtain ⟨⟨ws₁, id⟩, hopen, hok⟩ := exists_of_bind_eq_ok hok
      cases hok
      exact h.openText hopen
    | openFile folder path =>
      obtain ⟨⟨ws₁, id⟩, hopen, hok⟩ := exists_of_bind_eq_ok hok
      cases hok
      obtain ⟨text, -, hopen⟩ := exists_of_bind_eq_ok hopen
      exact h.openText hopen
    | update id text => exact h.update hok
    | close id =>
      obtain ⟨⟨ws₁, doc⟩, hclose, hok⟩ := exists_of_bind_eq_ok hok
      cases hok
      exact h.close hclose
  next => exact ⟨history, h⟩

end InStep

/-- Every workspace is in step with a history of its index. -/
theorem inStep_run (schema : Schema) (config : Config) (commands : List Command) :
    ∃ history, (run schema config commands).InStep history := by
  induction commands using List.reverseRecOn with
  | nil => exact ⟨[], rfl, fun _ => rfl, fun _ _ => rfl⟩
  | append_singleton commands command ih =>
    obtain ⟨history, h⟩ := ih
    rw [run, List.foldl_append]
    exact h.run command

/-- What hierarchies are built from in a workspace are the documents that are bound. -/
theorem backed_run (schema : Schema) (config : Config) (commands : List Command) :
    ∃ held, (run schema config commands).sources.Backed held := by
  obtain ⟨history, h⟩ := inStep_run schema config commands
  refine ⟨Index.held history, ?_, ?_, fun id => ?_⟩
  · show (run schema config commands).index.Sound
    rw [h.index]
    exact Index.sound_run _ history
  · show (run schema config commands).index.Mirrored _
    rw [h.index]
    exact Index.mirrored_run _ history
  · show (run schema config commands).documents.get? id = _
    rw [h.held, Option.map_map]
    exact Option.map_id'.symm

/-! ## Building -/

/-- In every workspace and for every tree, building the hierarchy of an entry reaches the entry
exactly if it is not deeper than the levels that are expanded: its node then has the path that leads
to it from the top of the hierarchy, and the entry contributes to it. Without a hierarchy nothing is
built. -/
theorem buildNode_run (schema : Schema) (config : Config) (commands : List Command)
    (tree : Hierarchy.Tree) (entry : EntryId) :
    ((run schema config commands).sources.context? entry = none →
      (run schema config commands).sources.buildNode tree entry = .ok (tree, none)) ∧
    ∀ top path, (run schema config commands).sources.context? entry = some (top, path) →
      ∃ e tree' result, (run schema config commands).index.entry? top = some e ∧
        (run schema config commands).sources.buildNode tree entry = .ok (tree', result) ∧
        (result.isSome = true ↔
          path.length ≤ (run schema config commands).config.maxDepth + 1) ∧
        ∀ node, result = some node → tree'.path node = .ok (e.name :: path) ∧
          ∃ n, tree'.node? node = some n ∧ entry ∈ n.contributors := by
  obtain ⟨held, h⟩ := backed_run schema config commands
  exact ⟨fun hnone => Hierarchy.Sources.buildNode_of_context_eq_none hnone tree,
    fun top path hsome => h.buildNode_reaches hsome tree⟩

end LayoutMarkup.Workspace
