import LayoutMarkup.Proofs.Index.Arena
import LayoutMarkup.Proofs.Workspace.History

/-!
# The tables of a workspace

A workspace changes its documents, its paths and its index one after another, and each of these
steps could be refused. What a user knows from the commands alone is a `Session`: the files that are
open, with the texts last given to them, and how many were opened. A workspace in step with its
index, whose tables agree with a session, does every step of a command or refuses the command before
the first one (`Kept.openText_eq`, `Kept.update_eq`, `Kept.close_eq`), and the tables agree with the
session after it again (`Kept.run`). So after every history the tables and the index know the same
documents, no number is given twice, and a command is refused exactly if it is about a document that
is not open or a file that cannot be read (`tables_run`).
-/

namespace LayoutMarkup.Workspace

open FilePath (documentName)

/-! ## Sessions -/

/-- An open file as its user knows it. -/
structure OpenFile where
  /-- The path it was opened at. -/
  path : String
  /-- The text last given to it. -/
  text : String

/-- What the commands say by themselves. -/
structure Session where
  /-- The files that are open. -/
  files : OrderedMap DocumentId OpenFile := ∅
  /-- How many files were opened. -/
  opened : Nat := 0

/-- A file is opened under the next number. -/
def Session.start (s : Session) (path text : String) : Session where
  files := s.files.insert s.opened ⟨path, text⟩
  opened := s.opened + 1

/-- What a command makes of a session. -/
def Command.follow (s : Session) : Command → Session
  | openText path text => s.start path text
  | openFile folder path => (folder.read path).toOption.elim s (s.start path)
  | update id text =>
    (s.files.get? id).elim s fun file => { s with files := s.files.insert id { file with text } }
  | close id => { s with files := s.files.erase id }

/-- The session of a history of commands. -/
def session (commands : List Command) : Session :=
  commands.foldl Command.follow {}

/-- The commands that are refused in a session, and why: there is no text at a path, or a document
is not open. -/
inductive Session.Refuses (s : Session) : Command → Error → Prop where
  /-- A file cannot be read. -/
  | openFile {folder : Folder} {path : String} {error : ReadError}
      (h : folder.read path = .error error) : Refuses s (.openFile folder path) (.read error)
  /-- A document that is not open gets no text. -/
  | update {id : DocumentId} (h : s.files.get? id = none) (text : String) :
      Refuses s (.update id text) (.unknownDocument id)
  /-- A document that is not open is not closed. -/
  | close {id : DocumentId} (h : s.files.get? id = none) :
      Refuses s (.close id) (.unknownDocument id)

/-! ## One command -/

variable {ws : Workspace} {s : Session}

namespace InStep

variable {history : List Index.Command}

/-- The index is sound. -/
theorem sound (h : ws.InStep history) : ws.index.Sound := by
  rw [h.index]
  exact Index.sound_run _ history

/-- The open documents are those that are bound. -/
theorem bound (h : ws.InStep history) (id : DocumentId) :
    ws.index.records.get? id = none ↔ ws.documents.get? id = none := by
  rw [h.index, ← (Index.holds_run _ history).bound, h.held, Option.map_eq_none_iff]

/-- An open document has a record. -/
theorem exists_record (h : ws.InStep history) {id : DocumentId} {doc : Document}
    (hdoc : ws.documents.get? id = some doc) : ∃ r, ws.index.records.get? id = some r := by
  refine Option.ne_none_iff_exists'.1 fun hnone => ?_
  rw [(h.bound id).1 hnone] at hdoc
  exact Option.some_ne_none doc hdoc.symm

/-- The record of an open document has its text and its name. -/
theorem heads (h : ws.InStep history) {id : DocumentId} {r : Record} {doc : Document}
    (hr : ws.index.records.get? id = some r) (hdoc : ws.documents.get? id = some doc) :
    r.Heads doc ws.index.pathOf := by
  have hheld : (Index.held history).get? id = some ⟨ws.schema, doc⟩ := by
    rw [h.held, hdoc]
    rfl
  rw [h.index] at hr ⊢
  exact Index.lasting_heads.recorded_run _ history id r _ hr hheld

end InStep

/-- The tables of a workspace are those of a session, and the workspace is in step with its
index. -/
structure Kept (ws : Workspace) (s : Session) : Prop where
  /-- A history of the index leaves the documents that are open. -/
  inStep : ∃ history, ws.InStep history
  /-- The documents are the texts of the files, read under the names of the files. -/
  documents : ∀ id, ws.documents.get? id =
    (s.files.get? id).map fun file => ws.parse (documentName file.path) file.text
  /-- The paths are those of the files. -/
  paths : ∀ id, ws.paths.get? id = (s.files.get? id).map (·.path)
  /-- As many numbers were given as files were opened. -/
  nextId : ws.nextId = s.opened

namespace Kept

/-- The next number is not that of an open document. -/
theorem get?_nextId (h : ws.Kept s) : ws.documents.get? ws.nextId = none := by
  obtain ⟨history, hstep⟩ := h.inStep
  exact hstep.numbered ws.nextId (Nat.le_refl _)

/-- Opening a text succeeds. -/
theorem openText_eq (h : ws.Kept s) (path text : String) :
    ∃ index, ws.openText path text = .ok ({ ws with
      index
      documents := ws.documents.insert ws.nextId (ws.parse (documentName path) text)
      paths := ws.paths.insert ws.nextId path
      nextId := ws.nextId + 1 }, ws.nextId) := by
  obtain ⟨history, hstep⟩ := h.inStep
  have hfree := (hstep.bound ws.nextId).2 h.get?_nextId
  obtain ⟨w, hbind, -⟩ := Index.bind_spec hstep.sound ws.schema hfree
    (ws.parse (documentName path) text)
  refine ⟨w.sealed ws.nextId, ?_⟩
  unfold Workspace.openText
  dsimp only
  rw [hbind]
  rfl

/-- The index lets go of an open document, and takes any other one in its place. -/
theorem exists_unbind (h : ws.Kept s) {id : DocumentId} {doc : Document}
    (hdoc : ws.documents.get? id = some doc) :
    ∃ index, ws.index.unbind id = .ok index ∧
      ∀ new, ∃ index' file, index.bind ws.schema id new = .ok (index', file) := by
  obtain ⟨history, hstep⟩ := h.inStep
  obtain ⟨r, hr⟩ := hstep.exists_record hdoc
  obtain ⟨index, hunbind, hre, hsound⟩ := Index.unbind_spec hstep.sound hr
  have hfree : index.records.get? id = none := by
    rw [hre.rest]
    show (ws.index.records.erase id).get? id = none
    rw [OrderedMap.get?_erase, if_pos rfl]
  refine ⟨index, hunbind, fun new => ?_⟩
  obtain ⟨w, hbind, -⟩ := Index.bind_spec hsound ws.schema hfree new
  exact ⟨w.sealed id, w.record.file, hbind⟩

/-- An open document gets another text. -/
theorem update_eq (h : ws.Kept s) {id : DocumentId} {doc : Document}
    (hdoc : ws.documents.get? id = some doc) (text : String) :
    ∃ index, ws.update id text = .ok { ws with
      index
      documents := ws.documents.insert id (ws.parse doc.name text) } := by
  obtain ⟨index, hunbind, hrebind⟩ := h.exists_unbind hdoc
  obtain ⟨index', file, hbind⟩ := hrebind (ws.parse doc.name text)
  refine ⟨index', ?_⟩
  unfold Workspace.update
  rw [hdoc]
  dsimp only
  rw [hunbind]
  show (index.bind ws.schema id (ws.parse doc.name text)).mapError Error.index >>= _ = _
  rw [hbind]
  rfl

/-- An open document is closed. -/
theorem close_eq (h : ws.Kept s) {id : DocumentId} {doc : Document}
    (hdoc : ws.documents.get? id = some doc) :
    ∃ index, ws.close id = .ok ({ ws with
      index
      documents := ws.documents.erase id
      paths := ws.paths.erase id }, doc) := by
  obtain ⟨index, hunbind, -⟩ := h.exists_unbind hdoc
  refine ⟨index, ?_⟩
  unfold Workspace.close
  rw [hdoc]
  dsimp only
  rw [hunbind]
  rfl

/-- A document is open exactly if its file is. -/
theorem get?_eq_none_iff (h : ws.Kept s) (id : DocumentId) :
    ws.documents.get? id = none ↔ s.files.get? id = none := by
  rw [h.documents, Option.map_eq_none_iff]

/-- Opening a text opens a file under the next number. -/
theorem openText (h : ws.Kept s) (path text : String) :
    ∃ ws', ws.openText path text = .ok (ws', s.opened) ∧ ws'.Kept (s.start path text) := by
  obtain ⟨history, hstep⟩ := h.inStep
  obtain ⟨index, hok⟩ := h.openText_eq path text
  refine ⟨_, h.nextId ▸ hok, hstep.openText hok, fun j => ?_, fun j => ?_, ?_⟩
  · show (ws.documents.insert ws.nextId (ws.parse (documentName path) text)).get? j =
      ((s.files.insert s.opened ⟨path, text⟩).get? j).map fun file =>
        ws.parse (documentName file.path) file.text
    rw [OrderedMap.get?_insert, OrderedMap.get?_insert, h.nextId, h.documents]
    split <;> rfl
  · show (ws.paths.insert ws.nextId path).get? j =
      ((s.files.insert s.opened ⟨path, text⟩).get? j).map (·.path)
    rw [OrderedMap.get?_insert, OrderedMap.get?_insert, h.nextId, h.paths]
    split <;> rfl
  · show ws.nextId + 1 = s.opened + 1
    rw [h.nextId]

/-- Updating an open document changes the text of its file. -/
theorem update (h : ws.Kept s) {id : DocumentId} {file : OpenFile}
    (hfile : s.files.get? id = some file) (text : String) :
    ∃ ws', ws.update id text = .ok ws' ∧
      ws'.Kept { s with files := s.files.insert id { file with text } } := by
  have hdoc : ws.documents.get? id = some (ws.parse (documentName file.path) file.text) := by
    rw [h.documents, hfile]
    rfl
  obtain ⟨history, hstep⟩ := h.inStep
  obtain ⟨index, hok⟩ := h.update_eq hdoc text
  refine ⟨_, hok, hstep.update hok, fun j => ?_, fun j => ?_, h.nextId⟩
  · show (ws.documents.insert id (ws.parse (documentName file.path) text)).get? j =
      ((s.files.insert id { file with text }).get? j).map fun file =>
        ws.parse (documentName file.path) file.text
    rw [OrderedMap.get?_insert, OrderedMap.get?_insert, h.documents]
    split <;> rfl
  · -- The path stays: that of the file is not changed.
    show ws.paths.get? j = ((s.files.insert id { file with text }).get? j).map (·.path)
    rw [OrderedMap.get?_insert, h.paths]
    split
    next hj => rw [hj, hfile]; rfl
    next => rfl

/-- Closing an open document closes its file. -/
theorem close (h : ws.Kept s) {id : DocumentId} {doc : Document}
    (hdoc : ws.documents.get? id = some doc) :
    ∃ ws', ws.close id = .ok (ws', doc) ∧ ws'.Kept { s with files := s.files.erase id } := by
  obtain ⟨history, hstep⟩ := h.inStep
  obtain ⟨index, hok⟩ := h.close_eq hdoc
  refine ⟨_, hok, hstep.close hok, fun j => ?_, fun j => ?_, h.nextId⟩
  · show (ws.documents.erase id).get? j = ((s.files.erase id).get? j).map fun file =>
      ws.parse (documentName file.path) file.text
    rw [OrderedMap.get?_erase, OrderedMap.get?_erase, h.documents]
    split <;> rfl
  · show (ws.paths.erase id).get? j = ((s.files.erase id).get? j).map (·.path)
    rw [OrderedMap.get?_erase, OrderedMap.get?_erase, h.paths]
    split <;> rfl

/-- Opening a file that can be read opens its text. -/
theorem openFile_eq {folder : Folder} {path text : String} (hread : folder.read path = .ok text) :
    ws.openFile folder path = ws.openText path text := by
  unfold Workspace.openFile
  rw [hread]
  rfl

/-- A command that a session refuses is refused by the workspace. -/
theorem apply_of_refuses (h : ws.Kept s) {command : Command} {error : Error}
    (hrefuses : s.Refuses command error) : command.apply ws = .error error := by
  cases hrefuses with
  | openFile hread =>
    unfold Command.apply Workspace.openFile
    dsimp only
    rw [hread]
    rfl
  | update hnone text =>
    unfold Command.apply Workspace.update
    dsimp only
    rw [(h.get?_eq_none_iff _).2 hnone]
  | close hnone =>
    unfold Command.apply Workspace.close
    dsimp only
    rw [(h.get?_eq_none_iff _).2 hnone]
    rfl

/-- A command is done as in the session, or it is refused and the session stays as well. -/
theorem apply_cases (h : ws.Kept s) (command : Command) :
    (∃ ws', command.apply ws = .ok ws' ∧ ws'.Kept (command.follow s)) ∨
      ∃ error, command.apply ws = .error error ∧ s.Refuses command error ∧
        command.follow s = s := by
  -- A refusal of the session is one of the workspace.
  have hno : ∀ {error}, s.Refuses command error → command.follow s = s →
      ∃ error, command.apply ws = .error error ∧ s.Refuses command error ∧ command.follow s = s :=
    fun hrefuses hsame => ⟨_, h.apply_of_refuses hrefuses, hrefuses, hsame⟩
  cases command with
  | openText path text =>
    -- Opening a text always succeeds.
    obtain ⟨ws', hok, h'⟩ := h.openText path text
    refine Or.inl ⟨ws', ?_, h'⟩
    rw [Command.apply, hok]
    rfl
  | openFile folder path =>
    cases hread : folder.read path with
    | error error =>
      refine Or.inr (hno (.openFile hread) ?_)
      rw [Command.follow, hread]
      rfl
    | ok text =>
      obtain ⟨ws', hok, h'⟩ := h.openText path text
      refine Or.inl ⟨ws', ?_, ?_⟩
      · rw [Command.apply, openFile_eq hread, hok]
        rfl
      · rw [Command.follow, hread]
        exact h'
  | update id text =>
    cases hfile : s.files.get? id with
    | none =>
      refine Or.inr (hno (.update hfile text) ?_)
      rw [Command.follow, hfile]
      rfl
    | some file =>
      obtain ⟨ws', hok, h'⟩ := h.update hfile text
      refine Or.inl ⟨ws', hok, ?_⟩
      rw [Command.follow, hfile]
      exact h'
  | close id =>
    cases hdoc : ws.documents.get? id with
    | none =>
      -- A document that is not there is not closed.
      have hnone := (h.get?_eq_none_iff id).1 hdoc
      refine Or.inr (hno (.close hnone) ?_)
      rw [Command.follow, OrderedMap.erase_eq_self hnone]
    | some doc =>
      obtain ⟨ws', hok, h'⟩ := h.close hdoc
      refine Or.inl ⟨ws', ?_, h'⟩
      rw [Command.apply, hok]
      rfl

/-- A command is refused exactly if the session refuses it. -/
theorem apply_eq_error_iff (h : ws.Kept s) {command : Command} {error : Error} :
    command.apply ws = .error error ↔ s.Refuses command error := by
  refine ⟨fun herror => ?_, h.apply_of_refuses⟩
  rcases h.apply_cases command with ⟨ws', hok, -⟩ | ⟨error', herror', hrefuses, -⟩
  · rw [herror] at hok
    cases hok
  · rw [herror] at herror'
    cases herror'
    exact hrefuses

/-- The tables follow the session. -/
theorem run (h : ws.Kept s) (command : Command) : (command.run ws).Kept (command.follow s) := by
  unfold Command.run
  rcases h.apply_cases command with ⟨ws', hok, h'⟩ | ⟨error, herror, -, hsame⟩
  · rw [hok]
    exact h'
  · rw [herror, hsame]
    exact h

end Kept

/-- The tables follow the session of every history. -/
theorem kept_run (schema : Schema) (config : Config) (commands : List Command) :
    (run schema config commands).Kept (session commands) := by
  induction commands using List.reverseRecOn with
  | nil => exact ⟨⟨[], rfl, fun _ => rfl, fun _ _ => rfl⟩, fun _ => rfl, fun _ => rfl, rfl⟩
  | append_singleton commands command ih =>
    rw [run, session, List.foldl_append, List.foldl_append]
    exact ih.run command

/-! ## Numbers -/

/-- The number that a command gives to a document. -/
def Command.issue? (ws : Workspace) : Command → Option DocumentId
  | openText path text => (ws.openText path text).toOption.map Prod.snd
  | openFile folder path => (ws.openFile folder path).toOption.map Prod.snd
  | update _ _ | close _ => none

/-- The numbers that commands give to documents, one command after another. -/
def issuedFrom (ws : Workspace) : List Command → List DocumentId
  | [] => []
  | command :: commands => (command.issue? ws).toList ++ issuedFrom (command.run ws) commands

/-- The numbers that a history of commands gives to documents. -/
def issued (schema : Schema) (config : Config) (commands : List Command) : List DocumentId :=
  issuedFrom (empty schema config) commands

/-- A command gives the next number, or none. -/
theorem Kept.issue? (h : ws.Kept s) (command : Command) :
    List.range s.opened ++ (command.issue? ws).toList = List.range (command.follow s).opened := by
  cases command with
  | openText path text =>
    obtain ⟨ws', hok, -⟩ := h.openText path text
    rw [Command.issue?, hok]
    exact List.range_succ.symm
  | openFile folder path =>
    cases hread : folder.read path with
    | error error =>
      rw [Command.issue?, Command.follow, Workspace.openFile, hread]
      exact List.append_nil _
    | ok text =>
      obtain ⟨ws', hok, -⟩ := h.openText path text
      rw [Command.issue?, Command.follow, openFile_eq hread, hok, hread]
      exact List.range_succ.symm
  | update id text =>
    rw [Command.follow]
    cases s.files.get? id <;> exact List.append_nil _
  | close id => exact List.append_nil _

/-- Commands give one number after another. -/
theorem Kept.issuedFrom (h : ws.Kept s) (commands : List Command) :
    List.range s.opened ++ issuedFrom ws commands =
      List.range (commands.foldl Command.follow s).opened := by
  induction commands generalizing ws s with
  | nil => exact List.append_nil _
  | cons command commands ih =>
    rw [Workspace.issuedFrom, ← List.append_assoc, h.issue? command]
    exact ih (h.run command)

/-! ## All tables -/

/-- The tables of a workspace and its index know the same documents. -/
structure Consistent (ws : Workspace) : Prop where
  /-- There is a path for each open document. -/
  paths : ∀ id, id ∈ ws.paths.keys ↔ id ∈ ws.documents.keys
  /-- The open documents are those that are bound. -/
  bound : ∀ id, id ∈ ws.index.records.keys ↔ id ∈ ws.documents.keys
  /-- An open document is bound with its text, and its file is the entry of its name in the root. -/
  filed : ∀ id doc, ws.documents.get? id = some doc →
    ∃ r e root, ws.index.records.get? id = some r ∧ r.text = doc.text ∧
      ws.index.entry? r.file = some e ∧ e.kind = .file ∧ e.name = doc.name ∧
      e.parent = some .root ∧ ws.index.entry? .root = some root ∧
      root.children.get? doc.name = some r.file
  /-- The numbers of open documents were given. -/
  numbered : ∀ id ∈ ws.documents.keys, id < ws.nextId
  /-- The index lets go of an open document and takes any other one in its place. -/
  rebound : ∀ id ∈ ws.documents.keys, ∃ index, ws.index.unbind id = .ok index ∧
    ∀ doc, ∃ index' file, index.bind ws.schema id doc = .ok (index', file)

/-- The file of an open document is the entry of its name in the root. -/
theorem InStep.filed {history : List Index.Command} (h : ws.InStep history) {id : DocumentId}
    {doc : Document} (hdoc : ws.documents.get? id = some doc) :
    ∃ r e root, ws.index.records.get? id = some r ∧ r.text = doc.text ∧
      ws.index.entry? r.file = some e ∧ e.kind = .file ∧ e.name = doc.name ∧
      e.parent = some .root ∧ ws.index.entry? .root = some root ∧
      root.children.get? doc.name = some r.file := by
  have hordered := h.sound.ordered
  have harena := hordered.freeListed.arena hordered.rooted
  obtain ⟨r, hr⟩ := h.exists_record hdoc
  have hheads := h.heads hr hdoc
  obtain ⟨e, he, hparent⟩ := h.sound.exists_file hr
  obtain ⟨root, hroot, -⟩ := harena.root
  have hname : e.name = doc.name := by
    rw [Entry.name, ← Index.pathOf_eq he, hheads.file]
    rfl
  exact ⟨r, e, root, hr, hheads.text, he, (harena.file he).2 hparent, hname, hparent, hroot,
    (harena.child hroot doc.name r.file).2 ⟨e, he, hparent, hname⟩⟩

/-- A workspace whose tables follow a session is consistent. -/
theorem Kept.consistent (h : ws.Kept s) : ws.Consistent := by
  obtain ⟨history, hstep⟩ := h.inStep
  refine ⟨fun id => ?_, fun id => ?_, fun id doc => hstep.filed, fun id hid => ?_, fun id hid => ?_⟩
  · apply OrderedMap.mem_keys_congr
    rw [h.paths, h.get?_eq_none_iff, Option.map_eq_none_iff]
  · exact OrderedMap.mem_keys_congr (hstep.bound id)
  · by_contra hge
    exact OrderedMap.get?_eq_none_iff.1 (hstep.numbered id (Nat.not_lt.1 hge)) hid
  · obtain ⟨doc, hdoc⟩ := OrderedMap.mem_keys_iff.1 hid
    exact h.exists_unbind hdoc

/-- After every history of a workspace its documents, its paths and its index know the same
documents, those of the session, each with the text last given to it. The numbers of documents were
given one after another, each of them once. Opening a text succeeds, whatever the text. A command
is refused exactly if it is about a file that cannot be read or a document that is not open, so
never by the index, and then nothing changes. -/
theorem tables_run (schema : Schema) (config : Config) (commands : List Command) :
    (run schema config commands).Consistent ∧
    (∀ id, (run schema config commands).documents.get? id =
      ((session commands).files.get? id).map fun file =>
        (run schema config commands).parse (documentName file.path) file.text) ∧
    issued schema config commands = List.range (run schema config commands).nextId ∧
    (∀ path text, ∃ ws, (run schema config commands).openText path text =
      .ok (ws, (run schema config commands).nextId)) ∧
    (∀ command error, Command.apply (run schema config commands) command = .error error ↔
      (session commands).Refuses command error) ∧
    (∀ command error, (session commands).Refuses command error →
      command.run (run schema config commands) = run schema config commands ∧
        ∀ reason, error ≠ .index reason) := by
  have h := kept_run schema config commands
  refine ⟨h.consistent, h.documents, ?_, fun path text => ?_, fun _ _ => h.apply_eq_error_iff,
    fun command error hrefuses => ⟨?_, fun reason hindex => ?_⟩⟩
  · -- The numbers are counted from those of the empty workspace.
    have hempty : (empty schema config).Kept {} := kept_run schema config []
    rw [h.nextId]
    exact hempty.issuedFrom commands
  · obtain ⟨index, hok⟩ := h.openText_eq path text
    exact ⟨_, hok⟩
  · rw [Command.run, h.apply_of_refuses hrefuses]
  · rw [hindex] at hrefuses
    cases hrefuses

end LayoutMarkup.Workspace
