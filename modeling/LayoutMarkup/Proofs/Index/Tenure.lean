import LayoutMarkup.Proofs.Index.Apart
import LayoutMarkup.Proofs.Index.Reading

/-!
# While a document is bound

A history is a list of commands, and what is said about it is proved command by command. A command
does one of four things (`run_induction`): it changes nothing, it binds a document that was not
bound, it takes a bound document out, or it takes all of them out.

A document that is bound was bound by one command, and its record is the one that this command made
(`Tenure`, `exists_tenure`). As long as it is bound, what it declares keeps its slot, its place in
the tree and its kind, whatever happens to the other documents (`Tenure.exists_sameLinks`).
-/

namespace LayoutMarkup.Index

/-! ## One command more -/

/-- A history goes on with one command. -/
theorem run_concat (limit : Nat) (commands : List Command) (command : Command) :
    run limit (commands ++ [command]) = command.run (run limit commands) :=
  List.foldl_concat ..

/-- What is held goes on with one command. -/
theorem held_concat (commands : List Command) (command : Command) :
    held (commands ++ [command]) = command.hold (held commands) :=
  List.foldl_concat ..

/-- A bind that succeeds gives its index. -/
theorem run_bind_of_ok {ix ix' : Index} {schema : Schema} {id : DocumentId} {doc : Document}
    {file : EntryId} (h : ix.bind schema id doc = .ok (ix', file)) :
    (Command.bind schema id doc).run ix = ix' := by
  simp only [Command.run, Command.apply, h]
  rfl

/-- Binding a document that is not bound is adding it. -/
theorem run_bind_of_added {ix ix' : Index} {schema : Schema} {id : DocumentId} {doc : Document}
    {file : EntryId} (hnew : ix.records.get? id = none)
    (h : ix.addDocument schema id doc = .ok (ix', file)) :
    (Command.bind schema id doc).run ix = ix' := by
  have hbind : ix.bind schema id doc = .ok (ix', file) := by
    unfold bind
    rw [hnew]
    dsimp only
    rw [h]
    rfl
  exact run_bind_of_ok hbind

/-- The only entry of an index without documents is the root. -/
theorem eq_of_entry?_empty {limit : Nat} {id : EntryId} {e : Entry}
    (he : entry? (empty limit) id = some e) :
    e = { kind := .root, path := [], parent := none } := by
  rw [entry?_empty] at he
  by_cases hid : id = .root
  · subst hid
    rw [Function.update_self] at he
    exact (Option.some.inj he).symm
  · rw [Function.update_of_ne hid] at he
    exact absurd he (Option.some_ne_none e).symm

/-- Binding an element to an entry changes no entry after its declaration. -/
theorem Walk.entry?_declared (w : Walk) (d : Declaration) (e : Element) (index : Index)
    (entry : EntryId) : Index.entry? (w.declared d e index entry).index = index.entry? := by
  unfold Walk.declared
  dsimp only
  cases e.attributeValue? "file" <;> cases e.attributeValue? "template" <;> rfl

/-- The index at the end of a walk has one record more. -/
theorem Walk.Follows.records_sealed {ix : Index} {w : Walk} {id : DocumentId} {visited : Nat}
    (hw : w.Follows ix id visited) : (w.sealed id).records = ix.records.insert id w.record := by
  unfold Walk.sealed
  rw [hw.records]

/-- What holds of the history without commands, and is kept by each of the four things that a
command can do, holds of every history. -/
theorem run_induction (limit : Nat) {P : List Command → Prop} (start : P [])
    (idle : ∀ {commands command}, P commands →
      run limit (commands ++ [command]) = run limit commands →
      held (commands ++ [command]) = held commands → P (commands ++ [command]))
    (bind : ∀ {commands schema id doc}, P commands →
      (run limit commands).records.get? id = none →
      held (commands ++ [.bind schema id doc]) = (held commands).insert id ⟨schema, doc⟩ →
      P (commands ++ [.bind schema id doc]))
    (unbind : ∀ {commands id r}, P commands → (run limit commands).records.get? id = some r →
      ((run limit commands).withoutRecord id r).Reslotted
        (unwound (Index.entry? (run limit commands)) id r.ledger)
        (run limit (commands ++ [.unbind id])) →
      P (commands ++ [.unbind id]))
    (clear : ∀ {commands}, run limit (commands ++ [.clear]) = (run limit commands).clear →
      P (commands ++ [.clear]))
    (commands : List Command) : P commands := by
  induction commands using List.reverseRecOn with
  | nil => exact start
  | append_singleton commands command ih =>
    have hh := holds_run limit commands
    cases command with
    -- A document that is bound is bound again in vain, and one that is not is unbound in vain.
    | bind schema id doc =>
      cases hr : (run limit commands).records.get? id with
      | none =>
        refine bind ih hr ?_
        rw [held_concat, Command.hold, (hh.bound id).2 hr]
        rfl
      | some r =>
        refine idle ih ?_ ?_
        · rw [run_concat, run_bind_of_bound hr]
        · rw [held_concat, Command.hold, if_pos (hh.isSome_of_bound hr)]
    | unbind id =>
      cases hr : (run limit commands).records.get? id with
      | none =>
        refine idle ih ?_ ?_
        · rw [run_concat, run_unbind_of_not_bound hr]
        · rw [held_concat, Command.hold, OrderedMap.erase_eq_self ((hh.bound id).2 hr)]
      | some r =>
        obtain ⟨ix', hunbind, hre, -⟩ := unbind_spec (sound_run limit commands) hr
        have hrun : run limit (commands ++ [.unbind id]) = ix' := by
          rw [run_concat, Command.run, Command.apply, hunbind]
        refine unbind ih hr ?_
        rw [hrun]
        exact hre
    | clear => exact clear (run_concat ..)

/-! ## The time of a document -/

/-- A document is bound by a command of a history, and its record stays the one that this command
made from then on. -/
structure Tenure (limit : Nat) (commands : List Command) (id : DocumentId) (b : Holding)
    (r : Record) (before after : List Command) : Prop where
  /-- The command is one of the history. -/
  history : commands = before ++ .bind b.schema id b.doc :: after
  /-- Before the command the document is not bound. -/
  unbound : (run limit before).records.get? id = none
  /-- From then on it is bound with the record. -/
  bound : ∀ mid, mid <+: after →
    (run limit (before ++ .bind b.schema id b.doc :: mid)).records.get? id = some r

variable {limit : Nat} {commands before after : List Command} {id : DocumentId} {b : Holding}
  {r : Record}

/-- A document goes on being bound while a command leaves its record alone. -/
theorem Tenure.concat (h : Tenure limit commands id b r before after) {command : Command}
    (hr : (run limit (commands ++ [command])).records.get? id = some r) :
    Tenure limit (commands ++ [command]) id b r before (after ++ [command]) := by
  have hhistory : commands ++ [command] =
      before ++ .bind b.schema id b.doc :: (after ++ [command]) := by
    rw [h.history]
    simp
  refine ⟨hhistory, h.unbound, fun mid hmid => ?_⟩
  rcases List.prefix_concat_iff.1 hmid with rfl | hmid
  · rw [← hhistory]
    exact hr
  · exact h.bound mid hmid

/-- The record of a bound document is the one that the walk has made that bound it. -/
theorem Tenure.run_bind (h : Tenure limit commands id b r before after) {w : Walk} {visited : Nat}
    (hw : w.Follows (run limit before) id visited)
    (hrun : (Command.bind b.schema id b.doc).run (run limit before) = w.sealed id) :
    run limit (before ++ [.bind b.schema id b.doc]) = w.sealed id ∧ r = w.record := by
  have hbegin : run limit (before ++ [.bind b.schema id b.doc]) = w.sealed id := by
    rw [run_concat, hrun]
  refine ⟨hbegin, ?_⟩
  have hget := h.bound [] (List.nil_prefix ..)
  rw [hbegin, hw.records_sealed, OrderedMap.get?_insert, if_pos rfl] at hget
  exact (Option.some.inj hget).symm

/-- A bound document is held, and some command of the history has bound it. -/
theorem exists_tenure (limit : Nat) (commands : List Command) :
    ∀ id r, (run limit commands).records.get? id = some r →
      ∃ b before after, (held commands).get? id = some b ∧
        Tenure limit commands id b r before after := by
  induction commands using run_induction limit with
  | start => exact fun _ r hr => absurd hr.symm (Option.some_ne_none r)
  | @idle commands command ih hrun hheld =>
    intro id r hr
    obtain ⟨b, before, after, hb, ht⟩ := ih id r (hrun ▸ hr)
    exact ⟨b, before, after ++ [command], hheld ▸ hb, ht.concat hr⟩
  | @bind commands schema doc document ih hnew hheld =>
    intro id r hr
    obtain ⟨w, hbind, hw, -⟩ := bind_spec (sound_run limit commands) schema hnew document
    have hrecords : (run limit (commands ++ [.bind schema doc document])).records =
        (run limit commands).records.insert doc w.record := by
      rw [run_concat, run_bind_of_ok hbind, hw.records_sealed]
    have hr' := hr
    rw [hrecords, OrderedMap.get?_insert] at hr'
    rw [hheld, OrderedMap.get?_insert]
    -- The new document has its record from this command on; the others have theirs from before.
    by_cases hid : id = doc
    · subst hid
      refine ⟨⟨schema, document⟩, commands, [], if_pos rfl, rfl, hnew, fun mid hmid => ?_⟩
      rw [List.prefix_nil.1 hmid]
      exact hr
    · rw [if_neg hid] at hr' ⊢
      obtain ⟨b, before, after, hb, ht⟩ := ih id r hr'
      exact ⟨b, before, after ++ [_], hb, ht.concat hr⟩
  | @unbind commands doc s ih hs hre =>
    intro id r hr
    have hr' := hr
    rw [hre.rest] at hr'
    have herase : ((run limit commands).records.erase doc).get? id = some r := hr'
    rw [OrderedMap.get?_erase] at herase
    -- The document that is taken out has no record, so this is another one.
    by_cases hid : id = doc
    · rw [if_pos hid] at herase
      exact absurd herase (Option.some_ne_none r).symm
    · rw [if_neg hid] at herase
      obtain ⟨b, before, after, hb, ht⟩ := ih id r herase
      refine ⟨b, before, after ++ [_], ?_, ht.concat hr⟩
      rw [held_concat, Command.hold, OrderedMap.get?_erase, if_neg hid, hb]
  | clear hrun =>
    intro id r hr
    rw [hrun] at hr
    exact absurd hr.symm (Option.some_ne_none r)

/-- What a document declares keeps its place under a command that leaves the document bound. -/
theorem Sound.exists_sameLinks_run {ix : Index} (h : ix.Sound) (command : Command)
    (hr : ix.records.get? id = some r) (hr' : (command.run ix).records.get? id = some r)
    {j : EntryId} (hj : j ∈ r.ledger.map Prod.snd) {e : Entry} (he : ix.entry? j = some e) :
    ∃ e', entry? (command.run ix) j = some e' ∧ Entries.SameLinks e e' := by
  -- The document declares the entry, so a change to another document does not disturb it.
  have hdecl : ∃ element, (⟨id, element⟩ : Declaration) ∈ e.declarations := by
    obtain ⟨⟨element, j⟩, hline, rfl⟩ := List.mem_map.1 hj
    exact ⟨element, (h.ordered.accounted.declared he).2 (by rw [ledger_eq hr]; exact hline)⟩
  obtain ⟨element, hmem⟩ := hdecl
  have hother : ∀ {other ix'}, other ≠ id → Undisturbed other ix ix' →
      ∃ e', ix'.entry? j = some e' ∧ Entries.SameLinks e e' := by
    intro other ix' hne hun
    obtain ⟨e', he', -, hparent, hkind, hpath, -⟩ := hun.entries he ⟨_, hmem, Ne.symm hne⟩
    exact ⟨e', he', hkind, hpath, hparent⟩
  cases command with
  | clear => exact nomatch hr'
  | bind schema other document =>
    cases ho : ix.records.get? other with
    | some s =>
      rw [run_bind_of_bound ho]
      exact ⟨e, he, rfl, rfl, rfl⟩
    | none =>
      obtain ⟨w, hbind, -⟩ := bind_spec h schema ho document
      rw [run_bind_of_ok hbind]
      refine hother ?_ (h.undisturbed_bind hbind)
      -- The document that is bound now had no record, so it is another one.
      rintro rfl
      rw [ho] at hr
      exact Option.some_ne_none r hr.symm
  | unbind other =>
    cases ho : ix.records.get? other with
    | none =>
      rw [run_unbind_of_not_bound ho]
      exact ⟨e, he, rfl, rfl, rfl⟩
    | some s =>
      obtain ⟨ix', hunbind, hre, -⟩ := unbind_spec h ho
      have hrun : (Command.unbind other).run ix = ix' := by
        rw [Command.run, Command.apply, hunbind]
      rw [hrun] at hr' ⊢
      refine hother ?_ (h.undisturbed_unbind hunbind)
      -- The document that is taken out has no record afterwards.
      rintro rfl
      rw [hre.rest] at hr'
      have herase : (ix.records.erase other).get? other = some r := hr'
      rw [OrderedMap.get?_erase, if_pos rfl] at herase
      exact Option.some_ne_none r herase.symm

/-- What a document declares keeps its place as long as the document is bound. -/
theorem Tenure.exists_sameLinks (h : Tenure limit commands id b r before after)
    {j : EntryId} (hj : j ∈ r.ledger.map Prod.snd) {e : Entry}
    (he : entry? (run limit (before ++ [.bind b.schema id b.doc])) j = some e)
    {mid : List Command} (hmid : mid <+: after) :
    ∃ e', entry? (run limit (before ++ .bind b.schema id b.doc :: mid)) j = some e' ∧
      Entries.SameLinks e e' := by
  induction mid using List.reverseRecOn with
  | nil => exact ⟨e, he, rfl, rfl, rfl⟩
  | append_singleton mid command ih =>
    have hfront : mid <+: after := (List.prefix_append mid [command]).trans hmid
    obtain ⟨e₁, he₁, hlinks₁⟩ := ih hfront
    have hbound := h.bound _ hmid
    rw [← List.cons_append, ← List.append_assoc, run_concat] at hbound ⊢
    obtain ⟨e', he', hlinks⟩ := (sound_run limit _).exists_sameLinks_run command
      (h.bound mid hfront) hbound hj he₁
    exact ⟨e', he', hlinks.kind.trans hlinks₁.kind, hlinks.path.trans hlinks₁.path,
      hlinks.parent.trans hlinks₁.parent⟩

end LayoutMarkup.Index
