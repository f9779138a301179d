import PeachDB.Database

/-!
# What each section does

The replay, the deduplication and the delete plan as functions of single keys,
and one case per section for the steps without a failing file command. Later
modules argue about these cases and not about the step function.
-/

namespace PeachDB.Db

open LittleEndian Dtypes RecordCodec IndexCodec FileHandler WriteAheadLog Interleaving

/-- The last update that a list of entries makes to a key. -/
def lastValue (k : Key) (entries : List WalEntry) : Option (Option Field) :=
  lastOf k (entries.map WalEntry.update)

/-- An empty log says nothing about a key. -/
@[simp] theorem lastValue_nil (k : Key) : lastValue k [] = none := rfl

/-- The last entry of a log decides its own key. -/
theorem lastValue_concat (k : Key) (entries : List WalEntry) (entry : WalEntry) :
    lastValue k (entries ++ [entry]) =
      if k = entry.key then some entry.value else lastValue k entries := by
  rw [lastValue, List.map_append, List.map_singleton, lastOf_concat]
  rfl

/-- Replaying an entry is one update of the map. -/
theorem applyEntry_eq (fields : HashMap Key Field) (entry : WalEntry) :
    applyEntry fields entry = applyUpdate fields entry.update := by
  cases entry <;> rfl

/-- Replay is the replay of the updates. -/
theorem replay_eq (fields : HashMap Key Field) (entries : List WalEntry) :
    replay fields entries = applyAll fields (entries.map WalEntry.update) := by
  rw [replay, applyAll, List.foldl_map]
  congr 1
  funext fields entry
  exact applyEntry_eq fields entry

/-- The last entry is replayed last. -/
theorem replay_concat (fields : HashMap Key Field) (entries : List WalEntry) (entry : WalEntry) :
    replay fields (entries ++ [entry]) = applyEntry (replay fields entries) entry :=
  List.foldl_concat ..

/-- A key has the value of its last entry, or else the one of before. -/
theorem lookup_replay (fields : HashMap Key Field) (entries : List WalEntry) (k : Key) :
    (replay fields entries).lookup k = (lastValue k entries).getD (fields.lookup k) := by
  rw [replay_eq, lookup_applyAll, lastValue]

/-- An entry changes its own key alone. -/
theorem lookup_applyEntry (fields : HashMap Key Field) (entry : WalEntry) (k : Key) :
    (applyEntry fields entry).lookup k = if k = entry.key then entry.value
      else fields.lookup k := by
  rw [applyEntry_eq, lookup_applyUpdate]
  rfl

/-- The last entry for a key in a list of entries. -/
def lastEntry (k : Key) (entries : List WalEntry) : Option WalEntry :=
  lastOf k (entries.map fun entry => (entry.key, entry))

/-- An empty log has no last entry. -/
@[simp] theorem lastEntry_nil (k : Key) : lastEntry k [] = none := rfl

/-- The last entry of a log is the last one of its own key. -/
theorem lastEntry_concat (k : Key) (entries : List WalEntry) (entry : WalEntry) :
    lastEntry k (entries ++ [entry]) = if k = entry.key then some entry
      else lastEntry k entries := by
  rw [lastEntry, List.map_append, List.map_singleton, lastOf_concat]
  rfl

/-- The last entry of a key is an entry of the log, and one of the key. -/
theorem mem_of_lastEntry {entries : List WalEntry} {k : Key} {entry : WalEntry}
    (h : lastEntry k entries = some entry) : entry ∈ entries ∧ entry.key = k := by
  obtain ⟨x, hx, heq⟩ := List.mem_map.mp (mem_of_lastOf h)
  cases heq
  exact ⟨hx, rfl⟩

/-- The last entry makes the last update. -/
theorem map_value_lastEntry (k : Key) (entries : List WalEntry) :
    (lastEntry k entries).map WalEntry.value = lastValue k entries := by
  have hmap := lastOf_map k (entries.map fun entry => (entry.key, entry)) fun _ entry => entry.value
  rw [List.map_map] at hmap
  exact hmap.symm

/-- A key is set last when its last entry sets it. -/
theorem lastEntry_of_set {k : Key} {entries : List WalEntry} {field : Field}
    (h : lastValue k entries = some (some field)) : lastEntry k entries = some (.set k field) := by
  rw [← map_value_lastEntry] at h
  obtain ⟨entry, hentry, hvalue⟩ := Option.map_eq_some_iff.mp h
  have hkey := (mem_of_lastEntry hentry).2
  cases entry with
  | set key f =>
    cases hkey
    cases hvalue
    exact hentry
  | delete key => cases hvalue

/-- A key is deleted last when its last entry deletes it. -/
theorem lastEntry_of_delete {k : Key} {entries : List WalEntry}
    (h : lastValue k entries = some none) :
    lastEntry k entries = some (.delete k) := by
  rw [← map_value_lastEntry] at h
  obtain ⟨entry, hentry, hvalue⟩ := Option.map_eq_some_iff.mp h
  have hkey := (mem_of_lastEntry hentry).2
  cases entry with
  | set key f => cases hvalue
  | delete key =>
    cases hkey
    exact hentry

/-- The batch holds the last entry of each key. -/
theorem lookup_netOf (entries : List WalEntry) (k : Key) :
    (netOf entries).lookup k = lastEntry k entries := by
  have hinsert := lookup_insertAll ∅ (entries.map fun entry => (entry.key, entry)) k
  rw [insertAll, List.foldl_map, Finmap.lookup_empty, Option.or_none] at hinsert
  exact hinsert

/-- The plan holds the index entries of the keys whose last entry deletes. -/
theorem lookup_deletePlanOf (net : HashMap Key WalEntry) (index : HashMap Key IndexEntry)
    (k : Key) :
    (deletePlanOf net index).lookup k =
      if (net.lookup k).map WalEntry.value = some none then index.lookup k else none := by
  obtain ⟨l, hl⟩ := IterOrder.exists_of net
  have hfold : ∀ l : List (Key × WalEntry), (l.map Prod.fst).Nodup →
      (l.foldl (fun plan e => planEntry index plan e.1 e.2) ∅).lookup k =
        if (lastOf k l).map WalEntry.value = some none then index.lookup k else none := by
    intro l hnodup
    induction l using List.reverseRecOn with
    | nil => rfl
    | append_singleton l e ih =>
      rw [List.map_append, List.nodup_append] at hnodup
      rw [List.foldl_append, List.foldl_cons, List.foldl_nil, lookup_planEntry, lastOf_concat]
      by_cases hk : k = e.1
      · subst hk
        have hfresh : lastOf e.1 l = none := by
          rw [lastOf_eq_none_iff]
          exact fun x hx => hnodup.2.2 x.1 (List.mem_map_of_mem hx) e.1 (by simp)
        rw [ih hnodup.1, hfresh, if_pos rfl]
        by_cases hv : e.2.value = none
        · cases hi : index.lookup e.1 with
          | none => simp [hv]
          | some entry => simp [hv]
        · simp [hv]
      · simp only [hk, false_and, if_false]
        exact ih hnodup.1
  rw [deletePlanOf, hl.foldl_eq, hfold l hl.nodup, hl.lastOf_eq]

/-- A key that is deleted is planned with the entry of the index. -/
theorem lookup_deletePlanOf_of_delete {net : HashMap Key WalEntry} {k key : Key}
    (h : net.lookup k = some (.delete key)) (index : HashMap Key IndexEntry) :
    (deletePlanOf net index).lookup k = index.lookup k := by
  rw [lookup_deletePlanOf, h]
  exact if_pos rfl

/-- The state update takes the planned keys out of the index and adds the new
entries. -/
theorem lookup_index_publish (state : State) (indexes : List (Key × IndexEntry))
    (deletePlan : HashMap Key IndexEntry) (k : Key) :
    (publish state indexes deletePlan).index.lookup k =
      if k ∈ deletePlan then none else (lastOf k indexes).or (state.index.lookup k) := by
  rw [publish, lookup_removeKeys, lookup_insertAll]

/-- The state update takes the planned keys out of the fields. -/
theorem lookup_fields_publish (state : State) (indexes : List (Key × IndexEntry))
    (deletePlan : HashMap Key IndexEntry) (k : Key) :
    (publish state indexes deletePlan).fields.lookup k =
      if k ∈ deletePlan then none else state.fields.lookup k := by
  rw [publish, lookup_removeKeys]

/-- The place of a stage in the order of the sections of a flush. -/
@[simp] def Stage.rank : Stage → ℕ
  | .pop => 0
  | .plan => 1
  | .batch => 2
  | .publish => 3
  | .countFields => 4
  | .writeCount => 5
  | .cloneIndex => 6
  | .truncIndex => 7
  | .writeIndex => 8
  | .syncIndex => 9
  | .checkpoint => 10
  | .done => 11

instance : LE Stage := ⟨fun a b => a.rank ≤ b.rank⟩

instance : LT Stage := ⟨fun a b => a.rank < b.rank⟩

instance (a b : Stage) : Decidable (a ≤ b) := inferInstanceAs (Decidable (a.rank ≤ b.rank))

instance (a b : Stage) : Decidable (a < b) := inferInstanceAs (Decidable (a.rank < b.rank))

/-- Stages are ordered by their ranks. -/
theorem Stage.le_iff (a b : Stage) : a ≤ b ↔ a.rank ≤ b.rank := Iff.rfl

/-- Stages are ordered strictly by their ranks. -/
theorem Stage.lt_iff (a b : Stage) : a < b ↔ a.rank < b.rank := Iff.rfl

/-- The order of the stages is total. -/
theorem Stage.not_le {a b : Stage} : ¬ a ≤ b ↔ b < a := Nat.not_le

/-- The extent of a record that is appended to a file of the given length. -/
def entryAt (pos : ℕ) (key : Key) (field : Field) : IndexEntry :=
  ⟨UInt64.ofNat pos, UInt16.ofNat key.len, UInt32.ofNat (bytesFromField field).length⟩

/-- What a flush writes over the record of a deleted key. -/
def tombstoneOf (entry : IndexEntry) : Bytes :=
  (((DBDeleter.new.setKeyLen entry.keyLen).setFieldLen entry.fieldLen).getDeletedField).finish

/-- The steps in which no file command fails, one case per section. -/
inductive Moves [Crc] : Database → Task → Database → Task → Prop
  /-- `append_entry`. -/
  | append (db : Database) (entry : WalEntry) :
      Moves db (.write entry .append)
        { db with wal := ⟨db.wal.file ++ walBytes entry, db.wal.entries ++ [entry]⟩ }
        (.write entry .update)
  /-- `set` or `delete` updates the state. -/
  | update (db : Database) (entry : WalEntry) :
      Moves db (.write entry .update)
        { db with state := { db.state with fields := applyEntry db.state.fields entry } }
        (.write entry .done)
  /-- `get` reads the state. -/
  | get (db : Database) (key : Key) : Moves db (.get key none) db (.get key (some (db.get key)))
  /-- `flush` copies the log. -/
  | pop (db : Database) (f : Flush) (hstage : f.stage = .pop) :
      Moves db (.flush f) db (.flush { f with stage := .plan, net := netOf db.wal.entries })
  /-- `flush` makes its plan. -/
  | plan (db : Database) (f : Flush) (batch : List (Key × WalEntry)) (hstage : f.stage = .plan)
      (hbatch : IterOrder f.net batch) :
      Moves db (.flush f) db
        (.flush { f with
          stage := .batch
          deletePlan := deletePlanOf f.net db.state.index
          todo := batch.map Prod.snd })
  /-- `flush` appends the record of a set. -/
  | appendItem (db : Database) (f : Flush) (key : Key) (field : Field) (todo : List WalEntry)
      (hstage : f.stage = .batch) (htodo : f.todo = .set key field :: todo)
      (hfits : db.file.length ≤ maxFileLen) :
      Moves db (.flush f) { db with file := db.file ++ encode key field }
        (.flush { f with todo, indexes := f.indexes ++ [(key, entryAt db.file.length key field)] })
  /-- `flush` passes over a delete of a key without a plan. -/
  | skipItem (db : Database) (f : Flush) (key : Key) (todo : List WalEntry)
      (hstage : f.stage = .batch) (htodo : f.todo = .delete key :: todo)
      (hplan : f.deletePlan.lookup key = none) :
      Moves db (.flush f) db (.flush { f with todo })
  /-- `flush` writes the tombstone of a delete. -/
  | tombstoneItem (db : Database) (f : Flush) (key : Key) (todo : List WalEntry)
      (entry : IndexEntry) (hstage : f.stage = .batch) (htodo : f.todo = .delete key :: todo)
      (hplan : f.deletePlan.lookup key = some entry) :
      Moves db (.flush f)
        { db with file := overwrite db.file entry.offset.toNat (tombstoneOf entry) }
        (.flush { f with todo })
  /-- `flush` syncs the data file. -/
  | sync (db : Database) (f : Flush) (hstage : f.stage = .batch) (htodo : f.todo = []) :
      Moves db (.flush f) db (.flush { f with stage := .publish })
  /-- `flush` updates the state. -/
  | publish (db : Database) (f : Flush) (hstage : f.stage = .publish) :
      Moves db (.flush f) { db with state := publish db.state f.indexes f.deletePlan }
        (.flush { f with stage := .countFields })
  /-- `update_record_count` counts the fields. -/
  | countFields (db : Database) (f : Flush) (hstage : f.stage = .countFields) :
      Moves db (.flush f) db
        (.flush { f with
          stage := .writeCount
          count := UInt64.ofNat (Multiset.card db.state.fields.entries) })
  /-- `update_record_count` writes the count. -/
  | writeCount (db : Database) (f : Flush) (hstage : f.stage = .writeCount) :
      Moves db (.flush f) { db with file := overwrite db.file 34 (ofU64 f.count) }
        (.flush { f with stage := .cloneIndex })
  /-- `rebuild_index` copies the index. -/
  | cloneIndex (db : Database) (f : Flush) (order : List (Key × IndexEntry))
      (hstage : f.stage = .cloneIndex) (horder : IterOrder db.state.index order) :
      Moves db (.flush f) db
        (.flush { f with
          stage := .truncIndex
          index := db.state.index
          encoded := (IndexEncoder.new.encodeIndexFile order).finish })
  /-- `rebuild_index` truncates the index file. -/
  | truncIndex (db : Database) (f : Flush) (hstage : f.stage = .truncIndex) :
      Moves db (.flush f) { db with indexFile := [] } (.flush { f with stage := .writeIndex })
  /-- `rebuild_index` writes its copy. -/
  | writeIndex (db : Database) (f : Flush) (hstage : f.stage = .writeIndex) :
      Moves db (.flush f) { db with indexFile := overwrite db.indexFile 0 f.encoded }
        (.flush { f with stage := .syncIndex })
  /-- `rebuild_index` syncs the index file. -/
  | syncIndex (db : Database) (f : Flush) (hstage : f.stage = .syncIndex) :
      Moves db (.flush f) db (.flush { f with stage := .checkpoint })
  /-- `checkpoint` clears the log. -/
  | checkpoint (db : Database) (f : Flush) (hstage : f.stage = .checkpoint) :
      Moves db (.flush f) { db with wal := ⟨[], []⟩ } (.flush { f with stage := .done })

variable [Crc] {choice : Choice} {db db' : Database} {t t' : Task}

/-- A step in which no command is refused is one on prompt files that does not
fail. -/
theorem taskStepOk_iff : Task.stepOk choice db t = some (db', t') ↔
    choice.Prompt ∧ Task.step choice db t = some (db', t') ∧ ∀ e, t' ≠ .failed e := by
  rw [Task.stepOk, Task.stepPrompt]
  constructor
  · intro h
    split at h
    · cases h
    · next hne =>
      obtain ⟨hprompt, hstep⟩ := Option.ite_none_right_eq_some.mp h
      exact ⟨hprompt, hstep, fun e he => hne db' e (he ▸ h)⟩
  · rintro ⟨hprompt, hstep, hne⟩
    rw [if_pos hprompt, hstep]
    split
    · next heq =>
      cases heq
      exact absurd rfl (hne _)
    · rfl

/-- A step without a failing command is a step. -/
theorem step_of_stepOk (h : Task.stepOk choice db t = some (db', t')) :
    Task.step choice db t = some (db', t') ∧ ∀ e, t' ≠ .failed e :=
  (taskStepOk_iff.mp h).2

/-- In a step without a failing command the files are prompt. -/
theorem prompt_of_stepOk (h : Task.stepOk choice db t = some (db', t')) : choice.Prompt :=
  (taskStepOk_iff.mp h).1

/-- A step on prompt files that does not fail is one in which no command is
refused. -/
theorem taskStepOk_of_step (hprompt : choice.Prompt) (h : Task.step choice db t = some (db', t'))
    (hne : ∀ e, t' ≠ .failed e) : Task.stepOk choice db t = some (db', t') :=
  taskStepOk_iff.mpr ⟨hprompt, h, hne⟩

omit [Crc] in
/-- A section goes on only when its command succeeded. -/
theorem eq_of_proceed {db₁ : Database} {result : PDBResult Unit} {next : Task}
    (h : proceed db₁ result next = (db', t')) (hne : ∀ e, t' ≠ .failed e) :
    result = .ok () ∧ db' = db₁ ∧ t' = next := by
  cases result with
  | error e =>
    cases h
    exact absurd rfl (hne e)
  | ok u =>
    cases h
    exact ⟨rfl, rfl, rfl⟩

omit [Crc] in
/-- A section fails only when its command did. -/
theorem eq_of_proceed_failed {db₁ : Database} {result : PDBResult Unit} {next : Task} {e : Abort}
    (hnext : ∀ e, next ≠ .failed e) (h : proceed db₁ result next = (db', .failed e)) :
    db' = db₁ ∧ result = .error e := by
  obtain ⟨rfl, hresult⟩ := Prod.mk.inj h
  cases result with
  | ok u => exact absurd hresult (hnext e)
  | error e' =>
    cases hresult
    exact ⟨rfl, rfl⟩

/-- An item of the batch on a prompt file. -/
theorem moves_of_batchItem {f : Flush} {entry : WalEntry} {todo : List WalEntry} {io : Verdict}
    (hio : io.Prompt) (hstage : f.stage = .batch) (htodo : f.todo = entry :: todo)
    (h : f.batchItem io db todo entry = (db', t')) (hne : ∀ e, t' ≠ .failed e) :
    Moves db (.flush f) db' t' := by
  cases entry with
  | set key field =>
    simp only [Flush.batchItem] at h
    split at h
    · cases h
      exact absurd rfl (hne _)
    · rename_i happend
      obtain ⟨hfits, rfl, rfl⟩ := append_ok hio happend
      cases h
      exact .appendItem db f key field todo hstage htodo hfits
  | delete key =>
    simp only [Flush.batchItem] at h
    split at h
    · rename_i hplan
      cases h
      exact .skipItem db f key todo hstage htodo hplan
    · rename_i entry hplan
      cases hwrite : writeAt io db.file entry.offset (tombstoneOf entry) with
      | mk result file =>
        rw [tombstoneOf] at hwrite
        rw [hwrite] at h
        obtain ⟨rfl, rfl, rfl⟩ := eq_of_proceed h hne
        rw [writeAt_ok hio hwrite]
        exact .tombstoneItem db f key todo entry hstage htodo hplan

/-- A section of a flush on prompt files that does not fail. -/
theorem moves_of_flushStep {f : Flush} (hprompt : choice.Prompt)
    (h : f.step choice db = some (db', t')) (hne : ∀ e, t' ≠ .failed e) :
    Moves db (.flush f) db' t' := by
  unfold Flush.step at h
  split at h
  · rename_i hstage
    cases h
    exact .pop db f hstage
  · rename_i hstage
    split at h
    · rename_i hbatch
      cases h
      exact .plan db f _ hstage hbatch
    · cases h
  · rename_i hstage
    split at h
    · rename_i htodo
      obtain ⟨-, rfl, rfl⟩ := eq_of_proceed (Option.some.inj h) hne
      exact .sync _ f hstage htodo
    · rename_i htodo
      exact moves_of_batchItem hprompt.1 hstage htodo (Option.some.inj h) hne
  · rename_i hstage
    cases h
    exact .publish db f hstage
  · rename_i hstage
    cases h
    exact .countFields db f hstage
  · rename_i hstage
    cases hcommand : writeAt choice.first db.file recordCountOffset (ofU64 f.count) with
    | mk result out =>
      rw [hcommand] at h
      obtain ⟨rfl, rfl, rfl⟩ := eq_of_proceed (Option.some.inj h) hne
      rw [writeAt_ok hprompt.1 hcommand]
      exact .writeCount db f hstage
  · rename_i hstage
    split at h
    · rename_i horder
      cases h
      exact .cloneIndex db f _ hstage horder
    · cases h
  · rename_i hstage
    cases hcommand : setLen choice.first db.indexFile 0 with
    | mk result out =>
      rw [hcommand] at h
      obtain ⟨rfl, rfl, rfl⟩ := eq_of_proceed (Option.some.inj h) hne
      rw [setLen_zero_ok hcommand]
      exact .truncIndex db f hstage
  · rename_i hstage
    cases hcommand : writeAt choice.first db.indexFile 0 f.encoded with
    | mk result out =>
      rw [hcommand] at h
      obtain ⟨rfl, rfl, rfl⟩ := eq_of_proceed (Option.some.inj h) hne
      rw [writeAt_ok hprompt.1 hcommand]
      exact .writeIndex db f hstage
  · rename_i hstage
    obtain ⟨-, rfl, rfl⟩ := eq_of_proceed (Option.some.inj h) hne
    exact .syncIndex _ f hstage
  · rename_i hstage
    cases hcommand : db.wal.checkpoint choice.first choice.second with
    | mk result out =>
      rw [hcommand] at h
      obtain ⟨rfl, rfl, rfl⟩ := eq_of_proceed (Option.some.inj h) hne
      rw [Wal.checkpoint_ok hcommand]
      exact .checkpoint db f hstage
  · cases h

/-- Every step without a failing command is one of the cases. -/
theorem moves_of_stepOk (h : Task.stepOk choice db t = some (db', t')) : Moves db t db' t' := by
  obtain ⟨hstep, hne⟩ := step_of_stepOk h
  unfold Task.step at hstep
  split at hstep
  · rename_i entry
    cases hcommand : db.wal.appendEntry choice.first choice.second entry with
    | mk result out =>
      rw [hcommand] at hstep
      obtain ⟨rfl, rfl, rfl⟩ := eq_of_proceed (Option.some.inj hstep) hne
      rw [Wal.appendEntry_ok (prompt_of_stepOk h).1 hcommand]
      exact .append db entry
  · cases hstep
    exact .update db _
  · cases hstep
  · cases hstep
    exact .get db _
  · cases hstep
  · exact moves_of_flushStep (prompt_of_stepOk h) hstep hne
  · cases hstep

end PeachDB.Db
