import PeachDB.CutWrites
import PeachDB.IndexInvariant

/-!
# Flushes that fail and are made again

A flush that fails in the middle has written some items of its batch and may
have updated the state. On prompt files it leaves what the next flush is going
to leave: a record that is written again has the same field, and a tombstone
that is written again changes nothing. A file that leaves the refusal of a
tombstone to a later command lets the flush take the key out of the index
before it fails, and the next flush does not write the tombstone again.
-/

namespace PeachDB.Db

open Dtypes RecordCodec IndexCodec FileHandler WriteAheadLog Interleaving

/-- A tombstone that is written again changes nothing, and neither does a
flush that does not know the key any more. -/
theorem spared_spared (entry entry' : Option IndexEntry) (records : List Stored)
    (h : entry' = entry ∨ entry' = none) :
    spared entry' (spared entry records) = spared entry records := by
  rcases h with rfl | rfl
  · cases entry' with
    | none => rfl
    | some e =>
      simp only [spared, List.filter_filter, Bool.and_self]
  · rfl

section

variable [Crc]

/-- A flush that returns an error since a file command failed without effect:
the failing section writes neither to the data file nor to the index file. The
commands before have returned `Ok`. -/
inductive FailedAttempt (exec : Exec Choice Database Task) (db : Database) : Database → Prop
  | intro {trace : List Task} {db₁ db' : Database} {f : Flush} {choice : Choice} {e : Abort}
      (hrun : Run exec anyStep ⟨db, [.flush .start]⟩ trace ⟨db₁, [.flush f]⟩)
      (hfail : exec choice db₁ (.flush f) = some (db', .failed e))
      (hfile : db'.file = db₁.file) (hindexFile : db'.indexFile = db₁.indexFile) :
      FailedAttempt exec db db'

/-- What a flush at any stage has done to the records and the index entry of a
key: nothing, when the key has no item or its item is still to be written; or
the part of its item that concerns the next flush of the same log. -/
inductive PartlyAt (df₀ : DataFile) (db₀ : Database) (df : DataFile)
    (index : HashMap Key IndexEntry) (k : Key) : Prop
  /-- Nothing has been done for the key. -/
  | same (hlive : df.liveOf k = df₀.liveOf k)
      (hindex : index.lookup k = db₀.state.index.lookup k)
  /-- The key is set last; the next flush appends a record of it in any case. -/
  | set (field : Field) (hlast : lastEntry k db₀.wal.entries = some (.set k field))
  /-- The record of the index has been deleted. -/
  | deleted (hlast : lastEntry k db₀.wal.entries = some (.delete k))
      (hlive : df.liveOf k = spared (db₀.state.index.lookup k) (df₀.liveOf k))
      (hindex : index.lookup k = db₀.state.index.lookup k ∨ index.lookup k = none)

variable {df₀ df : DataFile} {db₀ db db' : Database} {f : Flush}

/-- A flush that runs alone leaves each key partly flushed. -/
theorem Alone.partlyAt (h : Alone df₀ db₀ df db f) (k : Key) :
    PartlyAt df₀ db₀ df db.state.index k := by
  by_cases hstage : .publish < f.stage
  · cases h.flushedAt hstage k with
    | kept _ hlive hindex => exact .same hlive hindex
    | set field _ hlast => exact .set field hlast
    | deleted hlast hlive hindex => exact .deleted hlast hlive (.inr hindex)
  · have hindex : db.state.index.lookup k = db₀.state.index.lookup k := by
      rw [h.unpublished (Nat.not_lt.mp hstage)]
    cases h.keys k with
    | untouched _ hlive => exact .same hlive hindex
    | set field _ hw hnet =>
      rw [h.lookup_net (Nat.le_trans (by decide) hw.1)] at hnet
      exact .set field hnet
    | deleted hw hnet hlive =>
      rw [h.lookup_net (Nat.le_trans (by decide) hw.1)] at hnet
      exact .deleted hnet hlive (.inl hindex)

/-- A database whose log can be flushed any number of times: keys that the log
deletes have no field, and of keys that it does not mention the index names
the last live record. -/
structure Retryable (df : DataFile) (db : Database) : Prop where
  /-- The data file is whole. -/
  sound : Sound df db
  /-- Keys without an entry in the log have their last live record in the index.
  -/
  names : ∀ k, lastEntry k db.wal.entries = none → ∀ e, db.state.index.lookup k = some e →
    ∃ x, (df.liveOf k).getLast? = some x ∧ x.IsAt k e
  /-- Keys whose last entry is a delete have no value. -/
  deleted : ∀ k, lastValue k db.wal.entries = some none → db.state.fields.lookup k = none

/-- A database in order can be flushed again. -/
theorem Aligned.retryable (h : Aligned df db) : Retryable df db where
  sound := h.sound
  names k _ := h.names k
  deleted k hk := h.logged k none hk

/-- The section that fails leaves the database as it is, or drops the entries
of the log that the flush has persisted. -/
theorem eq_of_failed {choice : Choice} {e : Abort}
    (h : Task.step choice db (.flush f) = some (db', .failed e)) (hfile : db'.file = db.file)
    (hindexFile : db'.indexFile = db.indexFile) :
    db' = db ∨ f.stage = .checkpoint ∧ ∃ file, db' = { db with wal := ⟨file, []⟩ } := by
  cases torn_of_failed h with
  | untouched => exact .inl rfl
  | append | tombstone | count =>
    dsimp only at hfile
    rw [hfile]
    exact .inl rfl
  | index indexFile hstage =>
    dsimp only at hindexFile
    rw [hindexFile]
    exact .inl rfl
  | checkpoint file hstage => exact .inr ⟨hstage, file, rfl⟩

/-- What a flush of the log is going to leave of each key is the same, and so
is what reads answer. -/
structure SameOutcome (df : DataFile) (db : Database) (df' : DataFile) (db' : Database) : Prop where
  /-- A flush would leave the same values. -/
  value : ∀ k, flushedValue df' db' k = flushedValue df db k
  /-- It would leave the same keys in the index. -/
  indexed : ∀ k, flushedIndexed db' k = flushedIndexed db k
  /-- The answers are the same. -/
  fields : ∀ k, db'.state.fields.lookup k = db.state.fields.lookup k

omit [Crc] in
/-- Outcomes that agree with a third one agree. -/
theorem SameOutcome.trans {df₁ df₂ df₃ : DataFile} {db₁ db₂ db₃ : Database}
    (h : SameOutcome df₁ db₁ df₂ db₂) (h' : SameOutcome df₂ db₂ df₃ db₃) :
    SameOutcome df₁ db₁ df₃ db₃ where
  value k := (h'.value k).trans (h.value k)
  indexed k := (h'.indexed k).trans (h.indexed k)
  fields k := (h'.fields k).trans (h.fields k)

/-- As long as the log is as before, a flush that stops at any stage leaves
the outcome of the next one the same. -/
theorem Alone.sameOutcome (h : Alone df₀ db₀ df db f) (h₀ : Retryable df₀ db₀)
    (hstage : f.stage ≤ .checkpoint) :
    Retryable df db ∧ SameOutcome df₀ db₀ df db := by
  have hentries : db.wal.entries = db₀.wal.entries := by rw [h.wal_old hstage]
  refine ⟨⟨h.sound, fun k hk e he => ?_, fun k hk => ?_⟩, fun k => ?_, fun k => ?_,
    h.lookup_fields h₀.deleted⟩
  · rw [hentries] at hk
    cases h.partlyAt k with
    | same hlive hindex =>
      rw [hlive]
      exact h₀.names k hk e (hindex ▸ he)
    | set field hlast =>
      rw [hk] at hlast
      cases hlast
    | deleted hlast =>
      rw [hk] at hlast
      cases hlast
  · rw [hentries] at hk
    rw [h.lookup_fields h₀.deleted, h₀.deleted k hk]
  · rw [flushedValue, flushedValue, hentries]
    cases h.partlyAt k with
    | same hlive hindex => rw [hlive, hindex, DataFile.lookup_fields, DataFile.lookup_fields, hlive]
    | set field hlast => rw [hlast]
    | deleted hlast hlive hindex =>
      rw [hlast]
      dsimp only
      rw [hlive, spared_spared _ _ _ hindex]
  · rw [flushedIndexed, flushedIndexed, hentries]
    cases h.partlyAt k with
    | same hlive hindex => rw [hindex]
    | set field hlast => rw [hlast]
    | deleted hlast => rw [hlast]

/-- When a flush has published its index and its entries have been dropped,
the next flush leaves what it has left. -/
theorem Alone.sameOutcome_dropped (h : Alone df₀ db₀ df db f) (h₀ : Retryable df₀ db₀)
    (hstage : .publish < f.stage) (file : Bytes) :
    Retryable df { db with wal := ⟨file, []⟩ } ∧
      SameOutcome df₀ db₀ df { db with wal := ⟨file, []⟩ } := by
  refine ⟨⟨⟨h.sound.file, h.sound.index, fun entry hentry => by cases hentry⟩, fun k _ e he => ?_,
    fun k hk => by cases hk⟩, fun k => ?_, fun k => ?_, h.lookup_fields h₀.deleted⟩
  · exact (h.flushedAt hstage k).isAt_getLast (h₀.names k) he
  · exact (h.flushedAt hstage k).lookup_fields
  · exact (h.flushedAt hstage k).isSome_lookup

/-- A flush on prompt files that has not failed has had no command refused. -/
theorem runOk_of_runPrompt {trace : List Task}
    (hrun : Run Task.stepPrompt anyStep ⟨db, [.flush .start]⟩ trace ⟨db', [.flush f]⟩) :
    Run Task.stepOk anyStep ⟨db, [.flush .start]⟩ trace ⟨db', [.flush f]⟩ := by
  have hsolo := hrun.solo
    (P := fun trace w t => (∀ e, t ≠ .failed e) →
      Run Task.stepOk anyStep ⟨db, [.flush .start]⟩ trace ⟨w, [t]⟩)
    ?_ fun _ => .refl
  · obtain ⟨w, t, hpool, hrun'⟩ := hsolo
    cases hpool
    exact hrun' nofun
  · rintro trace choice w t w' t' hexec ih hne
    rw [Task.stepPrompt, Option.ite_none_right_eq_some] at hexec
    have hbefore : ∀ e, t ≠ .failed e := by
      rintro e rfl
      cases hexec.2
    exact (ih hbefore).snoc (.move [] [] choice trivial (taskStepOk_of_step hexec.1 hexec.2 hne))

/-- A failed attempt on prompt files leaves a database whose log can be
flushed, to the same outcome. -/
theorem FailedAttempt.sameOutcome (h : FailedAttempt Task.stepPrompt db db')
    (hdb : Retryable df db) :
    ∃ df', Retryable df' db' ∧ SameOutcome df db df' db' := by
  cases h with
  | @intro trace db₁ db' f choice e hrun hfail hfile hindexFile =>
    replace hrun := runOk_of_runPrompt hrun
    rw [Task.stepPrompt, Option.ite_none_right_eq_some] at hfail
    replace hfail := hfail.2
    obtain ⟨df₁, _, _, hpool, halone⟩ := alone_of_sound hdb.sound hrun
    cases hpool
    rcases eq_of_failed hfail hfile hindexFile with rfl | ⟨hstage, file, rfl⟩
    · have hstage : f.stage ≤ .checkpoint := by
        cases hdone : f.stage with
        | done =>
          change f.step choice db' = _ at hfail
          rw [Flush.step, hdone] at hfail
          cases hfail
        | _ => decide
      exact ⟨df₁, halone.sameOutcome hdb hstage⟩
    · exact ⟨df₁, halone.sameOutcome_dropped hdb (by rw [hstage]; decide) file⟩

/-- Any number of failed attempts, one after another. -/
theorem sameOutcome_of_attempts (hdb : Retryable df db)
    (h : Relation.ReflTransGen (FailedAttempt Task.stepPrompt) db db') :
    ∃ df', Retryable df' db' ∧ SameOutcome df db df' db' := by
  induction h with
  | refl => exact ⟨df, hdb, ⟨fun _ => rfl, fun _ => rfl, fun _ => rfl⟩⟩
  | tail _ hattempt ih =>
    obtain ⟨df₁, hdb₁, hsame₁⟩ := ih
    obtain ⟨df₂, hdb₂, hsame₂⟩ := hattempt.sameOutcome hdb₁
    exact ⟨df₂, hdb₂, hsame₁.trans hsame₂⟩

/-- In every state that a session on a new database reaches, a flush on prompt
files may fail any number of times at commands without effect. No attempt changes an answer,
at no point of it; and a flush that succeeds in the end leaves the fields in
the data file, the keys in the index and the empty log that it would have left
at first, with index entries that name last live records. -/
theorem failed_flush_retries {name : String} {db₀ : Database} {calls : List Call}
    (hopen : Database.open name ⟨[], [], []⟩ = .ok db₀)
    (hcalls : ∀ entry, .write entry ∈ calls → entry.Encodable)
    (hsession : Session name anyCall db₀ calls db)
    (hattempts : Relation.ReflTransGen (FailedAttempt Task.stepPrompt) db db') :
    (∀ trace c, Run Task.stepOk anyStep ⟨db', [.flush .start]⟩ trace c →
      ∀ k, c.shared.get k = db.get k) ∧
    ∀ trace₁ c₁ trace₂ c₂,
      Run Task.stepOk anyStep ⟨db, [.flush .start]⟩ trace₁ c₁ →
        (∀ t ∈ c₁.tasks, t.Returned) →
      Run Task.stepOk anyStep ⟨db', [.flush .start]⟩ trace₂ c₂ →
      (∀ t ∈ c₂.tasks, t.Returned) →
      ∃ (df₁ df₂ : DataFile) (fields : HashMap Key Field),
        (c₁.shared.file = df₁.bytes ∧
          decodeFile c₁.shared.file = .ok (fields, df₁.header.info)) ∧
        (c₂.shared.file = df₂.bytes ∧
          decodeFile c₂.shared.file = .ok (fields, df₂.header.info)) ∧
        (∀ k, k ∈ c₁.shared.state.index ↔ k ∈ c₂.shared.state.index) ∧
        df₁.NamesLast c₁.shared.state.index ∧ df₂.NamesLast c₂.shared.state.index ∧
        c₁.shared.wal = ⟨[], []⟩ ∧ c₂.shared.wal = ⟨[], []⟩ := by
  obtain ⟨df, h⟩ := aligned_of_session hopen hcalls hsession
  obtain ⟨df', hdb', hsame⟩ := sameOutcome_of_attempts h.retryable hattempts
  refine ⟨fun trace c hrun k => ?_, fun trace₁ c₁ trace₂ c₂ hrun₁ hdone₁ hrun₂ hdone₂ => ?_⟩
  · obtain ⟨df₂, db₂, f, rfl, halone⟩ := alone_of_sound hdb'.sound hrun
    rw [get_eq, get_eq, readOf_eq_iff, halone.lookup_fields hdb'.deleted, hsame.fields]
  · obtain ⟨df₁, f₁, halone₁, hstage₁⟩ := alone_of_done h.sound hrun₁ hdone₁
    obtain ⟨df₂, f₂, halone₂, hstage₂⟩ := alone_of_done hdb'.sound hrun₂ hdone₂
    have hflushed₁ := halone₁.flushedAt_done hstage₁
    have hflushed₂ := halone₂.flushedAt_done hstage₂
    have hfields := fields_of_sameValues hflushed₁ hflushed₂ hsame.value
    refine ⟨df₁, df₂, df₁.fields, ⟨halone₁.sound.file, ?_⟩, ⟨halone₂.sound.file, ?_⟩,
      mem_iff_of_sameIndexed hflushed₁ hflushed₂ hsame.indexed,
      namesLast_of_flushedAt h.names hflushed₁, fun k e hk =>
        (hflushed₂ k).isAt_getLast (hdb'.names k) hk,
      halone₁.wal_done hstage₁, halone₂.wal_done hstage₂⟩
    · rw [halone₁.sound.file, decodeFile_bytes]
    · rw [halone₂.sound.file, decodeFile_bytes, hfields]

/-- Execute an attempt: the sections before the failing one, and that one. -/
def attempt (exec : Exec Choice Database Task) (schedule : List (ℕ × Choice)) (failing : Choice)
    (db : Database) : Option Database :=
  match drive exec anyStep schedule ⟨db, [.flush .start]⟩ with
  | some (_, ⟨db₁, [.flush f]⟩) =>
    match exec failing db₁ (.flush f) with
    | some (db', .failed _) =>
      if db'.file = db₁.file ∧ db'.indexFile = db₁.indexFile then some db' else none
    | _ => none
  | _ => none

omit [Crc] in
/-- An attempt that is executed is one. -/
theorem failedAttempt_of_attempt {exec : Exec Choice Database Task}
    {schedule : List (ℕ × Choice)} {failing : Choice}
    (h : attempt exec schedule failing db = some db') : FailedAttempt exec db db' := by
  rw [attempt] at h
  split at h
  · rename_i hdrive
    split at h
    · rename_i hfail
      rw [Option.ite_none_right_eq_some] at h
      obtain ⟨⟨hfile, hindexFile⟩, hout⟩ := h
      cases hout
      exact .intro (run_of_drive hdrive) hfail hfile hindexFile
    · cases h
  · cases h

end

open scoped IsoHdlc

/-- A key has been set. -/
def keyWritten : Option Database :=
  performAll "db" anyCall [(.write (.set (.ofText "k") (.primitive (.integer 1))), sections 0 2)]
    (Database.new "db" [] ⟨[], []⟩)

/-- The key is written. -/
theorem keyWritten_runs : keyWritten.isSome := by
  decide +kernel

/-- A flush of it fails when it syncs the data file. -/
def syncFailed : Option Database :=
  attempt Task.stepPrompt
    (takeBatch 0 [(.ofText "k", .set (.ofText "k") (.primitive (.integer 1)))] ++ sections 0 1)
    { Choice.plain with first := .failed 0 } (keyWritten.get keyWritten_runs)

/-- The flush fails at the sync behind its record. -/
theorem syncFailed_runs : syncFailed.isSome := by
  decide +kernel

/-- The next one fails when it truncates the log. -/
def checkpointFailed : Option Database :=
  attempt Task.stepPrompt
    (takeBatch 0 [(.ofText "k", .set (.ofText "k") (.primitive (.integer 1)))] ++ sections 0 5 ++
    copyIndex 0 [(.ofText "k", ⟨138, 1, 9⟩)] ++ sections 0 3)
    { Choice.plain with first := .failed 0 } (syncFailed.get syncFailed_runs)

/-- The next flush fails at the truncation of the log. -/
theorem checkpointFailed_runs : checkpointFailed.isSome := by
  decide +kernel

/-- A flush of the written key succeeds. -/
theorem flush_keyWritten_runs :
    (drive Task.stepOk anyStep
      (takeBatch 0 [(.ofText "k", .set (.ofText "k") (.primitive (.integer 1)))] ++
      sections 0 5 ++ copyIndex 0 [(.ofText "k", ⟨114, 1, 9⟩)] ++ sections 0 4)
      ⟨keyWritten.get keyWritten_runs, [.flush .start]⟩).isSome := by
  decide +kernel

/-- The third flush succeeds. -/
theorem flush_checkpointFailed_runs :
    (drive Task.stepOk anyStep (takeBatch 0 [] ++ sections 0 4 ++
      copyIndex 0 [(.ofText "k", ⟨138, 1, 9⟩)] ++ sections 0 4)
      ⟨checkpointFailed.get checkpointFailed_runs, [.flush .start]⟩).isSome := by
  decide +kernel

/-- The third flush succeeds: the file has the record twice, and decodes to
what a first flush would have left. -/
theorem failed_flush_retries_twice :
    let c₁ := ((drive Task.stepOk anyStep _ _).get flush_keyWritten_runs).2
    let c₂ := ((drive Task.stepOk anyStep _ _).get flush_checkpointFailed_runs).2
    c₁.shared.file ≠ c₂.shared.file ∧ ∃ fields info₁ info₂,
      decodeFile c₁.shared.file = .ok (fields, info₁) ∧
      decodeFile c₂.shared.file = .ok (fields, info₂) := by
  dsimp only
  have hsession : Session "db" anyCall _ _ _ :=
    session_of_performAll .nil (Option.some_get keyWritten_runs).symm
  have hfailed : FailedAttempt Task.stepPrompt _ _ :=
    failedAttempt_of_attempt (Option.some_get syncFailed_runs).symm
  have hagain : FailedAttempt Task.stepPrompt _ _ :=
    failedAttempt_of_attempt (Option.some_get checkpointFailed_runs).symm
  have hattempts := (Relation.ReflTransGen.single hfailed).tail hagain
  have hcalls : ∀ entry : WalEntry,
      .write entry ∈ [Call.write (.set (.ofText "k") (.primitive (.integer 1)))] →
      entry.Encodable := by
    intro entry hentry
    obtain rfl := Call.write.inj (List.mem_singleton.mp hentry)
    decide
  obtain ⟨df₁, df₂, fields, h₁, h₂, -⟩ :=
    (failed_flush_retries rfl hcalls hsession hattempts).2 _ _ _ _
    (run_get_drive flush_keyWritten_runs) (by decide +kernel)
    (run_get_drive flush_checkpointFailed_runs) (by decide +kernel)
  exact ⟨by decide +kernel, fields, df₁.header.info, df₂.header.info, h₁.2, h₂.2⟩

/-- A key is set, flushed and deleted. -/
def keyDeleted : List (Call × List (ℕ × Choice)) :=
  [(.write (.set (.ofText "k") (.primitive (.integer 1))), sections 0 2),
    (.flush, takeBatch 0 [(.ofText "k", .set (.ofText "k") (.primitive (.integer 1)))] ++
      sections 0 5 ++ copyIndex 0 [(.ofText "k", ⟨114, 1, 9⟩)] ++ sections 0 4),
    (.write (.delete (.ofText "k")), sections 0 2)]

/-- The session comes to its end. -/
theorem keyDeleted_runs :
    (performAll "db" anyCall keyDeleted (Database.new "db" [] ⟨[], []⟩)).isSome := by
  decide +kernel

/-- The data file takes over the tombstone, which the system then refuses; the
error is returned by the command that writes the record count. -/
def tombstoneDeferred : Option Database :=
  attempt Task.step (takeBatch 0 [(.ofText "k", .delete (.ofText "k"))] ++
      [(0, { Choice.plain with first := .deferred 0 })] ++ sections 0 3)
    { Choice.plain with first := .failed 0 }
    ((performAll "db" anyCall keyDeleted (Database.new "db" [] ⟨[], []⟩)).get keyDeleted_runs)

/-- The flush fails behind its tombstone. -/
theorem tombstoneDeferred_runs : tombstoneDeferred.isSome := by
  decide +kernel

/-- A first flush of the deletion succeeds. -/
theorem flush_keyDeleted_runs :
    (drive Task.stepOk anyStep
      (takeBatch 0 [(.ofText "k", .delete (.ofText "k"))] ++ sections 0 5 ++
      copyIndex 0 [] ++ sections 0 4)
      ⟨(performAll "db" anyCall keyDeleted (Database.new "db" [] ⟨[], []⟩)).get
        keyDeleted_runs, [.flush .start]⟩).isSome := by
  decide +kernel

/-- The second flush of the deletion succeeds. -/
theorem flush_tombstoneDeferred_runs :
    (drive Task.stepOk anyStep
      (takeBatch 0 [(.ofText "k", .delete (.ofText "k"))] ++ sections 0 5 ++
      copyIndex 0 [] ++ sections 0 4)
      ⟨tombstoneDeferred.get tombstoneDeferred_runs, [.flush .start]⟩).isSome := by
  decide +kernel

/-- A flush that succeeds at first deletes the key. One that is made again
truncates the log without a tombstone, and the key is back after reopening. -/
theorem retried_flush_restores_deleted :
    let db := (performAll "db" anyCall keyDeleted (Database.new "db" [] ⟨[], []⟩)).get
      keyDeleted_runs
    let db' := tombstoneDeferred.get tombstoneDeferred_runs
    let c₁ := ((drive Task.stepOk anyStep _ _).get flush_keyDeleted_runs).2
    let c₂ := ((drive Task.stepOk anyStep _ _).get flush_tombstoneDeferred_runs).2
    Session "db" anyCall (Database.new "db" [] ⟨[], []⟩) (keyDeleted.map Prod.fst) db ∧
      FailedAttempt Task.step db db' ∧
      (∀ t ∈ c₁.tasks, t.Returned) ∧ c₁.shared.wal = ⟨[], []⟩ ∧
      (decodeFile c₁.shared.file).toOption.map Prod.fst = some ∅ ∧
      (∀ t ∈ c₂.tasks, t.Returned) ∧ c₂.shared.wal = ⟨[], []⟩ ∧
      (Database.open "db" c₂.shared.disk).toOption.bind
          (fun db => (db.get (.ofText "k")).toOption) = some (.primitive (.integer 1)) :=
  ⟨session_of_performAll .nil (Option.some_get keyDeleted_runs).symm,
    failedAttempt_of_attempt (Option.some_get tombstoneDeferred_runs).symm, by decide +kernel,
    by decide +kernel, by decide +kernel, by decide +kernel, by decide +kernel, by decide +kernel⟩

end PeachDB.Db
