import PeachDB.FlushOutcome

/-!
# Sequential runs

Calls on one database that return before the next one begins, and closing and
opening it again. Between two calls the data file, the index, the index file
and the log fit together, and replaying the log over the data file gives the
fields. A flush keeps that as long as it deletes no key with several live
records, of which it would make only the last one a tombstone.
-/

namespace PeachDB.Db

open Dtypes RecordCodec IndexCodec FileHandler WriteAheadLog Interleaving

/-- A step of a sequential run: a `set` or `delete`, by its log entry, a
`flush`, or closing the database and opening it again. -/
inductive Call
  /-- `set` or `delete`. -/
  | write (entry : WalEntry)
  /-- `flush`. -/
  | flush
  /-- The database is opened again. -/
  | reopen
  deriving DecidableEq

/-- The log entries of the writes. -/
def writesOf (calls : List Call) : List WalEntry :=
  calls.filterMap fun call => match call with
    | .write entry => some entry
    | .flush | .reopen => none

/-- What a read must answer: the field of the last `set` of the key when no
`delete` of the key came after it. -/
def expectedRead (calls : List Call) (k : Key) : PDBResult Field :=
  match lastValue k (writesOf calls) with
  | some (some field) => .ok field
  | _ => failWith .keyNotFound

/-- A written key is not empty, and the entry can be encoded. -/
def Call.Valid : Call → Prop
  | .write entry => entry.Encodable ∧ entry.key.asBytes ≠ []
  | .flush | .reopen => True

instance : DecidablePred Call.Valid
  | .write entry => inferInstanceAs (Decidable (entry.Encodable ∧ entry.key.asBytes ≠ []))
  | .flush | .reopen => isTrue trivial

section

variable [Crc]

/-- The keys that a flush is going to delete have one live record at most. -/
def DeletesSingle (db : Database) : Call → Prop
  | .flush => ∀ entry ∈ db.wal.entries,
      lastValue entry.key db.wal.entries = some none → liveCount db.file entry.key ≤ 1
  | .write _ | .reopen => True

instance (db : Database) : DecidablePred (DeletesSingle db)
  | .flush => inferInstanceAs (Decidable (∀ entry ∈ db.wal.entries, _ = some none →
    liveCount _ _ ≤ 1))
  | .write _ | .reopen => isTrue trivial

/-- One call, executed to its end without a failing command. -/
inductive Returns (name : String) : Database → Call → Database → Prop
  /-- `set` or `delete` has run to its end. -/
  | write {db : Database} {trace : List Task} {c : Pool Database Task} (entry : WalEntry)
      (hrun : Run Task.stepOk anyStep ⟨db, [.write entry .append]⟩ trace c)
      (hdone : ∀ t ∈ c.tasks, t.Returned) : Returns name db (.write entry) c.shared
  /-- `flush` has run to its end. -/
  | flush {db : Database} {trace : List Task} {c : Pool Database Task}
      (hrun : Run Task.stepOk anyStep ⟨db, [.flush .start]⟩ trace c)
      (hdone : ∀ t ∈ c.tasks, t.Returned) : Returns name db .flush c.shared
  /-- The files have been opened again. -/
  | reopen {db db' : Database} (hopen : Database.open name db.disk = .ok db') :
      Returns name db .reopen db'

/-- Calls one after another, each under the guard. -/
inductive Session (name : String) (guard : Database → Call → Prop) (db₀ : Database) :
    List Call → Database → Prop
  /-- No call has been made. -/
  | nil : Session name guard db₀ [] db₀
  /-- One more call has returned. -/
  | snoc {calls : List Call} {db db' : Database} {call : Call}
      (hsession : Session name guard db₀ calls db) (hguard : guard db call)
      (hreturns : Returns name db call db') : Session name guard db₀ (calls ++ [call]) db'

/-- Between two calls the files, the index and the fields fit together. -/
structure Settled (df : DataFile) (db : Database) : Prop extends Recoverable df db where
  /-- Data file and log together give the fields. -/
  fields : replay df.fields db.wal.entries = db.state.fields
  /-- The index knows all live records. -/
  covered : df.Covered db.state.index
  /-- The index file encodes the index. -/
  indexFile : Encodes db.indexFile db.state.index

variable {name : String} {df : DataFile} {db db' : Database}

/-- A write appends its entry and makes its update. -/
theorem shared_of_write {guard : Guard Database Task} {entry : WalEntry} {trace : List Task}
    {c : Pool Database Task} (hrun : Run Task.stepOk guard ⟨db, [.write entry .append]⟩ trace c)
    (hdone : ∀ t ∈ c.tasks, t.Returned) : c.shared =
      { db with
        state := { db.state with fields := applyEntry db.state.fields entry }
        wal := ⟨db.wal.file ++ walBytes entry, db.wal.entries ++ [entry]⟩ } := by
  let appended : Database :=
    { db with wal := ⟨db.wal.file ++ walBytes entry, db.wal.entries ++ [entry]⟩ }
  let updated : Database :=
    { appended with state := { db.state with fields := applyEntry db.state.fields entry } }
  have hsolo := hrun.solo
    (P := fun _ w t => t = .write entry .append ∧ w = db ∨
      t = .write entry .update ∧ w = appended ∨ t = .write entry .done ∧ w = updated)
    ?_ (.inl ⟨rfl, rfl⟩)
  · obtain ⟨w, t, rfl, h⟩ := hsolo
    have hreturned := hdone t (List.mem_singleton.mpr rfl)
    rcases h with ⟨rfl, -⟩ | ⟨rfl, -⟩ | ⟨-, rfl⟩
    · cases hreturned
    · cases hreturned
    · rfl
  · rintro _ choice w t w' t' hexec (⟨rfl, rfl⟩ | ⟨rfl, rfl⟩ | ⟨rfl, rfl⟩)
    · cases moves_of_stepOk hexec
      exact .inr (.inl ⟨rfl, rfl⟩)
    · cases moves_of_stepOk hexec
      exact .inr (.inr ⟨rfl, rfl⟩)
    · cases moves_of_stepOk hexec

omit [Crc] in
/-- Only the empty index is encoded as an empty file. -/
theorem eq_empty_of_encodes_nil {index : HashMap Key IndexEntry} (h : Encodes [] index) :
    index = ∅ := by
  obtain ⟨order, horder, hnil⟩ := h
  rw [IndexEncoder.finish, encodeIndexFile_buffer] at hnil
  cases order with
  | nil => exact horder.insertAll_eq.symm
  | cons x order =>
    have hlength := congrArg List.length hnil
    rw [List.flatMap_cons, entryBytes] at hlength
    simp only [List.length_append, LittleEndian.length_ofU16, List.length_nil] at hlength
    omega

/-- Opening the files of a settled database gives the same database. -/
theorem Settled.open_eq_ok (h : Settled df db) (hname : (stringBytes name).length ≤ 64) :
    Database.open name db.disk = .ok db := by
  have hindex : Database.initIndex df.bytes db.indexFile = .ok db.state.index := by
    by_cases hempty : db.indexFile = []
    · -- an empty file encodes the empty index, which covers only a file without live records
      have hnone : db.state.index = ∅ := eq_empty_of_encodes_nil (hempty ▸ h.indexFile)
      have hscan : df.index = ∅ := by
        apply Finmap.ext_lookup
        intro k
        rw [DataFile.lookup_index, Finmap.lookup_empty, Option.map_eq_none_iff]
        by_contra hlast
        obtain ⟨x, hx⟩ := Option.ne_none_iff_exists'.mp hlast
        obtain ⟨e, hlookup, -⟩ := h.covered k x hx
        rw [hnone, Finmap.lookup_empty] at hlookup
        cases hlookup
      rw [hempty, initIndex_nil h.liveKeys, hnone, hscan]
    · exact initIndex_encoded h.indexFile h.toRecoverable.lengths.index hempty
  have hopen := open_bytes hname h.log hindex
  rw [h.fields, ← h.file] at hopen
  exact hopen

/-- A new database is settled. -/
theorem settled_new (name : String) :
    Settled (emptyFile name) (Database.new name [] ⟨[], []⟩) where
  file := new_file name [] ⟨[], []⟩
  log := rfl
  index k e hk := by
    rw [Database.new, Finmap.lookup_empty] at hk
    cases hk
  entries := nofun
  entryKeys := nofun
  liveKeys := nofun
  fields := rfl
  covered := nofun
  indexFile := ⟨[], rfl, rfl⟩

/-- A write keeps a database settled. -/
theorem Settled.write (h : Settled df db) {entry : WalEntry} (hentry : entry.Encodable)
    (hkey : entry.key.asBytes ≠ []) :
    Settled df
      { db with
        state := { db.state with fields := applyEntry db.state.fields entry }
        wal := ⟨db.wal.file ++ walBytes entry, db.wal.entries ++ [entry]⟩ } where
  file := h.file
  log := open_append h.log hentry
  index := h.index
  entries e he := by
    rcases List.mem_append.mp he with he | he
    · exact h.entries e he
    · rw [List.mem_singleton.mp he]
      exact hentry
  entryKeys e he := by
    rcases List.mem_append.mp he with he | he
    · exact h.entryKeys e he
    · rw [List.mem_singleton.mp he]
      exact hkey
  liveKeys := h.liveKeys
  fields := by rw [replay_concat, h.fields]
  covered := h.covered
  indexFile := h.indexFile

/-- The keys that a flush is going to delete, as keys of the data file. -/
theorem DeletesSingle.length_liveOf (h : DeletesSingle db .flush) (hfile : db.file = df.bytes)
    {k : Key} (hk : lastValue k db.wal.entries = some none) : (df.liveOf k).length ≤ 1 := by
  rw [← map_value_lastEntry, Option.map_eq_some_iff] at hk
  obtain ⟨entry, hentry, hvalue⟩ := hk
  obtain ⟨hmem, rfl⟩ := mem_of_lastEntry hentry
  have hsingle := h entry hmem (by rw [← map_value_lastEntry, hentry, Option.map_some, hvalue])
  rwa [hfile, liveCount_bytes] at hsingle

omit [Crc] in
/-- A flush that spares no record of a key that it deletes makes a data file of
the fields that replaying its log gave. -/
theorem fields_of_flushedAt {df₀ : DataFile} {db₀ : Database} {index : HashMap Key IndexEntry}
    (hspared : ∀ k, lastValue k db₀.wal.entries = some none →
      spared (db₀.state.index.lookup k) (df₀.liveOf k) = [])
    (h : ∀ k, FlushedAt df₀ db₀ df index k) :
    df.fields = replay df₀.fields db₀.wal.entries := by
  apply Finmap.ext_lookup
  intro k
  rw [DataFile.lookup_fields, lookup_replay, DataFile.lookup_fields, ← map_value_lastEntry]
  cases h k with
  | kept hlast hlive =>
    rw [hlive, hlast]
    rfl
  | set field x hlast hvalue hlive =>
    rw [hlive, List.getLast?_concat, hlast]
    exact congrArg some hvalue
  | deleted hlast hlive =>
    have hdelete : lastValue k db₀.wal.entries = some none := by
      rw [← map_value_lastEntry, hlast]
      rfl
    rw [hlive, hspared k hdelete, hlast]
    rfl

omit [Crc] in
/-- Its index has extents of live records only. -/
theorem FlushedAt.liveExtent {df₀ : DataFile} {db₀ : Database} {index : HashMap Key IndexEntry}
    {k : Key} (h : FlushedAt df₀ db₀ df index k)
    (hindex : ∀ k e, db₀.state.index.lookup k = some e → df₀.LiveExtent k e)
    {e : IndexEntry} (hk : index.lookup k = some e) : df.LiveExtent k e := by
  cases h with
  | kept hlast hlive hsame =>
    obtain ⟨x, hx, hat⟩ := hindex k e (hsame ▸ hk)
    exact ⟨x, hlive ▸ hx, hat⟩
  | set field x hlast hvalue hlive hnew hfits =>
    rw [hnew] at hk
    cases hk
    have hmem : x ∈ df.liveOf k := by
      rw [hlive]
      simp
    exact ⟨x, hmem, DataFile.isAt_entry hmem (Nat.lt_of_le_of_lt hfits (by decide))⟩
  | deleted hlast hlive hnone =>
    rw [hnone] at hk
    cases hk

/-- A flush that deletes single records only keeps a database settled and its
fields as they were. -/
theorem Settled.flush (h : Settled df db) {guard : Guard Database Task} {trace : List Task}
    {c : Pool Database Task} (hrun : Run Task.stepOk guard ⟨db, [.flush .start]⟩ trace c)
    (hdone : ∀ t ∈ c.tasks, t.Returned) (hsingle : DeletesSingle db .flush) :
    (∃ df', Settled df' c.shared) ∧ c.shared.state.fields = db.state.fields := by
  obtain ⟨df', f, halone, hstage⟩ := alone_of_done h.toRecoverable.sound hrun hdone
  have hone : ∀ k, lastValue k db.wal.entries = some none → (df.liveOf k).length ≤ 1 :=
    fun k hk => hsingle.length_liveOf h.file hk
  have hflushed := halone.flushedAt_done hstage
  have hfields := halone.fields_eq h.fields
  have hwal := halone.wal_done hstage
  refine ⟨⟨df', ⟨halone.sound.file, ?_, fun k e hk => (hflushed k).liveExtent h.index hk,
    halone.sound.entries, ?_, halone.liveKeys h.toRecoverable⟩, ?_,
    covered_of_flushedAt h.covered hone hflushed, halone.encodes_done hstage⟩, hfields⟩
  · rw [hwal]
    rfl
  · rw [hwal]
    exact nofun
  · rw [hwal, hfields, ← h.fields]
    exact fields_of_flushedAt (fun k hk => spared_eq_nil h.covered (hone k hk)) hflushed

omit [Crc] in
/-- The last call writes last. -/
theorem writesOf_concat (calls : List Call) (call : Call) :
    writesOf (calls ++ [call]) = writesOf calls ++ writesOf [call] := by
  rw [writesOf, List.filterMap_append]
  rfl

/-- Along a session the database stays settled, and its fields are the replay
of all writes. -/
theorem settled_of_session {db₀ : Database} {calls : List Call}
    (hopen : Database.open name ⟨[], [], []⟩ = .ok db₀)
    (hvalid : ∀ call ∈ calls, call.Valid)
    (hsession : Session name DeletesSingle db₀ calls db) :
    (∃ df, Settled df db) ∧ db.state.fields = replay ∅ (writesOf calls) := by
  obtain ⟨hname, wal, hwal, rfl⟩ := (open_eq_ok_iff_new rfl).mp hopen
  cases hwal
  induction hsession with
  | nil => exact ⟨⟨_, settled_new name⟩, rfl⟩
  | snoc hsession hguard hreturns ih =>
    rename_i calls db db' call
    obtain ⟨⟨df, hsettled⟩, hfields⟩ := ih fun call hcall =>
      hvalid call (List.mem_append_left _ hcall)
    rw [writesOf_concat]
    cases hreturns with
    | write entry hrun hdone =>
      obtain ⟨hentry, hkey⟩ := hvalid (.write entry) (List.mem_append_right _ List.mem_cons_self)
      rw [shared_of_write hrun hdone, show writesOf [.write entry] = [entry] from rfl,
        replay_concat, ← hfields]
      exact ⟨⟨df, hsettled.write hentry hkey⟩, rfl⟩
    | flush hrun hdone =>
      obtain ⟨hsettled', hsame⟩ := hsettled.flush hrun hdone hguard
      rw [hsame, show writesOf [.flush] = [] from rfl, List.append_nil]
      exact ⟨hsettled', hfields⟩
    | reopen hreopen =>
      rw [hsettled.open_eq_ok hname] at hreopen
      cases hreopen
      rw [show writesOf [.reopen] = [] from rfl, List.append_nil]
      exact ⟨⟨df, hsettled⟩, hfields⟩

/-- In every session on a new database in which no flush deletes a key with
several live records, the database can be opened again at any time, and every
read answers from the last write of its key. -/
theorem session_persists {db₀ : Database} {calls : List Call}
    (hopen : Database.open name ⟨[], [], []⟩ = .ok db₀)
    (hvalid : ∀ call ∈ calls, call.Valid)
    (hsession : Session name DeletesSingle db₀ calls db) :
    (∃ db', Database.open name db.disk = .ok db') ∧ ∀ k, db.get k = expectedRead calls k := by
  obtain ⟨⟨df, hsettled⟩, hfields⟩ := settled_of_session hopen hvalid hsession
  obtain ⟨hname, -⟩ := (open_eq_ok_iff_new rfl).mp hopen
  refine ⟨⟨db, hsettled.open_eq_ok hname⟩, fun k => ?_⟩
  rw [get_eq, hfields, readOf, lookup_replay, Finmap.lookup_empty, expectedRead]
  rcases lastValue k (writesOf calls) with _ | _ | field <;> rfl

/-- The shared state when all tasks have returned. -/
def returned (out : Option (List Task × Pool Database Task)) : Option Database :=
  out.bind fun out => if ∀ t ∈ out.2.tasks, t.Returned then some out.2.shared else none

/-- Execute a call by a schedule of its sections. -/
def perform (name : String) (db : Database) : Call × List (ℕ × Choice) → Option Database
  | (.write entry, schedule) =>
    returned (drive Task.stepOk anyStep schedule ⟨db, [.write entry .append]⟩)
  | (.flush, schedule) => returned (drive Task.stepOk anyStep schedule ⟨db, [.flush .start]⟩)
  | (.reopen, _) => (Database.open name db.disk).toOption

/-- Execute calls one after another, each under the guard. -/
def performAll (name : String) (guard : Database → Call → Prop)
    [∀ db, DecidablePred (guard db)] (script : List (Call × List (ℕ × Choice)))
    (db : Database) : Option Database :=
  script.foldlM (fun db call => if guard db call.1 then perform name db call else none) db

/-- A call that is executed to its end returns. -/
theorem returns_of_perform {call : Call × List (ℕ × Choice)}
    (h : perform name db call = some db') :
    Returns name db call.1 db' := by
  have hreturned : ∀ {out : Option (List Task × Pool Database Task)}, returned out = some db' →
      ∃ trace c, out = some (trace, c) ∧ (∀ t ∈ c.tasks, t.Returned) ∧
      c.shared = db' := by
    intro out hout
    obtain ⟨⟨trace, c⟩, rfl, hc⟩ := Option.bind_eq_some_iff.mp hout
    rw [Option.ite_none_right_eq_some] at hc
    exact ⟨trace, c, rfl, hc.1, Option.some.inj hc.2⟩
  obtain ⟨call, schedule⟩ := call
  cases call with
  | write entry =>
    obtain ⟨trace, c, hdrive, hdone, rfl⟩ := hreturned h
    exact .write entry (run_of_drive hdrive) hdone
  | flush =>
    obtain ⟨trace, c, hdrive, hdone, rfl⟩ := hreturned h
    exact .flush (run_of_drive hdrive) hdone
  | reopen =>
    refine .reopen ?_
    rw [perform] at h
    cases hopen : Database.open name db.disk with
    | error e =>
      rw [hopen] at h
      cases h
    | ok db₁ =>
      rw [hopen] at h
      exact congrArg Except.ok (Option.some.inj h)

/-- Calls that execute are a session. -/
theorem session_of_performAll {guard : Database → Call → Prop}
    [∀ db, DecidablePred (guard db)] {script : List (Call × List (ℕ × Choice))}
    {db₀ : Database} {calls : List Call} (hsession : Session name guard db₀ calls db)
    (h : performAll name guard script db = some db') :
    Session name guard db₀ (calls ++ script.map Prod.fst) db' := by
  induction script generalizing calls db with
  | nil =>
    cases h
    rwa [List.map_nil, List.append_nil]
  | cons call script ih =>
    rw [performAll, List.foldlM_cons] at h
    obtain ⟨db₁, hcall, hrest⟩ := Option.bind_eq_some_iff.mp h
    rw [Option.ite_none_right_eq_some] at hcall
    have hnext := ih (.snoc hsession hcall.1 (returns_of_perform hcall.2)) hrest
    rwa [List.append_assoc] at hnext

end

open scoped IsoHdlc

/-- A key is set, flushed, deleted, flushed and looked up after reopening. -/
def flushedDelete : List (Call × List (ℕ × Choice)) :=
  [(.write (.set (.ofText "k") (.primitive (.integer 1))), sections 0 2),
    (.flush, takeBatch 0 [(.ofText "k", .set (.ofText "k") (.primitive (.integer 1)))] ++
      sections 0 5 ++ copyIndex 0 [(.ofText "k", ⟨114, 1, 9⟩)] ++ sections 0 4),
    (.write (.delete (.ofText "k")), sections 0 2),
    (.flush, takeBatch 0 [(.ofText "k", .delete (.ofText "k"))] ++ sections 0 5 ++ copyIndex 0 [] ++
      sections 0 4),
    (.reopen, [])]

/-- The session comes to its end. -/
theorem flushedDelete_runs :
    (performAll "db" DeletesSingle flushedDelete (Database.new "db" [] ⟨[], []⟩)).isSome := by
  decide +kernel

/-- The key stays deleted. -/
theorem session_persists_flushedDelete :
    let db := (performAll "db" DeletesSingle flushedDelete (Database.new "db" [] ⟨[], []⟩)).get
      flushedDelete_runs
    (∃ db', Database.open "db" db.disk = .ok db') ∧
      ∀ k, db.get k = expectedRead (flushedDelete.map Prod.fst) k :=
  session_persists rfl (by decide +kernel)
    (session_of_performAll .nil (Option.some_get flushedDelete_runs).symm)

/-- A key is set and flushed twice before it is deleted. -/
def flushedTwice : List (Call × List (ℕ × Choice)) :=
  [(.write (.set (.ofText "k") (.primitive (.integer 1))), sections 0 2),
    (.flush, takeBatch 0 [(.ofText "k", .set (.ofText "k") (.primitive (.integer 1)))] ++
      sections 0 5 ++ copyIndex 0 [(.ofText "k", ⟨114, 1, 9⟩)] ++ sections 0 4),
    (.write (.set (.ofText "k") (.primitive (.integer 2))), sections 0 2),
    (.flush, takeBatch 0 [(.ofText "k", .set (.ofText "k") (.primitive (.integer 2)))] ++
      sections 0 5 ++ copyIndex 0 [(.ofText "k", ⟨138, 1, 9⟩)] ++ sections 0 4),
    (.write (.delete (.ofText "k")), sections 0 2),
    (.flush, takeBatch 0 [(.ofText "k", .delete (.ofText "k"))] ++ sections 0 5 ++ copyIndex 0 [] ++
      sections 0 4),
    (.reopen, [])]

/-- The guard of unrestricted sessions. -/
def anyCall : Database → Call → Prop := fun _ _ => True

instance (db : Database) : DecidablePred (anyCall db) := fun _ => isTrue trivial

/-- The session comes to its end. -/
theorem flushedTwice_runs :
    (performAll "db" anyCall flushedTwice (Database.new "db" [] ⟨[], []⟩)).isSome := by
  decide +kernel

/-- Then the older field of the deleted key is back. -/
theorem session_resurrects_deleted :
    let db := (performAll "db" anyCall flushedTwice (Database.new "db" [] ⟨[], []⟩)).get
      flushedTwice_runs
    Database.open "db" ⟨[], [], []⟩ = .ok (Database.new "db" [] ⟨[], []⟩) ∧
      Session "db" anyCall (Database.new "db" [] ⟨[], []⟩) (flushedTwice.map Prod.fst) db ∧
      (∀ call ∈ flushedTwice.map Prod.fst, call.Valid) ∧
      db.get (.ofText "k") = .ok (.primitive (.integer 1)) ∧
      expectedRead (flushedTwice.map Prod.fst) (.ofText "k") = failWith .keyNotFound :=
  ⟨rfl, session_of_performAll .nil (Option.some_get flushedTwice_runs).symm, by decide +kernel,
    by decide +kernel, by decide +kernel⟩

end PeachDB.Db
