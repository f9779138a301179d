import PeachDB.Persistence
import Mathlib.Data.List.DropRight

/-!
# What a flush has made durable

In a sequential run the data file alone has the fields as they were when the
last flush began, and its header counts them; the log has what was written
since.
-/

namespace PeachDB.Db

open Dtypes RecordCodec FileHandler WriteAheadLog Interleaving

/-- The calls up to the last flush. -/
def flushedCalls (calls : List Call) : List Call := calls.rdropWhile (· ≠ .flush)

/-- The calls behind the last flush. -/
def pendingCalls (calls : List Call) : List Call := calls.rtakeWhile (· ≠ .flush)

/-- The number of fields as the header has it. -/
def countOf (fields : HashMap Key Field) : UInt64 := UInt64.ofNat (Multiset.card fields.entries)

/-- What a flush has counted and written into the header. -/
structure Counts (df : DataFile) (db : Database) (f : Flush) : Prop where
  /-- It has counted the fields. -/
  counted : .countFields < f.stage → f.count = countOf db.state.fields
  /-- It has written the count. -/
  written : .writeCount < f.stage → df.header.recordCount = f.count

section

variable [Crc] {df df₀ : DataFile} {db db' db₀ : Database} {f g : Flush} {name : String}

omit [Crc] in
/-- Before it updates the state a flush has counted nothing. -/
theorem Counts.early (hstage : f.stage ≤ .countFields) : Counts df db f :=
  ⟨fun hlt => absurd hlt (Nat.not_lt.mpr hstage),
    fun hlt => absurd (Nat.lt_trans (by decide) hlt) (Nat.not_lt.mpr hstage)⟩

/-- Behind its state update a flush that runs alone counts the fields, and then
it writes their number. -/
theorem Counts.step (h : Counts df db f) (hmove : Moves db (.flush f) db' (.flush g)) :
    Counts (df.after (.flush f)) db' g := by
  cases hmove with
  | pop f hstage | plan f batch hstage hbatch | sync f hstage htodo | publish f hstage =>
    exact .early (by simp [Stage.le_iff])
  | appendItem f key field todo hstage htodo hfits | skipItem f key todo hstage htodo hplan
  | tombstoneItem f key todo entry hstage htodo hplan =>
    exact .early (by simp [hstage, Stage.le_iff])
  | countFields f hstage => exact ⟨fun _ => rfl, fun hlt => absurd hlt (by simp [Stage.lt_iff])⟩
  | writeCount f hstage =>
    rw [DataFile.after_count hstage]
    exact ⟨fun _ => h.counted (by simp [hstage, Stage.lt_iff]), fun _ => rfl⟩
  | cloneIndex f order hstage horder | truncIndex f hstage | writeIndex f hstage
    | syncIndex f hstage
  | checkpoint f hstage =>
    rw [DataFile.after_of_stage (by simp [hstage]) (by simp [hstage])]
    exact ⟨fun _ => h.counted (by simp [hstage, Stage.lt_iff]),
      fun _ => h.written (by simp [hstage, Stage.lt_iff])⟩

/-- When a flush that runs alone has returned, the header counts the fields. -/
theorem count_of_flush {guard : Guard Database Task} {trace : List Task} {c : Pool Database Task}
    (hdb : Sound df₀ db₀) (hrun : Run Task.stepOk guard ⟨db₀, [.flush .start]⟩ trace c)
    (hdone : ∀ t ∈ c.tasks, t.Returned) :
    ∃ df : DataFile, c.shared.file = df.bytes ∧
      df.header.recordCount = countOf c.shared.state.fields := by
  have hsolo := hrun.solo
    (P := fun _ db t => ∃ df f, t = .flush f ∧ Sound df db ∧ FlushSound df f ∧
      Counts df db f) ?_
    ⟨df₀, .start, rfl, hdb, flushSound_start df₀, .early (by decide)⟩
  · obtain ⟨db, _, rfl, df, f, rfl, hsound, -, hcounts⟩ := hsolo
    have hstage : f.stage = .done := hdone _ (List.mem_singleton.mpr rfl)
    refine ⟨df, hsound.file, ?_⟩
    rw [hcounts.written (by rw [hstage]; decide), hcounts.counted (by rw [hstage]; decide)]
  · rintro _ choice db t db' t' hexec ⟨df, f, rfl, hsound, hflush, hcounts⟩
    have hmove := moves_of_stepOk hexec
    obtain ⟨g, rfl⟩ := hmove.isFlush
    obtain ⟨hsound', hflush'⟩ := hmove.sound hsound hflush
    exact ⟨_, g, rfl, hsound', hflush', hcounts.step hmove⟩

/-- The record count can be read from the bytes of a data file. -/
theorem recordCount_of_bytes {df df' : DataFile} (h : df.bytes = df'.bytes) :
    df.header.recordCount = df'.header.recordCount := by
  have hdecode := decodeFile_bytes df
  rw [h, decodeFile_bytes] at hdecode
  have hinfo : df'.header.info = df.header.info := congrArg Prod.snd (Except.ok.inj hdecode)
  exact congrArg DbMeta.recordCount hinfo.symm

/-- The data file has what was written up to some point, and the log has what
was written since. -/
structure Divided (flushed pending : List WalEntry) (df : DataFile) (db : Database) : Prop
    extends Settled df db where
  /-- The data file has the fields of the flushed writes. -/
  durable : df.fields = replay ∅ flushed
  /-- The header counts them. -/
  count : df.header.recordCount = countOf df.fields
  /-- The log has the other writes. -/
  pending : db.wal.entries = pending

/-- A new database has flushed nothing. -/
theorem divided_new (name : String) :
    Divided [] [] (emptyFile name) (Database.new name [] ⟨[], []⟩) where
  toSettled := settled_new name
  durable := rfl
  count := rfl
  pending := rfl

/-- A write is pending until the next flush. -/
theorem Divided.write {flushed pending : List WalEntry} (h : Divided flushed pending df db)
    {entry : WalEntry} (hentry : entry.Encodable) (hkey : entry.key.asBytes ≠ []) :
    Divided flushed (pending ++ [entry]) df
      { db with
        state := { db.state with fields := applyEntry db.state.fields entry }
        wal := ⟨db.wal.file ++ walBytes entry, db.wal.entries ++ [entry]⟩ } where
  toSettled := h.toSettled.write hentry hkey
  durable := h.durable
  count := h.count
  pending := congrArg (· ++ [entry]) h.pending

/-- A flush moves what is in the log into the data file. -/
theorem Divided.flush {flushed pending : List WalEntry} (h : Divided flushed pending df db)
    {guard : Guard Database Task} {trace : List Task} {c : Pool Database Task}
    (hrun : Run Task.stepOk guard ⟨db, [.flush .start]⟩ trace c)
    (hdone : ∀ t ∈ c.tasks, t.Returned) (hsingle : DeletesSingle db .flush) :
    ∃ df', Divided (flushed ++ pending) [] df' c.shared := by
  have hsound := h.toRecoverable.sound
  obtain ⟨⟨df', hsettled⟩, hsame⟩ := h.toSettled.flush hrun hdone hsingle
  obtain ⟨_, _, halone, hstage⟩ := alone_of_done hsound hrun hdone
  obtain ⟨df₁, hfile, hcount⟩ := count_of_flush hsound hrun hdone
  have hwal : c.shared.wal.entries = [] := by
    rw [halone.wal_done hstage]
  -- with an empty log the data file has the fields in memory
  have hfields : df'.fields = c.shared.state.fields := by
    rw [← hsettled.fields, hwal]
    rfl
  refine ⟨df', hsettled, ?_, ?_, hwal⟩
  · rw [hfields, hsame, ← h.fields, h.durable, h.pending, replay, replay, replay,
      List.foldl_append]
  · rw [recordCount_of_bytes (hsettled.file.symm.trans hfile), hcount, hfields]

omit [Crc] in
/-- A write is behind the last flush until the next one. -/
theorem writesOf_pendingCalls_concat (calls : List Call) (entry : WalEntry) :
    writesOf (pendingCalls (calls ++ [.write entry])) = writesOf (pendingCalls calls) ++
      [entry] := by
  rw [pendingCalls, List.rtakeWhile_concat_pos _ _ _ (by simp), writesOf_concat]
  rfl

omit [Crc] in
/-- All writes are flushed or behind the last flush. -/
theorem writesOf_flushed_append_pending (calls : List Call) :
    writesOf (flushedCalls calls) ++ writesOf (pendingCalls calls) = writesOf calls := by
  rw [writesOf, writesOf, ← List.filterMap_append, flushedCalls, pendingCalls, List.rdropWhile,
    List.rtakeWhile, ← List.reverse_append, List.takeWhile_append_dropWhile, List.reverse_reverse]
  rfl

/-- Along a session the files stay divided by the last flush. -/
theorem divided_of_session {calls : List Call}
    (hopen : Database.open name ⟨[], [], []⟩ = .ok db₀)
    (hvalid : ∀ call ∈ calls, call.Valid)
    (hsession : Session name DeletesSingle db₀ calls db) :
    ∃ df, Divided (writesOf (flushedCalls calls)) (writesOf (pendingCalls calls)) df db := by
  obtain ⟨hname, wal, hwal, rfl⟩ := (open_eq_ok_iff_new rfl).mp hopen
  cases hwal
  induction hsession with
  | nil => exact ⟨_, divided_new name⟩
  | snoc hsession hguard hreturns ih =>
    rename_i calls db db' call
    obtain ⟨df, hdivided⟩ := ih fun call hcall => hvalid call (List.mem_append_left _ hcall)
    cases hreturns with
    | write entry hrun hdone =>
      obtain ⟨hentry, hkey⟩ := hvalid (.write entry) (List.mem_append_right _ List.mem_cons_self)
      rw [shared_of_write hrun hdone, writesOf_pendingCalls_concat, flushedCalls,
        List.rdropWhile_concat_pos _ _ _ (by simp)]
      exact ⟨df, hdivided.write hentry hkey⟩
    | flush hrun hdone =>
      obtain ⟨df', hdivided'⟩ := hdivided.flush hrun hdone hguard
      rw [writesOf_flushed_append_pending] at hdivided'
      rw [flushedCalls, List.rdropWhile_concat_neg _ _ _ (by simp), pendingCalls,
        List.rtakeWhile_concat_neg _ _ _ (by simp), writesOf_concat,
        show writesOf [.flush] = [] from rfl, List.append_nil]
      exact ⟨df', hdivided'⟩
    | reopen hreopen =>
      rw [hdivided.toSettled.open_eq_ok hname] at hreopen
      cases hreopen
      rw [flushedCalls, List.rdropWhile_concat_pos _ _ _ (by simp), pendingCalls,
        List.rtakeWhile_concat_pos _ _ _ (by simp), writesOf_concat,
        show writesOf [.reopen] = [] from rfl, List.append_nil]
      exact ⟨df, hdivided⟩

/-- In every session on a new database in which no flush deletes a key with
several live records, the data file alone decodes to the fields of all writes
before the last flush, and its record count is their number; the log has the
writes behind it, in order. -/
theorem files_divided_at_flush {calls : List Call}
    (hopen : Database.open name ⟨[], [], []⟩ = .ok db₀)
    (hvalid : ∀ call ∈ calls, call.Valid)
    (hsession : Session name DeletesSingle db₀ calls db) :
    ∃ fields info, decodeFile db.file = .ok (fields, info) ∧
      fields = replay ∅ (writesOf (flushedCalls calls)) ∧
      info.recordCount = countOf fields ∧
      Wal.open db.wal.file = .ok ⟨db.wal.file, writesOf (pendingCalls calls)⟩ := by
  obtain ⟨df, h⟩ := divided_of_session hopen hvalid hsession
  refine ⟨df.fields, df.header.info, ?_, h.durable, h.count, ?_⟩
  · rw [h.file]
    exact decodeFile_bytes df
  · rw [← h.pending]
    exact h.log

end

open scoped IsoHdlc

/-- A key is set and flushed and set again, and the database is opened again. -/
def setBehindFlush : List (Call × List (ℕ × Choice)) :=
  [(.write (.set (.ofText "k") (.primitive (.integer 1))), sections 0 2),
    (.flush, takeBatch 0 [(.ofText "k", .set (.ofText "k") (.primitive (.integer 1)))] ++
      sections 0 5 ++ copyIndex 0 [(.ofText "k", ⟨114, 1, 9⟩)] ++ sections 0 4),
    (.write (.set (.ofText "k") (.primitive (.integer 2))), sections 0 2),
    (.reopen, [])]

/-- The session comes to its end. -/
theorem setBehindFlush_runs :
    (performAll "db" DeletesSingle setBehindFlush (Database.new "db" [] ⟨[], []⟩)).isSome := by
  decide +kernel

/-- The data file has the first value, and the log the second one. -/
theorem files_divided_at_flush_setBehindFlush :
    let db := (performAll "db" DeletesSingle setBehindFlush (Database.new "db" [] ⟨[], []⟩)).get
      setBehindFlush_runs
    (∃ info, decodeFile db.file = .ok (replay ∅ [.set (.ofText "k") (.primitive (.integer 1))],
      info) ∧
      info.recordCount = 1) ∧
    Wal.open db.wal.file = .ok ⟨db.wal.file,
      [.set (.ofText "k") (.primitive (.integer 2))]⟩ := by
  dsimp only
  obtain ⟨fields, info, hdecode, rfl, hcount, hlog⟩ :=
    files_divided_at_flush rfl (by decide +kernel)
    (session_of_performAll .nil (Option.some_get setBehindFlush_runs).symm)
  exact ⟨⟨info, hdecode, hcount⟩, hlog⟩

end PeachDB.Db
