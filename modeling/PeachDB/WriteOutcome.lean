import PeachDB.FieldDecoding
import PeachDB.Persistence

/-!
# What a write leaves behind

A `set` or `delete` that returns `Ok` leaves a log that can be replayed exactly
when its entry can be encoded and the system has refused none of its bytes;
nothing is checked before the entry is logged. One that returns `Err` has no
effect in memory exactly when it is the append that returned the error: the
entry counts in memory before the log is synced.
-/

namespace PeachDB

open Dtypes RecordCodec FileHandler WriteAheadLog Interleaving

namespace WriteAheadLog

/-- What is read from a log can be written to one. -/
theorem Frame.encodable_entry (f : Frame) : f.entry.Encodable := by
  cases f with
  | set parts value used decodes =>
    refine ⟨parts.key_lt, ?_⟩
    intro field hfield
    cases hfield
    exact encodable_of_fieldFromBytes decodes parts.field_lt
  | delete key key_lt =>
    refine ⟨key_lt, ?_⟩
    intro field hfield
    cases hfield

/-- The entries of a log that can be replayed can be encoded. -/
theorem encodable_of_open {file : Bytes} {wal : Wal} (h : Wal.open file = .ok wal) :
    ∀ entry ∈ wal.entries, entry.Encodable := by
  obtain ⟨fs, -, rfl⟩ := open_eq_ok_iff.mp h
  intro entry hentry
  obtain ⟨f, -, rfl⟩ := List.mem_map.mp hentry
  exact f.encodable_entry

/-- Behind a log that can be replayed, an entry is replayed as it is exactly
when it can be encoded. -/
theorem open_concat_iff {file : Bytes} {es : List WalEntry} {entry : WalEntry}
    (hlog : Wal.open file = .ok ⟨file, es⟩) :
    Wal.open (file ++ walBytes entry) = .ok ⟨file ++ walBytes entry, es ++ [entry]⟩ ↔
      entry.Encodable := by
  constructor
  · intro h
    exact encodable_of_open h entry (by simp)
  · intro hentry
    have hopen : Wal.open (⟨file, es⟩ : Wal).file = .ok ⟨file, es⟩ := hlog
    exact open_append hopen hentry

/-- Behind a log that can be replayed, a part of an entry that can be encoded
is not read as the entry. -/
theorem open_concat_part_ne {file p : Bytes} {es : List WalEntry} {entry : WalEntry}
    (hlog : Wal.open file = .ok ⟨file, es⟩) (hentry : entry.Encodable)
    (hp : p <+: walBytes entry) (hne : p ≠ walBytes entry) :
    Wal.open (file ++ p) ≠ .ok ⟨file ++ p, es ++ [entry]⟩ := by
  intro hopen
  by_cases hnil : p = []
  · rw [hnil, List.append_nil, hlog] at hopen
    have hentries := congrArg Wal.entries (Except.ok.inj hopen)
    have hlength : es.length = (es ++ [entry]).length := congrArg List.length hentries
    rw [List.length_append, List.length_singleton] at hlength
    omega
  · obtain ⟨fs, hfile, -⟩ := open_eq_ok_iff.mp hlog
    rw [hfile, open_torn_frames hentry hp hne hnil] at hopen
    cases hopen

end WriteAheadLog

namespace FileHandler

/-- The system takes all bytes of a write that returns `Ok`. -/
def Verdict.Takes (data : Bytes) : Verdict → Prop
  | .done => True
  | .failed _ => True
  | .deferred written => data.length ≤ written

instance (data : Bytes) : DecidablePred (Verdict.Takes data)
  | .done => isTrue trivial
  | .failed _ => isTrue trivial
  | .deferred written => inferInstanceAs (Decidable (data.length ≤ written))

/-- An append that returns `Ok` adds a part of its bytes, and all of them exactly
when the system takes them. -/
theorem exists_of_append_ok {io : Verdict} {file file' data : Bytes} {pos : UInt64}
    (h : append io file data = (.ok pos, file')) :
    ∃ p, file' = file ++ p ∧ p <+: data ∧ (p = data ↔ io.Takes data) := by
  cases io with
  | failed written => cases h
  | done =>
    have hprompt : Verdict.done.Prompt := trivial
    obtain ⟨-, -, rfl⟩ := append_ok hprompt h
    exact ⟨data, rfl, List.prefix_rfl, iff_of_true rfl trivial⟩
  | deferred written =>
    cases h
    refine ⟨data.take written, overwrite_length file _, List.take_prefix _ _, ?_⟩
    rw [List.take_eq_self_iff]
    rfl

end FileHandler

namespace Db

section

variable [Crc]

/-- Steps of a task on a log file that gives this verdict on an append. -/
def Task.stepLog (io : Verdict) (choice : Choice) (db : Database) (t : Task) :
    Option (Database × Task) :=
  Task.step { choice with first := io } db t

/-- What a write has added to the log when it returns `Ok`. -/
theorem log_of_write {io : Verdict} {db : Database} {entry : WalEntry} {trace : List Task}
    {c : Pool Database Task}
    (hrun : Run (Task.stepLog io) anyStep ⟨db, [.write entry .append]⟩ trace c)
    (hdone : ∀ t ∈ c.tasks, t.Returned) :
    ∃ p, c.shared.wal.file = db.wal.file ++ p ∧ p <+: walBytes entry ∧
      (p = walBytes entry ↔ io.Takes (walBytes entry)) := by
  have hsolo := hrun.solo
    (P := fun _ w t => t = .write entry .append ∧ w = db ∨ (∃ e, t = .failed e) ∨
      (∃ stage, t = .write entry stage ∧ stage ≠ .append) ∧
        ∃ p, w.wal.file = db.wal.file ++ p ∧ p <+: walBytes entry ∧
          (p = walBytes entry ↔ io.Takes (walBytes entry)))
    ?_ (.inl ⟨rfl, rfl⟩)
  · obtain ⟨w, t, rfl, h⟩ := hsolo
    have hreturned := hdone t (List.mem_singleton.mpr rfl)
    rcases h with ⟨rfl, -⟩ | ⟨e, rfl⟩ | ⟨-, hlog⟩
    · cases hreturned
    · cases hreturned
    · exact hlog
  · rintro _ choice w t w' t' hexec (⟨rfl, rfl⟩ | ⟨e, rfl⟩
      | ⟨⟨stage, rfl, hstage⟩, hlog⟩)
    · -- the append fails, or it adds what the file takes and the sync decides
      simp only [Task.stepLog, Task.step, Wal.appendEntry] at hexec
      cases happend : append io w.wal.file (walBytes entry) with
      | mk result file =>
        rw [happend] at hexec
        cases result with
        | error e =>
          cases hexec
          exact .inr (.inl ⟨e, rfl⟩)
        | ok pos =>
          have hadded := exists_of_append_ok happend
          cases hsync : syncAll choice.second with
          | error e =>
            rw [hsync] at hexec
            cases hexec
            exact .inr (.inl ⟨e, rfl⟩)
          | ok u =>
            rw [hsync] at hexec
            cases hexec
            exact .inr (.inr ⟨⟨.update, rfl, WriteStage.noConfusion⟩, hadded⟩)
    · cases hexec
    · cases stage with
      | append => exact absurd rfl hstage
      | update =>
        cases hexec
        exact .inr (.inr ⟨⟨.done, rfl, WriteStage.noConfusion⟩, hlog⟩)
      | done => cases hexec

/-- A `set` or `delete` that has returned `Ok` leaves a log that replays to the
entries of before and the new one exactly when the new one can be encoded and
the system takes its bytes. -/
theorem acknowledged_write_replays_iff {io : Verdict} {db : Database} {es : List WalEntry}
    {entry : WalEntry} {trace : List Task} {c : Pool Database Task}
    (hlog : Wal.open db.wal.file = .ok ⟨db.wal.file, es⟩)
    (hrun : Run (Task.stepLog io) anyStep ⟨db, [.write entry .append]⟩ trace c)
    (hdone : ∀ t ∈ c.tasks, t.Returned) :
    Wal.open c.shared.wal.file = .ok ⟨c.shared.wal.file, es ++ [entry]⟩ ↔
      entry.Encodable ∧ io.Takes (walBytes entry) := by
  obtain ⟨p, hfile, hp, htakes⟩ := log_of_write hrun hdone
  rw [hfile, ← htakes]
  constructor
  · intro hopen
    have hentry : entry.Encodable := encodable_of_open hopen entry (by simp)
    refine ⟨hentry, ?_⟩
    by_contra hne
    exact open_concat_part_ne hlog hentry hp hne hopen
  · rintro ⟨hentry, rfl⟩
    exact (open_concat_iff hlog).mpr hentry

/-- The database with other contents of its log file. -/
def Database.withLog (db : Database) (file : Bytes) : Database :=
  { db with wal := ⟨file, db.wal.entries⟩ }

/-- Writing an item does not look at the log file. -/
theorem batchItem_withLog {io : Verdict} {f : Flush} {todo : List WalEntry} {entry : WalEntry}
    (db : Database) (file : Bytes) : f.batchItem io (db.withLog file) todo entry =
      ((f.batchItem io db todo entry).1.withLog file, (f.batchItem io db todo entry).2) := by
  cases entry with
  | set key field =>
    have hfile : (db.withLog file).file = db.file := rfl
    simp only [Flush.batchItem, hfile]
    rcases append io db.file (encode key field) with ⟨result, written⟩
    cases result <;> rfl
  | delete key =>
    simp only [Flush.batchItem]
    cases f.deletePlan.lookup key <;> rfl

/-- Until the checkpoint a flush does not look at the log file. -/
theorem flushStep_withLog {choice : Choice} {f : Flush} (db : Database) (file : Bytes)
    (hstage : f.stage ≠ .checkpoint) : f.step choice (db.withLog file) =
      (f.step choice db).map fun out => (out.1.withLog file, out.2) := by
  cases hs : f.stage with
  | plan =>
    simp only [Flush.step, hs]
    by_cases hbatch : IterOrder f.net choice.batch
    · rw [if_pos hbatch, if_pos hbatch]
      rfl
    · rw [if_neg hbatch, if_neg hbatch]
      rfl
  | batch =>
    simp only [Flush.step, hs]
    cases f.todo with
    | nil => rfl
    | cons entry todo =>
      dsimp only
      rw [batchItem_withLog]
      rfl
  | cloneIndex =>
    have hstate : (db.withLog file).state = db.state := rfl
    simp only [Flush.step, hs, hstate]
    by_cases horder : IterOrder db.state.index choice.index
    · rw [if_pos horder, if_pos horder]
      rfl
    · rw [if_neg horder, if_neg horder]
      rfl
  | checkpoint => exact absurd hs hstage
  | pop | publish | countFields | writeCount | truncIndex | writeIndex | syncIndex | done =>
    simp only [Flush.step, hs]
    rfl

/-- A checkpoint makes the same step from any contents of the log file. -/
theorem checkpointStep_withLog {choice : Choice} {f : Flush} {db db' : Database} {t : Task}
    (file : Bytes) (hstage : f.stage = .checkpoint) (h : f.step choice db = some (db', t))
    (hne : ∀ e, t ≠ .failed e) :
    f.step choice (db.withLog file) = some (db', t) := by
  simp only [Flush.step, hstage, Option.some.injEq] at h ⊢
  obtain ⟨hresult, rfl, rfl⟩ := eq_of_proceed h hne
  cases hfirst : choice.first with
  | failed written | deferred written =>
    rw [hfirst] at hresult
    cases hresult
  | done =>
    cases hsecond : choice.second with
    | failed written | deferred written =>
      rw [hfirst, hsecond] at hresult
      cases hresult
    | done =>
      simp only [Wal.checkpoint, setLen, syncAll, proceed, Database.withLog, List.take_zero,
        Nat.zero_sub, List.replicate_zero]

/-- A step without a failing command is the same over other contents of the
log file. -/
theorem stepOk_withLog {choice : Choice} {f : Flush} {db db' : Database} {t : Task} (file : Bytes)
    (h : Task.stepOk choice db (.flush f) = some (db', t)) :
    ∃ file', Task.stepOk choice (db.withLog file) (.flush f) = some (db'.withLog file', t) := by
  have hprompt := prompt_of_stepOk h
  obtain ⟨hstep, hne⟩ := step_of_stepOk h
  by_cases hstage : f.stage = .checkpoint
  · exact ⟨db'.wal.file,
      taskStepOk_of_step hprompt (checkpointStep_withLog file hstage hstep hne) hne⟩
  · have hfree : f.step choice (db.withLog file) = some (db'.withLog file, t) := by
      rw [flushStep_withLog db file hstage, show f.step choice db = some (db', t) from hstep]
      rfl
    exact ⟨file, taskStepOk_of_step hprompt hfree hne⟩

/-- A successful flush that runs alone can leave this data file. -/
def FlushLeaves (db : Database) (file : Bytes) : Prop :=
  ∃ trace c, Run Task.stepOk anyStep ⟨db, [.flush .start]⟩ trace c ∧
    (∀ t ∈ c.tasks, t.Returned) ∧
    c.shared.file = file

/-- A flush without a failing command stays a flush. -/
theorem exists_flush_of_stepOk {choice : Choice} {f : Flush} {db db' : Database} {t : Task}
    (h : Task.stepOk choice db (.flush f) = some (db', t)) : ∃ g, t = .flush g := by
  cases moves_of_stepOk h <;> exact ⟨_, rfl⟩

/-- A flush runs in the same way over other contents of the log file. -/
theorem run_withLog {db : Database} {trace : List Task} {c : Pool Database Task} (file : Bytes)
    (hrun : Run Task.stepOk anyStep ⟨db, [.flush .start]⟩ trace c) :
    ∃ file', Run Task.stepOk anyStep ⟨db.withLog file, [.flush .start]⟩ trace
      ⟨c.shared.withLog file', c.tasks⟩ := by
  have hsolo := hrun.solo
    (P := fun trace w t => (∃ f, t = .flush f) ∧ ∃ file',
      Run Task.stepOk anyStep ⟨db.withLog file, [.flush .start]⟩ trace ⟨w.withLog file',
        [t]⟩)
    ?_ ⟨⟨_, rfl⟩, file, .refl⟩
  · obtain ⟨w, t, rfl, -, hrun'⟩ := hsolo
    exact hrun'
  · rintro trace choice w t w' t' hexec ⟨⟨f, rfl⟩, file', hrun'⟩
    obtain ⟨file'', hexec'⟩ := stepOk_withLog file' hexec
    exact ⟨exists_flush_of_stepOk hexec, file'', hrun'.snoc (.move [] [] choice trivial hexec')⟩

/-- What a flush leaves in the data file does not depend on the log file. -/
theorem flushLeaves_withLog {db : Database} {file data : Bytes} (h : FlushLeaves db data) :
    FlushLeaves (db.withLog file) data := by
  obtain ⟨trace, c, hrun, hdone, hfile⟩ := h
  obtain ⟨file', hrun'⟩ := run_withLog file hrun
  exact ⟨trace, _, hrun', hdone, hfile⟩

/-- `FileHandler::append` on the log returns `Err`: the file reports a refusal,
or the system refuses to let it grow so large. -/
def AppendFails (choice : Choice) (db : Database) (entry : WalEntry) : Prop :=
  match choice.first with
  | .failed _ => True
  | .deferred _ => False
  | .done => maxFileLen < db.wal.file.length + (walBytes entry).length

instance (choice : Choice) (db : Database) (entry : WalEntry) :
    Decidable (AppendFails choice db entry) := by
  unfold AppendFails
  split <;> infer_instance

omit [Crc] in
/-- The append fails when it returns an error. -/
theorem appendFails_iff {choice : Choice} {db : Database} {entry : WalEntry} :
    AppendFails choice db entry ↔
      ∃ e file, append choice.first db.wal.file (walBytes entry) = (.error e, file) := by
  rw [AppendFails]
  cases hfirst : choice.first with
  | failed written => exact iff_of_true trivial ⟨_, _, rfl⟩
  | deferred written =>
    refine iff_of_false id ?_
    rintro ⟨e, file, h⟩
    cases h
  | done =>
    by_cases hlarge : maxFileLen < db.wal.file.length + (walBytes entry).length
    · refine iff_of_true hlarge ?_
      rw [append, writeAll, if_pos hlarge]
      exact ⟨_, _, rfl⟩
    · refine iff_of_false hlarge ?_
      rw [append, writeAll, if_neg hlarge]
      rintro ⟨e, file, h⟩
      cases h

/-- What a write has done to the database when it fails. -/
theorem eq_of_failed_append {choice : Choice} {db db' : Database} {entry : WalEntry} {e : Abort}
    (h : Task.step choice db (.write entry .append) = some (db', .failed e)) :
    (AppendFails choice db entry ∧ ∃ file, db' = db.withLog file) ∨
      (¬ AppendFails choice db entry ∧
        ∃ file, db' = { db with wal := ⟨file, db.wal.entries ++ [entry]⟩ }) := by
  rw [appendFails_iff]
  simp only [Task.step, Wal.appendEntry, Option.some.injEq] at h
  cases happend : append choice.first db.wal.file (walBytes entry) with
  | mk result file =>
    rw [happend] at h
    cases result with
    | error e' =>
      cases h
      exact .inl ⟨⟨_, _, rfl⟩, file, rfl⟩
    | ok pos =>
      refine .inr ⟨?_, file, (congrArg Prod.fst h).symm⟩
      rintro ⟨e', file', heq⟩
      cases heq

/-- A write that returns `Err` leaves the fields and the entries in memory, and
with them every read and the data file of every later flush, as they were
exactly when it is `FileHandler::append` on the log that returned `Err`. -/
theorem failed_write_no_effect_iff {choice : Choice} {db db' : Database} {entry : WalEntry}
    {e : Abort} (hfail : Task.step choice db (.write entry .append) = some (db', .failed e)) :
    (db'.state.fields = db.state.fields ∧ db'.wal.entries = db.wal.entries ∧
      (∀ k, db'.get k = db.get k) ∧ ∀ data, FlushLeaves db' data ↔ FlushLeaves db data) ↔
      AppendFails choice db entry := by
  rcases eq_of_failed_append hfail with ⟨happend, file, rfl⟩ | ⟨happend, file, rfl⟩
  · refine iff_of_true ⟨rfl, rfl, fun k => rfl,
      fun data => ⟨fun h => ?_, flushLeaves_withLog⟩⟩ happend
    have hback : FlushLeaves ((db.withLog file).withLog db.wal.file) data := flushLeaves_withLog h
    exact hback
  · refine iff_of_false ?_ happend
    rintro ⟨-, hentries, -, -⟩
    have hlen := congrArg List.length hentries
    rw [List.length_append, List.length_singleton] at hlen
    omega

end

open scoped IsoHdlc

/-- A number is set on a new database. -/
theorem set_runs : (drive (Task.stepLog .done) anyStep (sections 0 2)
    ⟨Database.new "db" [] ⟨[], []⟩,
      [.write (.set (.ofText "k") (.primitive (.integer 1))) .append]⟩).isSome := by
  decide +kernel

/-- Its log can be replayed. -/
theorem acknowledged_write_replays_number :
    let c := ((drive (Task.stepLog .done) anyStep (sections 0 2) _).get set_runs).2
    Wal.open c.shared.wal.file =
      .ok ⟨c.shared.wal.file, [.set (.ofText "k") (.primitive (.integer 1))]⟩ := by
  intro c
  have hlog : Wal.open (Database.new "db" [] ⟨[], []⟩).wal.file = .ok ⟨[], []⟩ := by decide
  exact (acknowledged_write_replays_iff hlog (run_get_drive set_runs) (by decide +kernel)).mpr
    ⟨by decide, trivial⟩

/-- An array of numbers that holds a boolean is set on a new database. -/
theorem set_mixed_runs : (drive (Task.stepLog .done) anyStep (sections 0 2)
    ⟨Database.new "db" [] ⟨[], []⟩,
      [.write (.set (.ofText "k") (.array .integer [.boolean true])) .append]⟩).isSome := by
  decide +kernel

/-- The call returns `Ok`, and the log cannot be replayed any more. -/
theorem acknowledged_mixed_array_refused :
    let c := ((drive (Task.stepLog .done) anyStep (sections 0 2) _).get set_mixed_runs).2
    (∀ t ∈ c.tasks, t.Returned) ∧ Wal.open [] = .ok ⟨[], []⟩ ∧
      Wal.open c.shared.wal.file = failWith .bufferTooShort := by
  decide +kernel

/-- The file takes over the bytes and the system refuses them all: the call
returns `Ok` beside an empty log. -/
example :
    let db := Database.new "db" [] ⟨[], []⟩
    let entry := .set (.ofText "k") (.primitive (.integer 1))
    (Task.stepLog (.deferred 0) .plain db (.write entry .append)).map
      (fun out => (out.1.wal.file, out.2)) = some ([], .write entry .update) := by
  decide +kernel

/-- A write whose append fails. -/
theorem failed_write_no_effect_append :
    let db := Database.new "db" [] ⟨[], []⟩
    let entry := .set (.ofText "k") (.primitive (.integer 1))
    let db' := (((Task.step { Choice.plain with first := .failed 3 } db (.write entry .append)).map
      Prod.fst).getD db)
    db'.wal.file ≠ [] ∧ db'.wal.entries = db.wal.entries ∧
      ∀ data, FlushLeaves db' data ↔ FlushLeaves db data := by
  intro db entry db'
  have hfail : Task.step { Choice.plain with first := .failed 3 } db (.write entry .append) =
      some (db', .failed (.err (mapFileHandlerError .device))) := by decide +kernel
  have heffect := (failed_write_no_effect_iff hfail).mpr trivial
  exact ⟨by decide +kernel, heffect.2.1, heffect.2.2.2⟩

/-- A write whose sync fails leaves its entry for the next flush, although the
fields do not know it. -/
theorem failed_sync_keeps_entry :
    let db := Database.new "db" [] ⟨[], []⟩
    let entry := .set (.ofText "k") (.primitive (.integer 1))
    Task.step { Choice.plain with second := .failed 0 } db (.write entry .append) =
      some ({ db with wal := ⟨walBytes entry, [entry]⟩ },
        .failed (.err (mapFileHandlerError .device))) ∧
      db.wal.entries = [] ∧ db.state.fields = ∅ := by
  decide +kernel

end Db

end PeachDB
