import PeachDB.Opening

/-!
# Log order and memory order

A write appends to the log and updates the state in two sections, and another
write of the same key may slip in between. The fields in memory agree with the
replayed log when no writer updates the state after the writer of the last log
entry of its key has done so.
-/

namespace PeachDB.Db

open Dtypes RecordCodec IndexCodec WriteAheadLog Interleaving

/-- A writer updates the state while the last log entry of its key is its own
or the one of a writer that is still to update the state. -/
def InLogOrder (db : Database) (others : List Task) (t : Task) : Prop :=
  match t with
  | .write entry .update =>
    match lastEntry entry.key db.wal.entries with
    | some last => last = entry ∨ .write last .update ∈ others
    | none => False
  | _ => True

instance (db : Database) (others : List Task) (t : Task) : Decidable (InLogOrder db others t) := by
  unfold InLogOrder
  split
  · split <;> infer_instance
  · infer_instance

/-- The fields agree with the replayed log on every key whose last entry has
reached the state. -/
structure LogInvariant (base : HashMap Key Field) (c : Pool Database Task) : Prop where
  /-- All tasks are writes. -/
  writes : ∀ t ∈ c.tasks, ∃ entry stage, t = .write entry stage
  /-- The fields have the value of the last entry of a key, unless its writer is
  still to update them. -/
  agrees : ∀ k, (∃ last, lastEntry k c.shared.wal.entries = some last ∧
    .write last .update ∈ c.tasks) ∨
    c.shared.state.fields.lookup k = (replay base c.shared.wal.entries).lookup k

section

variable [Crc]

/-- A step in log order keeps the invariant of the log. -/
theorem LogInvariant.step {base : HashMap Key Field} {c c' : Pool Database Task} {t : Task}
    (hinv : LogInvariant base c) (hstep : Step Task.stepOk InLogOrder c t c') :
    LogInvariant base c' := by
  obtain ⟨hwrites, hagrees⟩ := hinv
  cases hstep with
  | move pre post choice hguard hexec =>
    rename_i db db' t'
    have hmoves := moves_of_stepOk hexec
    simp only [mem_tasks_iff] at hwrites hagrees
    obtain ⟨entry, stage, rfl⟩ := hwrites t (.inl rfl)
    have htasks : ∀ stage', ∀ u ∈ pre ++ Task.write entry stage' :: post,
        ∃ entry stage, u = .write entry stage := by
      intro stage' u hu
      rcases mem_tasks_iff.mp hu with rfl | hu
      · exact ⟨entry, stage', rfl⟩
      · exact hwrites u (.inr hu)
    cases hmoves with
    | append =>
      refine ⟨htasks .update, fun k => ?_⟩
      simp only [mem_tasks_iff, lastEntry_concat]
      by_cases hk : k = entry.key
      · exact .inl ⟨entry, if_pos hk, .inl rfl⟩
      · simp only [if_neg hk]
        rw [lookup_replay, lastValue_concat, if_neg hk, ← lookup_replay]
        rcases hagrees k with ⟨last, hlast, hwaiting⟩ | hsame
        · rcases hwaiting with heq | hother
          · cases heq
          · exact .inl ⟨last, hlast, .inr hother⟩
        · exact .inr hsame
    | update =>
      refine ⟨htasks .done, fun k => ?_⟩
      simp only [mem_tasks_iff]
      rw [lookup_applyEntry]
      by_cases hk : k = entry.key
      · -- the guard speaks of the key that is updated
        simp only [InLogOrder, ← hk] at hguard
        cases hlast : lastEntry k db.wal.entries with
        | none =>
          rw [hlast] at hguard
          cases hguard
        | some last =>
          rw [hlast] at hguard
          rcases hguard with rfl | hother
          · refine .inr ?_
            rw [if_pos hk, lookup_replay, ← map_value_lastEntry, hlast]
            rfl
          · exact .inl ⟨last, rfl, .inr hother⟩
      · rw [if_neg hk]
        rcases hagrees k with ⟨last, hlast, hwaiting⟩ | hsame
        · rcases hwaiting with heq | hother
          · cases heq
            exact absurd (mem_of_lastEntry hlast).2.symm hk
          · exact .inl ⟨last, hlast, .inr hother⟩
        · exact .inr hsame

/-- The files of the data and the index stay, and the log file stays readable
as long as the entries can be encoded. -/
structure LogFiles (db₀ : Database) (c : Pool Database Task) : Prop where
  /-- All tasks are writes that can be encoded. -/
  writes : ∀ t ∈ c.tasks, ∃ entry stage, t = .write entry stage ∧ entry.Encodable
  /-- Writes leave the data file alone. -/
  file : c.shared.file = db₀.file
  /-- They leave the index file alone. -/
  indexFile : c.shared.indexFile = db₀.indexFile
  /-- The log file holds the entries in memory. -/
  wal : Wal.open c.shared.wal.file = .ok c.shared.wal

/-- A step keeps what is known of the files. -/
theorem LogFiles.step {db₀ : Database} {c c' : Pool Database Task} {t : Task}
    (hinv : LogFiles db₀ c) (hstep : Step Task.stepOk InLogOrder c t c') : LogFiles db₀ c' := by
  obtain ⟨hwrites, hfile, hindexFile, hwal⟩ := hinv
  cases hstep with
  | move pre post choice hguard hexec =>
    rename_i db db' t'
    simp only [mem_tasks_iff] at hwrites
    obtain ⟨entry, stage, rfl, hentry⟩ := hwrites t (.inl rfl)
    have htasks : ∀ stage', ∀ u ∈ pre ++ Task.write entry stage' :: post,
        ∃ entry stage, u = .write entry stage ∧ entry.Encodable := by
      intro stage' u hu
      rcases mem_tasks_iff.mp hu with rfl | hu
      · exact ⟨entry, stage', rfl, hentry⟩
      · exact hwrites u (.inr hu)
    cases moves_of_stepOk hexec with
    | append => exact ⟨htasks .update, hfile, hindexFile, open_append hwal hentry⟩
    | update => exact ⟨htasks .done, hfile, hindexFile, hwal⟩

/-- When all writes have returned, in a run whose state updates keep to the
log order, the fields are the replayed log. -/
theorem fields_of_writes {db₀ : Database} {base : HashMap Key Field} {tasks trace : List Task}
    {c : Pool Database Task} (hstart : db₀.state.fields = replay base db₀.wal.entries)
    (hinit : ∀ t ∈ tasks, ∃ entry, t = .write entry .append)
    (hrun : Run Task.stepOk InLogOrder ⟨db₀, tasks⟩ trace c)
    (hdone : ∀ t ∈ c.tasks, t.Returned) :
    c.shared.state.fields = replay base c.shared.wal.entries := by
  have hinv : LogInvariant base c := by
    refine hrun.invariant (I := fun _ c => LogInvariant base c) ⟨?_, ?_⟩
      fun _ _ _ _ hinv hstep => hinv.step hstep
    · intro t ht
      obtain ⟨entry, rfl⟩ := hinit t ht
      exact ⟨entry, .append, rfl⟩
    · intro k
      exact .inr (by rw [hstart])
  apply Finmap.ext_lookup
  intro k
  rcases hinv.agrees k with ⟨last, -, hwaiting⟩ | hsame
  · cases hdone _ hwaiting
  · exact hsame

/-- A run of writes that can be encoded keeps what is known of the files. -/
theorem files_of_writes {db₀ : Database} {tasks trace : List Task} {c : Pool Database Task}
    (hwal : Wal.open db₀.wal.file = .ok db₀.wal)
    (hinit : ∀ t ∈ tasks, ∃ entry, t = .write entry .append)
    (hencodable : ∀ entry, .write entry .append ∈ tasks → entry.Encodable)
    (hrun : Run Task.stepOk InLogOrder ⟨db₀, tasks⟩ trace c) : LogFiles db₀ c := by
  refine hrun.invariant (I := fun _ c => LogFiles db₀ c) ⟨?_, rfl, rfl, hwal⟩
    fun _ _ _ _ hinv hstep => hinv.step hstep
  intro t ht
  obtain ⟨entry, rfl⟩ := hinit t ht
  exact ⟨entry, .append, rfl, hencodable entry ht⟩

/-- When all writes have returned, in a run whose state updates keep to the
log order, the fields are the replay of the log over the contents that the
database was opened with. Opening the files again gives the same fields if the
written entries can be encoded; it succeeds unless the database was opened on
an empty data file beside a non-empty index file. -/
theorem completed_writes_agree_with_log {name : String} {disk : Disk} {db₀ : Database}
    {base : HashMap Key Field} {tasks trace : List Task} {c : Pool Database Task}
    (hopen : Database.open name disk = .ok db₀) (hbase : Contents disk.file base)
    (hlog : disk.file ≠ [] ∨ ∀ k field, lastValue k db₀.wal.entries ≠ some (some field))
    (hinit : ∀ t ∈ tasks, ∃ entry, t = .write entry .append)
    (hrun : Run Task.stepOk InLogOrder ⟨db₀, tasks⟩ trace c)
    (hdone : ∀ t ∈ c.tasks, t.Returned) :
    c.shared.state.fields = replay base c.shared.wal.entries ∧
      ((∀ entry, .write entry .append ∈ tasks → entry.Encodable) →
        (∀ db₁, Database.open name c.shared.disk = .ok db₁ →
          db₁.state.fields = c.shared.state.fields) ∧
        (disk.file ≠ [] ∨ disk.indexFile = [] → ∃ db₁, Database.open name c.shared.disk =
          .ok db₁)) := by
  have hfields := fields_of_writes (fields_of_open hopen hbase hlog) hinit hrun hdone
  refine ⟨hfields, fun hencodable => ?_⟩
  have hfiles := files_of_writes (of_open hopen).2.1 hinit hencodable hrun
  have hdisk : c.shared.disk = ⟨db₀.file, db₀.indexFile, c.shared.wal.file⟩ := by
    rw [Database.disk, hfiles.file, hfiles.indexFile]
  rw [hdisk, hfields]
  constructor
  · intro db₁ hagain
    exact fields_of_reopen hopen hbase hfiles.wal hagain
  · intro hindex
    obtain ⟨db₁, hagain, -⟩ := reopens_behind hopen hbase hindex hfiles.wal
    exact ⟨db₁, hagain⟩

end

open scoped IsoHdlc

/-- Two writers of one key on a new database. -/
def twoWriters : Pool Database Task where
  shared := Database.new "db" [] ⟨[], []⟩
  tasks :=
    [.write (.set (.ofText "k") (.primitive (.integer 1))) .append,
      .write (.set (.ofText "k") (.primitive (.integer 2))) .append]

/-- Both append, then both update in the same order. -/
theorem twoWriters_inOrder_runs :
    (drive Task.stepOk InLogOrder (sections 0 1 ++ sections 1 1 ++ sections 0 1 ++ sections 1 1)
      twoWriters).isSome := by
  decide +kernel

/-- Then log and memory agree. -/
theorem completed_writes_agree_with_log_inOrder :
    let c := ((drive Task.stepOk InLogOrder (sections 0 1 ++ sections 1 1 ++ sections 0 1 ++
      sections 1 1) twoWriters).get twoWriters_inOrder_runs).2
    c.shared.state.fields = replay ∅ c.shared.wal.entries ∧
      ((∀ entry, .write entry .append ∈ twoWriters.tasks → entry.Encodable) →
        (∀ db₁, Database.open "db" c.shared.disk = .ok db₁ →
          db₁.state.fields = c.shared.state.fields) ∧
        (([] : Bytes) ≠ [] ∨ ([] : Bytes) = [] → ∃ db₁, Database.open "db" c.shared.disk =
          .ok db₁)) := by
  have hopen : Database.open "db" ⟨[], [], []⟩ = .ok twoWriters.shared := rfl
  have hbase : Contents [] ∅ := rfl
  have hinit : ∀ t ∈ twoWriters.tasks, ∃ entry, t = .write entry .append := by
    simp [twoWriters]
  exact completed_writes_agree_with_log hopen hbase (.inr fun _ _ h => nomatch h) hinit
    (run_get_drive twoWriters_inOrder_runs) (by decide +kernel)

/-- Both append, then both update in the opposite order. -/
theorem twoWriters_crossed_runs :
    (drive Task.stepOk anyStep (sections 0 1 ++ sections 1 2 ++ sections 0 1)
      twoWriters).isSome := by
  decide +kernel

/-- Then the memory holds the first field, the log ends with the second, and
opening the files again changes the answer. -/
theorem crossed_writes_disagree_with_log :
    let out := (drive Task.stepOk anyStep (sections 0 1 ++ sections 1 2 ++ sections 0 1)
      twoWriters).get twoWriters_crossed_runs
    Database.open "db" ⟨[], [], []⟩ = .ok twoWriters.shared ∧
      Run Task.stepOk anyStep twoWriters out.1 out.2 ∧ (∀ t ∈ out.2.tasks, t.Returned) ∧
      out.2.shared.get (.ofText "k") = .ok (.primitive (.integer 1)) ∧
      readOf (replay ∅ out.2.shared.wal.entries) (.ofText "k") = .ok (.primitive (.integer 2)) ∧
      (Database.open "db" out.2.shared.disk >>= fun db => db.get (.ofText "k")) =
        .ok (.primitive (.integer 2)) :=
  ⟨rfl, run_get_drive twoWriters_crossed_runs, by decide +kernel, by decide +kernel,
    by decide +kernel, by decide +kernel⟩

end PeachDB.Db
