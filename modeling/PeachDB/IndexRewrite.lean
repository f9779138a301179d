import PeachDB.Opening

/-!
# Rewriting the index file

A flush copies the index, truncates the index file and writes the copy at its
start, in three sections that other flushes can interleave with. Where every
write covers what it finds in the file, the file always holds one whole copy,
or nothing and a flush is about to write.
-/

namespace PeachDB.Db

open LittleEndian Dtypes RecordCodec IndexCodec WriteAheadLog Interleaving

/-- A flush writes its copy of the index over a file that is no longer. -/
def WritesWhole (db : Database) (_others : List Task) (t : Task) : Prop :=
  match t with
  | .flush f => f.stage = .writeIndex → db.indexFile.length ≤ f.encoded.length
  | _ => True

instance (db : Database) (others : List Task) (t : Task) : Decidable (WritesWhole db others t) :=
  match t with
  | .flush f => inferInstanceAs (Decidable (f.stage = .writeIndex → _ ≤ f.encoded.length))
  | .write _ _ | .get _ _ | .failed _ => isTrue trivial

/-- The lengths in the index and the keys in the log are right. -/
structure DbLengths (db : Database) : Prop where
  /-- The index entries have the lengths of their keys. -/
  index : LengthsMatch db.state.index
  /-- The key lengths of the log have 16 bits. -/
  entries : ∀ entry ∈ db.wal.entries, entry.key.Encodable

/-- A flush holds keys that can be encoded and entries with right lengths. A
copy of the index is encoded in one of its orders. -/
structure FlushLengths (f : Flush) : Prop where
  /-- The key lengths that it has taken have 16 bits. -/
  net : ∀ k entry, f.net.lookup k = some entry → entry.key.Encodable
  /-- So have those that it has still to write. -/
  todo : ∀ entry ∈ f.todo, entry.key.Encodable
  /-- Where it has appended, the key lengths are right. -/
  indexes : ∀ x ∈ f.indexes, x.2.keyLen.toNat = x.1.len
  /-- Its copy is encoded in one of its orders, with right lengths. -/
  copied : .cloneIndex < f.stage → LengthsMatch f.index ∧
    ∃ order, IterOrder f.index order ∧
    f.encoded = (IndexEncoder.new.encodeIndexFile order).finish

/-- The keys and lengths that a task holds are right. -/
def TaskLengths : Task → Prop
  | .write entry _ => entry.key.Encodable
  | .get _ _ | .failed _ => True
  | .flush f => FlushLengths f

/-- A flush has no lengths at first. -/
theorem flushLengths_start : FlushLengths .start := by
  refine ⟨fun k entry hk => ?_, nofun, nofun, nofun⟩
  cases hk

/-- Publishing entries with right lengths keeps the lengths right. -/
theorem lengthsMatch_publish {state : State} {indexes : List (Key × IndexEntry)}
    {deletePlan : HashMap Key IndexEntry} (hstate : LengthsMatch state.index)
    (hindexes : ∀ x ∈ indexes, x.2.keyLen.toNat = x.1.len) :
    LengthsMatch (publish state indexes deletePlan).index := by
  intro k e hk
  rw [lookup_index_publish] at hk
  split at hk
  · cases hk
  · cases hlast : lastOf k indexes with
    | none =>
      rw [hlast, Option.none_or] at hk
      exact hstate k e hk
    | some e' =>
      rw [hlast] at hk
      cases hk
      exact hindexes _ (mem_of_lastOf hlast)

section

variable [Crc]

/-- Every section keeps the lengths right. -/
theorem Moves.lengths {db db' : Database} {t t' : Task} (h : Moves db t db' t') (hdb : DbLengths db)
    (ht : TaskLengths t) : DbLengths db' ∧ TaskLengths t' := by
  cases h with
  | append entry =>
    refine ⟨⟨hdb.index, fun e he => ?_⟩, ht⟩
    rcases List.mem_append.mp he with he | he
    · exact hdb.entries e he
    · rw [List.mem_singleton.mp he]
      exact ht
  | update entry => exact ⟨⟨hdb.index, hdb.entries⟩, ht⟩
  | get key => exact ⟨hdb, trivial⟩
  | pop f hstage =>
    refine ⟨hdb, fun k entry hk => ?_, ht.todo, ht.indexes, nofun⟩
    rw [lookup_netOf] at hk
    exact hdb.entries _ (mem_of_lastEntry hk).1
  | plan f batch hstage hbatch =>
    refine ⟨hdb, ht.net, fun entry he => ?_, ht.indexes, nofun⟩
    obtain ⟨x, hx, rfl⟩ := List.mem_map.mp he
    exact ht.net x.1 x.2 (hbatch.mem_iff.mp hx)
  | appendItem f key field todo hstage htodo hfits =>
    have hkey : key.Encodable := ht.todo (.set key field) (by simp [htodo])
    refine ⟨⟨hdb.index, hdb.entries⟩, ht.net, fun entry he => ht.todo entry (by simp [htodo, he]),
      fun x hx => ?_, ht.copied⟩
    rcases List.mem_append.mp hx with hx | hx
    · exact ht.indexes x hx
    · rw [List.mem_singleton.mp hx]
      exact UInt16.toNat_ofNat_of_lt' hkey
  | skipItem f key todo hstage htodo hplan =>
    exact ⟨hdb, ht.net, fun entry he => ht.todo entry (by simp [htodo, he]), ht.indexes, ht.copied⟩
  | tombstoneItem f key todo entry hstage htodo hplan =>
    exact ⟨⟨hdb.index, hdb.entries⟩, ht.net, fun entry he => ht.todo entry (by simp [htodo, he]),
      ht.indexes, ht.copied⟩
  | sync f hstage htodo => exact ⟨hdb, ht.net, ht.todo, ht.indexes, nofun⟩
  | publish f hstage =>
    exact ⟨⟨lengthsMatch_publish hdb.index ht.indexes, hdb.entries⟩, ht.net, ht.todo,
      ht.indexes, nofun⟩
  | countFields f hstage => exact ⟨hdb, ht.net, ht.todo, ht.indexes, nofun⟩
  | writeCount f hstage =>
    exact ⟨⟨hdb.index, hdb.entries⟩, ht.net, ht.todo, ht.indexes, nofun⟩
  | cloneIndex f order hstage horder =>
    exact ⟨hdb, ht.net, ht.todo, ht.indexes, fun _ => ⟨hdb.index, order, horder, rfl⟩⟩
  | truncIndex f hstage =>
    exact ⟨⟨hdb.index, hdb.entries⟩, ht.net, ht.todo, ht.indexes,
      fun _ => ht.copied (by simp [hstage, Stage.lt_iff])⟩
  | writeIndex f hstage =>
    exact ⟨⟨hdb.index, hdb.entries⟩, ht.net, ht.todo, ht.indexes,
      fun _ => ht.copied (by simp [hstage, Stage.lt_iff])⟩
  | syncIndex f hstage =>
    exact ⟨hdb, ht.net, ht.todo, ht.indexes, fun _ => ht.copied (by simp [hstage, Stage.lt_iff])⟩
  | checkpoint f hstage =>
    exact ⟨⟨hdb.index, nofun⟩, ht.net, ht.todo, ht.indexes,
      fun _ => ht.copied (by simp [hstage, Stage.lt_iff])⟩

/-- What the index file holds, by how far the flushes have come. -/
inductive IndexFileHolds (db₀ : Database) (c : Pool Database Task) : Prop
  /-- No flush has truncated the file. -/
  | untouched (hfile : c.shared.indexFile = db₀.indexFile)
      (hstages : ∀ f, .flush f ∈ c.tasks → f.stage ≤ .truncIndex)
  /-- The file is truncated, and a flush is about to write it. -/
  | truncated (f : Flush) (hf : .flush f ∈ c.tasks) (hfile : c.shared.indexFile = [])
      (hstage : f.stage = .writeIndex)
  /-- The file holds the copy of a flush that has written it. -/
  | written (f : Flush) (hf : .flush f ∈ c.tasks) (hfile : c.shared.indexFile = f.encoded)
      (hstage : .writeIndex < f.stage)

omit [Crc] in
/-- A section that leaves the index file alone keeps what the file holds. -/
theorem IndexFileHolds.keep {db₀ db db' : Database} {pre post : List Task} {t t' : Task}
    (h : IndexFileHolds db₀ ⟨db, pre ++ t :: post⟩) (hfile : db'.indexFile = db.indexFile)
    (hnew : ∀ f', t' = .flush f' → ∃ f, t = .flush f ∧
      (f.stage ≤ .truncIndex → f'.stage ≤ .truncIndex))
    (hold : ∀ f, t = .flush f → f.stage ≠ .writeIndex ∧ (.writeIndex < f.stage →
      ∃ f', t' = .flush f' ∧ f'.encoded = f.encoded ∧ .writeIndex < f'.stage)) :
    IndexFileHolds db₀ ⟨db', pre ++ t' :: post⟩ := by
  cases h with
  | untouched huntouched hstages =>
    refine .untouched (hfile.trans huntouched) fun f' hf' => ?_
    rcases mem_tasks_iff.mp hf' with heq | hother
    · obtain ⟨f, rfl, hrank⟩ := hnew f' heq.symm
      exact hrank (hstages f (mem_tasks_iff.mpr (.inl rfl)))
    · exact hstages f' (mem_tasks_iff.mpr (.inr hother))
  | truncated f hf hempty hstage =>
    rcases mem_tasks_iff.mp hf with heq | hother
    · exact absurd hstage (hold f heq.symm).1
    · exact .truncated f (mem_tasks_iff.mpr (.inr hother)) (hfile.trans hempty) hstage
  | written f hf hencoded hstage =>
    rcases mem_tasks_iff.mp hf with heq | hother
    · obtain ⟨f', rfl, hsame, hrank⟩ := (hold f heq.symm).2 hstage
      exact .written f' (mem_tasks_iff.mpr (.inl rfl)) (by rw [hfile, hsame]; exact hencoded) hrank
    · exact .written f (mem_tasks_iff.mpr (.inr hother)) (hfile.trans hencoded) hstage

/-- A step keeps what the index file holds. -/
theorem IndexFileHolds.step {db₀ : Database} {c c' : Pool Database Task} {t : Task}
    (h : IndexFileHolds db₀ c) (hstep : Step Task.stepOk WritesWhole c t c') :
    IndexFileHolds db₀ c' := by
  cases hstep with
  | move pre post choice hguard hexec =>
    cases moves_of_stepOk hexec with
    | append entry | update entry | get key => exact h.keep rfl nofun nofun
    | appendItem f key field todo hstage htodo hfits | skipItem f key todo hstage htodo hplan
    | tombstoneItem f key todo entry hstage htodo hplan =>
      refine h.keep rfl (fun f' hf' => ⟨f, rfl, ?_⟩) fun f' hf' => ?_
      · cases hf'
        exact id
      · cases hf'
        simp [hstage, Stage.lt_iff]
    | pop f hstage | plan f batch hstage hbatch | sync f hstage htodo | publish f hstage
    | countFields f hstage | writeCount f hstage | cloneIndex f order hstage horder
    | syncIndex f hstage | checkpoint f hstage =>
      refine h.keep rfl (fun f' hf' => ⟨f, rfl, ?_⟩) fun f' hf' => ?_
      · cases hf'
        simp [hstage, Stage.le_iff]
      · cases hf'
        simp [hstage, Stage.lt_iff]
    | truncIndex f hstage => exact .truncated _ (mem_tasks_iff.mpr (.inl rfl)) rfl rfl
    | writeIndex f hstage =>
      exact .written _ (mem_tasks_iff.mpr (.inl rfl)) (overwrite_zero (hguard hstage))
        (show Stage.writeIndex < Stage.syncIndex by decide)

/-- Which tasks are flushes does not change. -/
theorem Moves.isFlush {db db' : Database} {f : Flush} {t' : Task} (h : Moves db (.flush f) db' t') :
    ∃ f', t' = .flush f' := by
  cases h <;> exact ⟨_, rfl⟩

/-- A flush stays a flush over a run. -/
theorem exists_flush_of_run {guard : Guard Database Task} {db : Database} {tasks trace : List Task}
    {c : Pool Database Task} (hrun : Run Task.stepOk guard ⟨db, tasks⟩ trace c)
    (h : ∃ f, Task.flush f ∈ tasks) : ∃ f, Task.flush f ∈ c.tasks := by
  refine hrun.invariant (I := fun _ c => ∃ f, Task.flush f ∈ c.tasks) h ?_
  rintro _ _ t _ ⟨f, hf⟩ ⟨pre, post, choice, hguard, hexec⟩
  rcases mem_tasks_iff.mp hf with rfl | hother
  · obtain ⟨f', rfl⟩ := (moves_of_stepOk hexec).isFlush
    exact ⟨f', mem_tasks_iff.mpr (.inl rfl)⟩
  · exact ⟨f, mem_tasks_iff.mpr (.inr hother)⟩

/-- The lengths of an opened database are right. -/
theorem dbLengths_of_open {name : String} {disk : Disk} {db : Database}
    (hopen : Database.open name disk = .ok db) : DbLengths db := by
  obtain ⟨-, hwal, df, -, -, hstate⟩ := of_open hopen
  refine ⟨?_, ?_⟩
  · split at hstate
    · rw [hstate.2]
      intro k e hk
      rw [Finmap.lookup_empty] at hk
      cases hk
    · have hindex := hstate.2
      rw [Database.initIndex] at hindex
      split at hindex
      · exact lengthsMatch_of_decodeIndexFile hindex
      · exact IndexFromDBDecoder.lengthsMatch_of_decodeIndexFromFile hindex
  · obtain ⟨fs, -, hentries⟩ := open_eq_ok_iff.mp hwal
    rw [hentries]
    intro entry he
    obtain ⟨frame, -, rfl⟩ := List.mem_map.mp he
    cases frame with
    | set parts value used decodes => exact parts.key_lt
    | delete key key_lt => exact key_lt

/-- The lengths stay right along every run. -/
theorem lengths_of_run {guard : Guard Database Task} {db : Database} {tasks trace : List Task}
    {c : Pool Database Task} (hrun : Run Task.stepOk guard ⟨db, tasks⟩ trace c)
    (hdb : DbLengths db) (htasks : ∀ t ∈ tasks, TaskLengths t) : DbLengths c.shared ∧
      ∀ t ∈ c.tasks, TaskLengths t := by
  have hinv : ∃ _ : Unit, DbLengths c.shared ∧ ∀ t ∈ c.tasks, TaskLengths t := by
    refine hrun.pool_invariant (G := fun _ db => DbLengths db) (P := fun _ _ t => TaskLengths t) ?_
      ⟨(), hdb, htasks⟩
    intro _ choice db others t db' t' _ hexec hdb ht hothers
    obtain ⟨hdb', ht'⟩ := (moves_of_stepOk hexec).lengths hdb ht
    exact ⟨(), hdb', ht', hothers⟩
  obtain ⟨-, hlengths⟩ := hinv
  exact hlengths

/-- When all tasks have returned, in a run in which every write of the index
covers the file, the index file decodes to the copy of one of the flushes. -/
theorem index_file_holds_one_copy {name : String} {disk : Disk} {db₀ : Database}
    {tasks trace : List Task} {c : Pool Database Task} (hopen : Database.open name disk = .ok db₀)
    (hinit : ∀ t ∈ tasks, t.Initial)
    (hkeys : ∀ entry stage, .write entry stage ∈ tasks → entry.key.Encodable)
    (hflush : ∃ f, Task.flush f ∈ tasks)
    (hrun : Run Task.stepOk WritesWhole ⟨db₀, tasks⟩ trace c)
    (hdone : ∀ t ∈ c.tasks, t.Returned) :
    ∃ f, .flush f ∈ c.tasks ∧
      (do let d ← (IndexDecoder.new c.shared.indexFile).decodeIndexFile; d.finish) =
        .ok f.index := by
  have hstart : ∀ t ∈ tasks, TaskLengths t := by
    intro t ht
    cases t with
    | write entry stage => exact hkeys entry stage ht
    | get key result => trivial
    | failed e => trivial
    | flush f =>
      obtain rfl : f = .start := hinit _ ht
      exact flushLengths_start
  obtain ⟨-, htasks⟩ := lengths_of_run hrun (dbLengths_of_open hopen) hstart
  have hholds : IndexFileHolds db₀ c := by
    refine hrun.invariant (I := fun _ c => IndexFileHolds db₀ c) (.untouched rfl fun f hf => ?_)
      fun _ _ _ _ h hstep => h.step hstep
    obtain rfl : f = .start := hinit _ hf
    decide
  cases hholds with
  | untouched hfile hstages =>
    obtain ⟨f, hf⟩ := exists_flush_of_run hrun hflush
    have hrank := hstages f hf
    rw [show f.stage = .done from hdone _ hf] at hrank
    exact absurd hrank (by decide)
  | truncated f hf hfile hstage =>
    rw [show f.stage = .done from hdone _ hf] at hstage
    cases hstage
  | written f hf hfile hstage =>
    have hflush : FlushLengths f := htasks _ hf
    obtain ⟨hmatch, order, horder, hencoded⟩ := hflush.copied (Nat.lt_trans (by decide) hstage)
    refine ⟨f, hf, ?_⟩
    rw [hfile, hencoded]
    exact decodeIndexFile_encodeIndexFile horder hmatch

end

open scoped IsoHdlc

/-- A writer and two flushes on a new database. -/
def twoFlushes : Pool Database Task where
  shared := Database.new "db" [] ⟨[], []⟩
  tasks :=
    [.write (.set (.ofText "k") (.primitive (.integer 1))) .append, .flush .start, .flush .start]

/-- The flush at place 1 takes the empty log; the key is set and the flush at
place 2 publishes its record; then both copy the index, the first one late. -/
def bothFlushes : List (ℕ × Choice) :=
  takeBatch 1 [] ++ sections 1 4 ++ sections 0 2 ++
    takeBatch 2 [(.ofText "k", .set (.ofText "k") (.primitive (.integer 1)))] ++ sections 2 5 ++
    copyIndex 2 [(.ofText "k", ⟨114, 1, 9⟩)] ++ copyIndex 1 [(.ofText "k", ⟨114, 1, 9⟩)]

/-- The two flushes write over files that are no longer. -/
theorem twoFlushes_whole_runs :
    (drive Task.stepOk WritesWhole (bothFlushes ++ sections 1 1 ++ sections 2 4 ++ sections 1 3)
      twoFlushes).isSome := by
  decide +kernel

/-- Two copies of one length may be written over each other. -/
theorem index_file_holds_one_copy_twice :
    let c := ((drive Task.stepOk WritesWhole (bothFlushes ++ sections 1 1 ++ sections 2 4 ++
      sections 1 3) twoFlushes).get twoFlushes_whole_runs).2
    ∃ f, .flush f ∈ c.tasks ∧
      (do let d ← (IndexDecoder.new c.shared.indexFile).decodeIndexFile; d.finish) =
        .ok f.index := by
  have hopen : Database.open "db" ⟨[], [], []⟩ = .ok twoFlushes.shared := rfl
  have hinit : ∀ t ∈ twoFlushes.tasks, t.Initial := by simp [twoFlushes, Task.Initial]
  have hkeys : ∀ entry stage, .write entry stage ∈ twoFlushes.tasks →
      entry.key.Encodable := by
    simp [twoFlushes]
    decide
  exact index_file_holds_one_copy hopen hinit hkeys ⟨.start, by simp [twoFlushes]⟩
    (run_get_drive twoFlushes_whole_runs) (by decide +kernel)

/-- Two writers and two flushes on a new database. -/
def growingIndex : Pool Database Task where
  shared := Database.new "db" [] ⟨[], []⟩
  tasks :=
    [.write (.set (.ofText "a") (.primitive (.integer 1))) .append, .flush .start,
      .write (.set (.ofText "bb") (.primitive (.integer 2))) .append, .flush .start]

/-- The first flush copies an index of one entry and the second one of two;
both truncate the file, the second writes and then the first. -/
def shortOverLong : List (ℕ × Choice) :=
  sections 0 2 ++ takeBatch 1 [(.ofText "a", .set (.ofText "a") (.primitive (.integer 1)))] ++
    sections 1 5 ++ copyIndex 1 [(.ofText "a", ⟨114, 1, 9⟩)] ++ sections 2 2 ++
    takeBatch 3 [(.ofText "a", .set (.ofText "a") (.primitive (.integer 1))),
      (.ofText "bb", .set (.ofText "bb") (.primitive (.integer 2)))] ++
    sections 3 6 ++ copyIndex 3 [(.ofText "bb", ⟨162, 2, 9⟩), (.ofText "a", ⟨138, 1, 9⟩)] ++
    sections 1 1 ++ sections 3 2 ++ sections 1 3 ++ sections 3 2

/-- The shorter copy is written over the longer one. -/
theorem growingIndex_shortOverLong_runs :
    (drive Task.stepOk anyStep shortOverLong growingIndex).isSome := by
  decide +kernel

/-- Then the rest of the longer copy stays behind the shorter one, and the
index file cannot be decoded. -/
theorem index_file_mixes_copies :
    let out := (drive Task.stepOk anyStep shortOverLong growingIndex).get
      growingIndex_shortOverLong_runs
    Run Task.stepOk anyStep growingIndex out.1 out.2 ∧ (∀ t ∈ out.2.tasks, t.Returned) ∧
      (do let d ← (IndexDecoder.new out.2.shared.indexFile).decodeIndexFile; d.finish) =
        failWith (.io .unexpectedEof) :=
  ⟨run_get_drive growingIndex_shortOverLong_runs, by decide +kernel, by decide +kernel⟩

end PeachDB.Db
