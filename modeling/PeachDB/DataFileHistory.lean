import PeachDB.FineRefinement

/-!
# The data file over time

Whatever the calls on a database do, the data file only grows: records are
added at its end, and those that are there stay where they are, with their
lengths, until they become tombstones for good.
-/

namespace PeachDB

open Dtypes RecordCodec FileHandler WriteAheadLog Interleaving Mailbox CriticalSection Db

/-- A tombstone stays the same when it is deleted again. -/
@[simp] theorem Record.tombstone_tombstone (r : Record) : r.tombstone.tombstone = r.tombstone := by
  simp only [tombstone, parts, Key.len, List.length_replicate]

/-- A record stays where it is, or it becomes its tombstone there. -/
structure Slot.Becomes (s s' : Slot) : Prop where
  /-- It stays in its place. -/
  offset : s'.offset = s.offset
  /-- It is the record of before, or its tombstone. -/
  record : s'.record = s.record ∨ s'.record = s.record.tombstone

namespace Slot

/-- A slot may stay as it is. -/
theorem Becomes.refl (s : Slot) : s.Becomes s := ⟨rfl, .inl rfl⟩

/-- What becomes of a slot in two steps. -/
theorem Becomes.trans {s s' s'' : Slot} (h : s.Becomes s') (h' : s'.Becomes s'') :
    s.Becomes s'' := by
  refine ⟨h'.offset.trans h.offset, ?_⟩
  rcases h'.record with heq | heq
  · rw [heq]
    exact h.record
  · rcases h.record with heq' | heq'
    · exact .inr (heq.trans (congrArg Record.tombstone heq'))
    · rw [heq, heq', Record.tombstone_tombstone]
      exact .inr rfl

/-- Nothing that is dead comes alive again. -/
theorem Becomes.isDead {s s' : Slot} (h : s.Becomes s') (hdead : s.record.isDead = true) :
    s'.record.isDead = true := by
  rcases h.record with heq | heq
  · rw [heq]
    exact hdead
  · rw [heq]
    exact Record.isDead_tombstone _

/-- A tombstone at any place leaves a slot or deletes it. -/
theorem becomes_tombstoneAt (s : Slot) (offset : ℕ) :
    s.Becomes ⟨s.offset, s.tombstoneAt offset⟩ := by
  refine ⟨rfl, ?_⟩
  dsimp only
  rw [tombstoneAt]
  split
  · exact .inr rfl
  · exact .inl rfl

end Slot

namespace DataFile

/-- A later state of a data file: the records of the first file are the first
records of the later one, each in its place. -/
structure GrowsTo (df df' : DataFile) : Prop where
  /-- The header changes in its count alone. -/
  header : Header.SameBut df'.header df.header
  /-- Every record of before is in its place. -/
  slots : ∀ (i : ℕ) (s : Slot), df.slots[i]? = some s → ∃ s', df'.slots[i]? = some s' ∧
    s.Becomes s'

/-- A data file may stay as it is. -/
theorem GrowsTo.refl (df : DataFile) : df.GrowsTo df :=
  ⟨rfl, fun _ s hs => ⟨s, hs, .refl s⟩⟩

/-- A data file grows step by step. -/
theorem GrowsTo.trans {df df' df'' : DataFile} (h : df.GrowsTo df') (h' : df'.GrowsTo df'') :
    df.GrowsTo df'' := by
  refine ⟨?_, fun i s hs => ?_⟩
  · have hheader := h'.header
    rw [Header.SameBut, h.header] at hheader
    exact hheader
  · obtain ⟨s', hs', hbecomes⟩ := h.slots i s hs
    obtain ⟨s'', hs'', hbecomes'⟩ := h'.slots i s' hs'
    exact ⟨s'', hs'', hbecomes.trans hbecomes'⟩

/-- An append lets the data file grow. -/
theorem growsTo_append (df : DataFile) (r : Record) : df.GrowsTo (df.append r) := by
  refine ⟨rfl, fun i s hs => ⟨s, ?_, .refl s⟩⟩
  rw [slots_append, List.getElem?_append_left (List.getElem?_eq_some_iff.mp hs).1]
  exact hs

/-- A tombstone lets the data file grow. -/
theorem growsTo_tombstone (df : DataFile) (offset : ℕ) : df.GrowsTo (df.tombstone offset) := by
  refine ⟨rfl, fun i s hs => ⟨⟨s.offset, s.tombstoneAt offset⟩, ?_, s.becomes_tombstoneAt offset⟩⟩
  rw [slots_tombstone, List.getElem?_map, hs]
  rfl

/-- A new count lets the data file grow. -/
theorem growsTo_setCount (df : DataFile) (count : UInt64) : df.GrowsTo (df.setCount count) :=
  ⟨rfl, fun _ s hs => ⟨s, hs, .refl s⟩⟩

/-- Every section of a task lets the data file grow. -/
theorem growsTo_after (df : DataFile) (t : Task) : df.GrowsTo (df.after t) := by
  cases t with
  | write entry stage | get key result | failed e => exact .refl df
  | flush f =>
    simp only [after]
    split
    · split
      · exact df.growsTo_append _
      · exact .refl df
    · split
      · exact df.growsTo_tombstone _
      · exact .refl df
    · exact df.growsTo_setCount _
    · exact .refl df

end DataFile

namespace Db

section

variable [Crc]

/-- Over a run the data file stays sound and grows. -/
theorem growsTo_of_run {guard : Guard Database Task} {db : Database} {df₀ df : DataFile}
    {tasks trace : List Task} {c : Pool Database Task}
    (hrun : Run Task.stepOk guard ⟨db, tasks⟩ trace c) (hdb : Sound df db)
    (hgrows : df₀.GrowsTo df) (htasks : ∀ t ∈ tasks, TaskSound df t) :
    ∃ df', (Sound df' c.shared ∧ df₀.GrowsTo df') ∧ ∀ t ∈ c.tasks, TaskSound df' t := by
  refine hrun.pool_invariant (G := fun df db => Sound df db ∧ df₀.GrowsTo df)
    (P := fun df _ t => TaskSound df t) ?_
    ⟨df, ⟨hdb, hgrows⟩, htasks⟩
  rintro df choice db others t db' t' - hexec ⟨hdb, hgrows⟩ ht hothers
  obtain ⟨hdb', ht'⟩ := (moves_of_stepOk hexec).sound hdb ht
  exact ⟨df.after t, ⟨hdb', hgrows.trans (df.growsTo_after t)⟩, ht',
    fun u hu => (hothers u hu).mono fun _ _ h => h.after⟩

/-- At any two moments of a run of calls on a sound database with prompt files,
of which none has failed, the later data file has the records of the earlier one
in their places, each as it was or as its tombstone, and the same header but for
the count. -/
theorem data_file_grows {db : Database} {df : DataFile} {tasks : List Task} {s s' : FineSystem}
    (hdb : Sound df db) (htasks : ∀ t ∈ tasks, TaskSound df t)
    (hrun : PromptRun (fineStart db tasks) s) (hlater : PromptRun s s')
    (hnone : ∀ status ∈ s'.tasks, ¬ (status.settled program).Failed) :
    ∃ df₁ df₂ : DataFile, s.objects .data = df₁.bytes ∧ s'.objects .data = df₂.bytes ∧
      df.GrowsTo df₁ ∧ df₁.GrowsTo df₂ := by
  obtain ⟨trace, c, trace', c', hsections, hagrees, hsections', hagrees'⟩ :=
    agrees_of_run (fun io : PromptVerdict => io.1) Verdict.Prompt trivial (fun io => io.2) hrun
      hlater
  obtain ⟨hok', hnone⟩ := stepOk_of_run hsections' (hagrees'.ne_failed hnone)
  obtain ⟨hok, -⟩ := stepOk_of_run hsections hnone
  obtain ⟨df₁, ⟨hsound₁, hgrows₁⟩, htasks₁⟩ := growsTo_of_run hok hdb (.refl df) htasks
  obtain ⟨df₂, ⟨hsound₂, hgrows₂⟩, -⟩ := growsTo_of_run hok' hsound₁ (.refl df₁) htasks₁
  exact ⟨df₁, df₂, hagrees.data.symm.trans hsound₁.file, hagrees'.data.symm.trans hsound₂.file,
    hgrows₁, hgrows₂⟩

end

open scoped IsoHdlc

/-- A key is set and flushed. -/
def setAndFlush : List Task :=
  [.write (.set (.ofText "k") (.primitive (.integer 1))) .append, .flush .start]

/-- The record is appended to the data file. -/
def untilAppended : List (Move FileId Choice PromptVerdict) :=
  [.compute 0 .plain, .send 0, .serve .wal .done, .receive 0, .compute 0 .plain, .send 0,
    .serve .wal .done, .receive 0, .compute 0 .plain, .compute 0 .plain, .compute 1 .plain,
    .compute 1 { Choice.plain with batch :=
      [(.ofText "k", .set (.ofText "k") (.primitive (.integer 1)))] },
    .send 1, .serve .data .done]

/-- The data file is synced and gets its count. -/
def untilCounted : List (Move FileId Choice PromptVerdict) :=
  [.receive 1, .send 1, .serve .data .done, .receive 1, .compute 1 .plain, .compute 1 .plain,
    .send 1, .serve .data .done]

/-- The first moment is reached. -/
theorem untilAppended_runs :
    (promptPerform (fineStart (Database.new "db" [] ⟨[], []⟩) setAndFlush)
      untilAppended).isSome := by
  decide +kernel

/-- The second moment is reached from the first. -/
theorem untilCounted_runs :
    (promptPerform ((promptPerform _ _).get untilAppended_runs) untilCounted).isSome := by
  decide +kernel

/-- The record stays where it was appended. -/
theorem data_file_grows_setAndFlush :
    let s := (promptPerform _ _).get untilAppended_runs
    let s' := (promptPerform _ _).get untilCounted_runs
    ∃ df₁ df₂ : DataFile, s.objects .data = df₁.bytes ∧ s'.objects .data = df₂.bytes ∧
      (emptyFile "db").GrowsTo df₁ ∧ df₁.GrowsTo df₂ := by
  refine data_file_grows (sound_new "db") ?_ (run_get_performAll untilAppended_runs)
    (run_get_performAll untilCounted_runs) (by decide +kernel)
  intro t ht
  rcases List.mem_cons.mp ht with rfl | ht
  · change WalEntry.Encodable _
    decide
  · rw [List.mem_singleton.mp ht]
    exact flushSound_start _

end Db

end PeachDB
