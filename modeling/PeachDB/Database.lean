import PeachDB.DataFileDecoding
import PeachDB.Interleaving
import PeachDB.WriteAheadLog

/-!
# The database and its tasks

`db.rs`. A database is the state in memory, the log and the contents of its
files. Calls run as tasks that interleave at lock-guarded sections and file
commands: a write appends to the log and then updates the state, a flush goes
through the stages of `flush`, `update_record_count`, `rebuild_index` and
`checkpoint`. What the scheduler, the hash maps and the operating system leave
open is the choice of each step.
-/

namespace PeachDB.Db

open LittleEndian Dtypes RecordCodec IndexCodec FileHandler WriteAheadLog Interleaving

/-- `State`. -/
structure State where
  /-- The values of the keys. -/
  fields : HashMap Key Field
  /-- Where the records of the keys are in the data file. -/
  index : HashMap Key IndexEntry
  deriving DecidableEq

/-- `Database`; a file handler stands for the contents of its file. -/
structure Database where
  /-- What the lock of the state guards. -/
  state : State
  /-- The log in memory and in its file. -/
  wal : Wal
  /-- The `.db` file. -/
  file : Bytes
  /-- The `.dbidx` file. -/
  indexFile : Bytes
  deriving DecidableEq

/-- The files that a database leaves behind; a missing one counts as empty. -/
structure Disk where
  /-- The `.db` file. -/
  file : Bytes
  /-- The `.dbidx` file. -/
  indexFile : Bytes
  /-- The `.wal` file. -/
  wal : Bytes
  deriving DecidableEq

/-- `RECORD_COUNT_OFFSET`. -/
def recordCountOffset : UInt64 := 34

/-- The `match` on one entry in the replay loop of `Database::init`. -/
def applyEntry (fields : HashMap Key Field) : WalEntry → HashMap Key Field
  | .set key field => fields.insert key field
  | .delete key => fields.erase key

/-- The replay loop of `Database::init`. -/
def replay (fields : HashMap Key Field) (entries : List WalEntry) : HashMap Key Field :=
  entries.foldl applyEntry fields

namespace Database

/-- The files as they are now. -/
def disk (db : Database) : Disk := ⟨db.file, db.indexFile, db.wal.file⟩

/-- `Database::new`: the data file becomes a bare header; the index file and
the log are taken over as they are. -/
def new (name : String) (indexFile : Bytes) (wal : Wal) : Database where
  state := ⟨∅, ∅⟩
  wal := wal
  file := (DBEncoder.new.encodeDbHeader ⟨1, 0, name⟩).finish
  indexFile := indexFile

/-- The index that `Database::init` starts with: the one of the index file,
or a scan of the data file when that is empty. -/
def initIndex (file indexFile : Bytes) : PDBResult (HashMap Key IndexEntry) :=
  if indexFile ≠ [] then do
    let decoder ← (IndexDecoder.new indexFile).decodeIndexFile
    decoder.finish
  else do
    let decoder ← (IndexFromDBDecoder.new file).decodeIndexFromFile
    decoder.finish

/-- `Database::init`. -/
def init [Crc] (file indexFile : Bytes) (wal : Wal) : PDBResult Database := do
  let (fields, _) ← (do let decoder ← (DBDecoder.new file).decodeDbFile; decoder.finish)
  let index ← initIndex file indexFile
  .ok ⟨⟨replay fields wal.popUncommitedEntries, index⟩, wal, file, indexFile⟩

end Database

/-- `Database::open`. -/
def Database.open [Crc] (name : String) (disk : Disk) : PDBResult Database :=
  if (stringBytes name).length > 64 then failWith .dbNameToLong
  else do
    let wal ← Wal.open disk.wal
    if disk.file = [] then .ok (Database.new name disk.indexFile wal)
    else Database.init disk.file disk.indexFile wal

/-- `Database::get`. -/
def Database.get (db : Database) (key : Key) : PDBResult Field :=
  match db.state.fields.lookup key with
  | some field => .ok field
  | none => failWith .keyNotFound

/-- The deduplication loop of `flush`. -/
def netOf (entries : List WalEntry) : HashMap Key WalEntry :=
  entries.foldl (fun net entry => net.insert entry.key entry) ∅

/-- One round of the loop that fills the delete plan. -/
def planEntry (index : HashMap Key IndexEntry) (plan : HashMap Key IndexEntry) (key : Key)
    (entry : WalEntry) : HashMap Key IndexEntry :=
  match entry with
  | .set _ _ => plan
  | .delete _ =>
    match index.lookup key with
    | some indexEntry => plan.insert key indexEntry
    | none => plan

/-- An entry plans its own key, when it is a delete of one that the index knows.
-/
theorem lookup_planEntry (index plan : HashMap Key IndexEntry) (key k : Key) (entry : WalEntry) :
    (planEntry index plan key entry).lookup k =
      if k = key ∧ entry.value = none ∧ (index.lookup key).isSome then index.lookup key
      else plan.lookup k := by
  cases entry with
  | set _ _ => simp [planEntry, WalEntry.value]
  | delete _ =>
    cases hi : index.lookup key with
    | none => simp [planEntry, hi]
    | some indexEntry => simp [planEntry, hi, WalEntry.value, lookup_insert_eq]

/-- The order of the batch does not matter to the plan. -/
theorem planEntry_comm (index : HashMap Key IndexEntry) (plan : HashMap Key IndexEntry) (k₁ : Key)
    (e₁ : WalEntry) (k₂ : Key) (e₂ : WalEntry) :
    planEntry index (planEntry index plan k₁ e₁) k₂ e₂ =
      planEntry index (planEntry index plan k₂ e₂) k₁ e₁ := by
  apply Finmap.ext_lookup
  intro k
  simp only [lookup_planEntry]
  by_cases h₁ : k = k₁
  · by_cases h₂ : k = k₂
    · subst h₁
      subst h₂
      split <;> split <;> rfl
    · simp only [h₂, false_and, if_false]
  · simp only [h₁, false_and, if_false]

/-- The delete plan of `flush`: the index entries of the keys to delete. -/
def deletePlanOf (net : HashMap Key WalEntry) (index : HashMap Key IndexEntry) :
    HashMap Key IndexEntry :=
  net.foldl (planEntry index) (planEntry_comm index) ∅

/-- The state update of `flush`. -/
def publish (state : State) (indexes : List (Key × IndexEntry))
    (deletePlan : HashMap Key IndexEntry) :
    State where
  index := removeKeys (insertAll state.index indexes) deletePlan
  fields := removeKeys state.fields deletePlan

/-- The section of a flush that is executed next. -/
inductive Stage
  /-- The log is locked and its entries are copied. -/
  | pop
  /-- The state is locked for reading and the delete plan is made. -/
  | plan
  /-- One item of the batch is written, or the data file is synced. -/
  | batch
  /-- The state is locked for writing and updated. -/
  | publish
  /-- The state is locked for reading and its fields are counted. -/
  | countFields
  /-- `update_record_count` writes the count. -/
  | writeCount
  /-- The state is locked for reading and its index is copied and encoded. -/
  | cloneIndex
  /-- `rebuild_index` truncates the file. -/
  | truncIndex
  /-- `rebuild_index` writes the copy. -/
  | writeIndex
  /-- `rebuild_index` syncs the file. -/
  | syncIndex
  /-- The log is locked and truncated. -/
  | checkpoint
  /-- The call has returned. -/
  | done
  deriving DecidableEq

/-- The local variables of a flush. `net` is kept to the end, where the
program has moved it into the batch. -/
structure Flush where
  /-- The next section. -/
  stage : Stage
  /-- `net`: the last entry of every key in the log. -/
  net : HashMap Key WalEntry
  /-- `delete_plan`: the records that it deletes. -/
  deletePlan : HashMap Key IndexEntry
  /-- What it has still to write of the batch. -/
  todo : List WalEntry
  /-- `indexes`: where it has appended records. -/
  indexes : List (Key × IndexEntry)
  /-- `count`: the number that it writes into the header. -/
  count : UInt64
  /-- The copy of the index that it writes. -/
  index : HashMap Key IndexEntry
  /-- The bytes of this copy. -/
  encoded : Bytes
  deriving DecidableEq

/-- A flush that has not begun. -/
def Flush.start : Flush := ⟨.pop, ∅, ∅, [], [], 0, ∅, []⟩

/-- The section of a `set` or `delete` that is executed next. -/
inductive WriteStage
  /-- The log is locked and the entry is appended. -/
  | append
  /-- The state is locked and updated. -/
  | update
  /-- The call has returned. -/
  | done
  deriving DecidableEq

/-- A call on the database. -/
inductive Task
  /-- `set` or `delete`, by the log entry that it makes. -/
  | write (entry : WalEntry) (stage : WriteStage)
  | get (key : Key) (result : Option (PDBResult Field))
  | flush (f : Flush)
  /-- The call returned an error or panicked. -/
  | failed (e : Abort)
  deriving DecidableEq

/-- What one step leaves open: the verdicts on its file commands and the
orders in which it iterates over a hash map. -/
structure Choice where
  /-- The file in the first command of the section. -/
  first : Verdict
  /-- The file in the second command. -/
  second : Verdict
  /-- The order of the batch. -/
  batch : List (Key × WalEntry)
  /-- The order of the index entries. -/
  index : List (Key × IndexEntry)

/-- A step whose commands succeed and that iterates over nothing. -/
def Choice.plain : Choice := ⟨.done, .done, [], []⟩

/-- The files of a step are prompt. -/
def Choice.Prompt (choice : Choice) : Prop := choice.first.Prompt ∧ choice.second.Prompt

instance : DecidablePred Choice.Prompt := fun choice =>
  inferInstanceAs (Decidable (choice.first.Prompt ∧ choice.second.Prompt))

/-- Go on after a command that succeeded, fail otherwise. -/
def proceed (db : Database) (result : PDBResult Unit) (next : Task) : Database × Task :=
  (db, match result with | .ok () => next | .error e => .failed e)

/-- One item of the batch loop of `flush`. -/
def Flush.batchItem [Crc] (io : Verdict) (db : Database) (f : Flush) (todo : List WalEntry) :
    WalEntry → Database × Task
  | .set key field =>
    match append io db.file (encode key field) with
    | (.error e, file) => ({ db with file }, .failed e)
    | (.ok recordStart, file) =>
      let entry : IndexEntry :=
        ⟨recordStart, UInt16.ofNat key.len, UInt32.ofNat (bytesFromField field).length⟩
      ({ db with file }, .flush { f with todo, indexes := f.indexes ++ [(key, entry)] })
  | .delete key =>
    match f.deletePlan.lookup key with
    | none => (db, .flush { f with todo })
    | some entry =>
      let deleted :=
        (((DBDeleter.new.setKeyLen entry.keyLen).setFieldLen entry.fieldLen).getDeletedField).finish
      let (result, file) := writeAt io db.file entry.offset deleted
      proceed { db with file } result (.flush { f with todo })

/-- The next section of a flush. -/
def Flush.step [Crc] (choice : Choice) (db : Database) (f : Flush) : Option (Database × Task) :=
  match f.stage with
  | .pop => some (db, .flush { f with stage := .plan, net := netOf db.wal.popUncommitedEntries })
  | .plan =>
    if IterOrder f.net choice.batch then
      let deletePlan := deletePlanOf f.net db.state.index
      some (db, .flush { f with stage := .batch, deletePlan, todo := choice.batch.map Prod.snd })
    else none
  | .batch =>
    match f.todo with
    | [] => some (proceed db (syncAll choice.first) (.flush { f with stage := .publish }))
    | entry :: todo => some (f.batchItem choice.first db todo entry)
  | .publish =>
    let state := publish db.state f.indexes f.deletePlan
    some ({ db with state }, .flush { f with stage := .countFields })
  | .countFields =>
    let count := UInt64.ofNat (Multiset.card db.state.fields.entries)
    some (db, .flush { f with stage := .writeCount, count })
  | .writeCount =>
    let (result, file) := writeAt choice.first db.file recordCountOffset (ofU64 f.count)
    some (proceed { db with file } result (.flush { f with stage := .cloneIndex }))
  | .cloneIndex =>
    if IterOrder db.state.index choice.index then
      let encoded := (IndexEncoder.new.encodeIndexFile choice.index).finish
      some (db, .flush { f with stage := .truncIndex, index := db.state.index, encoded })
    else none
  | .truncIndex =>
    let (result, indexFile) := setLen choice.first db.indexFile 0
    some (proceed { db with indexFile } result (.flush { f with stage := .writeIndex }))
  | .writeIndex =>
    let (result, indexFile) := writeAt choice.first db.indexFile 0 f.encoded
    some (proceed { db with indexFile } result (.flush { f with stage := .syncIndex }))
  | .syncIndex => some (proceed db (syncAll choice.first) (.flush { f with stage := .checkpoint }))
  | .checkpoint =>
    let (result, wal) := db.wal.checkpoint choice.first choice.second
    some (proceed { db with wal } result (.flush { f with stage := .done }))
  | .done => none

/-- The next section of a task; none when it has returned. -/
def Task.step [Crc] (choice : Choice) (db : Database) : Task → Option (Database × Task)
  | .write entry .append =>
    let (result, wal) := db.wal.appendEntry choice.first choice.second entry
    some (proceed { db with wal } result (.write entry .update))
  | .write entry .update =>
    let fields := applyEntry db.state.fields entry
    some ({ db with state := { db.state with fields } }, .write entry .done)
  | .write _ .done => none
  | .get key none => some (db, .get key (some (db.get key)))
  | .get _ (some _) => none
  | .flush f => f.step choice db
  | .failed _ => none

/-- The call returned `Ok`. -/
def Task.Returned : Task → Prop
  | .write _ stage => stage = .done
  | .get _ result => result.isSome
  | .flush f => f.stage = .done
  | .failed _ => False

instance : DecidablePred Task.Returned
  | .write _ stage => inferInstanceAs (Decidable (stage = .done))
  | .get _ result => inferInstanceAs (Decidable (result.isSome = true))
  | .flush f => inferInstanceAs (Decidable (f.stage = .done))
  | .failed _ => isFalse id

/-- The call has not begun. -/
def Task.Initial : Task → Prop
  | .write _ stage => stage = .append
  | .get _ result => result = none
  | .flush f => f = .start
  | .failed _ => False

/-- Steps on prompt files. -/
def Task.stepPrompt [Crc] (choice : Choice) (db : Database) (t : Task) :
    Option (Database × Task) :=
  if choice.Prompt then Task.step choice db t else none

/-- Steps in which the system refuses no file command: the files are prompt, and
no command fails. -/
def Task.stepOk [Crc] (choice : Choice) (db : Database) (t : Task) : Option (Database × Task) :=
  match Task.stepPrompt choice db t with
  | some (_, .failed _) => none
  | out => out

/-- The task at place `i` executes `n` sections without open choices. -/
def sections (i n : ℕ) : List (ℕ × Choice) := List.replicate n (i, .plain)

/-- The flush at place `i` takes the log and starts on a batch in an order. -/
def takeBatch (i : ℕ) (batch : List (Key × WalEntry)) : List (ℕ × Choice) :=
  [(i, .plain), (i, { Choice.plain with batch })]

/-- The flush at place `i` copies the index in an order. -/
def copyIndex (i : ℕ) (index : List (Key × IndexEntry)) : List (ℕ × Choice) :=
  [(i, { Choice.plain with index })]

end PeachDB.Db
