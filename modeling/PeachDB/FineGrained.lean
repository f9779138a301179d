import PeachDB.CriticalSection
import PeachDB.Mailbox
import PeachDB.Opening

/-!
# Database tasks as the scheduler sees them

`file.rs`, and the awaits of `db.rs` and `wal.rs`. Each file belongs to a task
that serves commands from a channel of 32, and the log is guarded by a mutex
that is held over several commands. A call on the database gives up the
processor at every command and at the mutex. The sections of `Task.step` are
larger: a command and its reply are one section, and so is all that is done
with the mutex held.
-/

namespace PeachDB

open LittleEndian Dtypes RecordCodec IndexCodec WriteAheadLog Interleaving Mailbox CriticalSection

namespace FileHandler

/-- `FileCmd`, without the channel for the reply. -/
inductive FileCmd
  | readAll
  | writeAt (pos : UInt64) (data : Bytes)
  | append (data : Bytes)
  | setLen (len : UInt64)
  | syncAll
  deriving DecidableEq

/-- What is sent back through the channel of a command. -/
inductive Reply
  | readAll (result : PDBResult Bytes)
  | writeAt (result : PDBResult Unit)
  | append (result : PDBResult UInt64)
  | setLen (result : PDBResult Unit)
  | syncAll (result : PDBResult Unit)
  deriving DecidableEq

/-- `FileCmd::ReadAll`. -/
def readAll (io : Verdict) (file : Bytes) : PDBResult Bytes :=
  match io with
  | .failed _ | .deferred _ => failWith (mapFileHandlerError .device)
  | .done => .ok file

/-- One round of the loop in `FileHandler::spawn`. -/
def FileCmd.serve (io : Verdict) (cmd : FileCmd) (file : Bytes) : Reply × Bytes :=
  match cmd with
  | .readAll => (.readAll (FileHandler.readAll io file), file)
  | .writeAt pos data => ((FileHandler.writeAt io file pos data).map .writeAt id)
  | .append data => ((FileHandler.append io file data).map .append id)
  | .setLen len => ((FileHandler.setLen io file len.toNat).map .setLen id)
  | .syncAll => (.syncAll (FileHandler.syncAll io), file)

/-- `mpsc::channel(32)`. -/
def channelCapacity : ℕ := 32

end FileHandler

namespace Db

open FileHandler

/-- The files of a database. -/
inductive FileId
  | data
  | index
  | wal
  deriving DecidableEq

/-- What the tasks share in memory: the state, the entries of the log, and
whether its mutex is held. A lock of the state is never held at an await. -/
structure Memory where
  /-- What the lock of the state guards. -/
  state : State
  /-- `wal.entries`. -/
  entries : List WalEntry
  /-- The mutex of the log is taken. -/
  locked : Bool
  deriving DecidableEq

/-- Where a task is that holds the mutex of the log. -/
inductive Holding
  /-- `append_entry` is about to append the bytes of an entry. -/
  | append (entry : WalEntry)
  /-- The bytes are appended. -/
  | push (entry : WalEntry)
  /-- `checkpoint` is about to cut the file. -/
  | truncate (f : Flush)
  /-- The log is about to be synced; `next` is the task behind the call. -/
  | sync (next : Task)
  /-- The call returns and the mutex is released. -/
  | release (next : Task)
  deriving DecidableEq

/-- A task, without or with the mutex. -/
inductive Fine
  | outside (t : Task)
  | inside (holding : Holding)
  deriving DecidableEq

section

variable [Crc]

/-- The command that a flush sends next, if its next section is one. -/
def Flush.command (f : Flush) : Option (FileId × FileCmd) :=
  match f.stage with
  | .batch =>
    match f.todo with
    | [] => some (.data, .syncAll)
    | .set key field :: _ => some (.data, .append (encode key field))
    | .delete key :: _ =>
      (f.deletePlan.lookup key).map fun entry =>
        let deleted :=
          (((DBDeleter.new.setKeyLen entry.keyLen).setFieldLen
            entry.fieldLen).getDeletedField).finish
        (.data, .writeAt entry.offset deleted)
  | .writeCount => some (.data, .writeAt recordCountOffset (ofU64 f.count))
  | .truncIndex => some (.index, .setLen 0)
  | .writeIndex => some (.index, .writeAt 0 f.encoded)
  | .syncIndex => some (.index, .syncAll)
  | .pop | .plan | .publish | .countFields | .cloneIndex | .checkpoint | .done => none

omit [Crc] in
/-- What a flush does behind a command that succeeded. -/
def Flush.after (f : Flush) : Flush :=
  match f.stage with
  | .batch =>
    match f.todo with
    | [] => { f with stage := .publish }
    | _ :: todo => { f with todo }
  | .writeCount => { f with stage := .cloneIndex }
  | .truncIndex => { f with stage := .writeIndex }
  | .writeIndex => { f with stage := .syncIndex }
  | .syncIndex => { f with stage := .checkpoint }
  | .pop | .plan | .publish | .countFields | .cloneIndex | .checkpoint | .done => f

omit [Crc] in
/-- How a flush goes on with a reply. -/
def Flush.resume (f : Flush) (reply : Reply) : Task :=
  match reply with
  | .writeAt (.ok _) | .setLen (.ok _) | .syncAll (.ok _) | .readAll (.ok _) => .flush f.after
  | .append (.ok recordStart) =>
    match f.todo with
    | .set key field :: _ =>
      let entry : IndexEntry :=
        ⟨recordStart, UInt16.ofNat key.len, UInt32.ofNat (bytesFromField field).length⟩
      .flush { f.after with indexes := f.indexes ++ [(key, entry)] }
    | _ => .flush f.after
  | .writeAt (.error e) | .setLen (.error e) | .syncAll (.error e) | .readAll (.error e)
    | .append (.error e) =>
    .failed e

omit [Crc] in
/-- A section of a flush without a command. `pop_uncommited_entries` holds the
mutex without an await; `checkpoint` takes it, and clears the entries. -/
def Flush.compute (choice : Choice) (m : Memory) (f : Flush) : Option (Memory × Fine) :=
  match f.stage with
  | .pop =>
    if m.locked then none
    else some (m, .outside (.flush { f with stage := .plan, net := netOf m.entries }))
  | .plan =>
    if IterOrder f.net choice.batch then
      let deletePlan := deletePlanOf f.net m.state.index
      let todo := choice.batch.map Prod.snd
      some (m, .outside (.flush { f with stage := .batch, deletePlan, todo }))
    else none
  | .batch =>
    match f.todo with
    | .delete key :: todo =>
      if f.deletePlan.lookup key = none then some (m, .outside (.flush { f with todo })) else none
    | _ => none
  | .publish =>
    let state := Db.publish m.state f.indexes f.deletePlan
    some ({ m with state }, .outside (.flush { f with stage := .countFields }))
  | .countFields =>
    let count := UInt64.ofNat (Multiset.card m.state.fields.entries)
    some (m, .outside (.flush { f with stage := .writeCount, count }))
  | .cloneIndex =>
    if IterOrder m.state.index choice.index then
      let encoded := (IndexEncoder.new.encodeIndexFile choice.index).finish
      some (m, .outside (.flush { f with stage := .truncIndex, index := m.state.index, encoded }))
    else none
  | .checkpoint =>
    if m.locked then none else some ({ m with entries := [], locked := true },
      .inside (.truncate f))
  | .writeCount | .truncIndex | .writeIndex | .syncIndex | .done => none

omit [Crc] in
/-- A section of a task without a command. -/
def Fine.compute (choice : Choice) (m : Memory) : Fine → Option (Memory × Fine)
  | .outside (.write entry .append) =>
    if m.locked then none else some ({ m with locked := true }, .inside (.append entry))
  | .outside (.write entry .update) =>
    let fields := applyEntry m.state.fields entry
    some ({ m with state := { m.state with fields } }, .outside (.write entry .done))
  | .outside (.get key none) =>
    let result := match m.state.fields.lookup key with
      | some field => .ok field
      | none => failWith .keyNotFound
    some (m, .outside (.get key (some result)))
  | .outside (.flush f) => f.compute choice m
  | .inside (.push entry) =>
    some ({ m with entries := m.entries ++ [entry] }, .inside (.sync (.write entry .update)))
  | .inside (.release next) => some ({ m with locked := false }, .outside next)
  | _ => none

/-- The command that a task sends next. -/
def Fine.command : Fine → Option (FileId × FileCmd)
  | .outside (.flush f) => f.command
  | .inside (.append entry) => some (.wal, .append (walBytes entry))
  | .inside (.truncate _) => some (.wal, .setLen 0)
  | .inside (.sync _) => some (.wal, .syncAll)
  | _ => none

omit [Crc] in
/-- How a task goes on with a reply. -/
def Fine.resume (l : Fine) (reply : Reply) : Fine :=
  match l, reply with
  | .outside (.flush f), reply => .outside (f.resume reply)
  | .inside (.append entry), .append (.ok _) => .inside (.push entry)
  | .inside (.append _), .append (.error e) => .inside (.release (.failed e))
  | .inside (.truncate f), .setLen (.ok _) => .inside (.sync (.flush { f with stage := .done }))
  | .inside (.truncate _), .setLen (.error e) => .inside (.release (.failed e))
  | .inside (.sync next), .syncAll (.ok _) => .inside (.release next)
  | .inside (.sync _), .syncAll (.error e) => .inside (.release (.failed e))
  | l, _ => l

/-- The code of the calls on a database. -/
def program : Program Memory FileId FileCmd Reply Fine Choice :=
  ⟨Fine.compute, Fine.command, Fine.resume⟩

/-- A database whose files are owned by tasks. -/
abbrev FineSystem := System Memory Bytes FileId FileCmd Reply Fine

omit [Crc] in
/-- Calls on a database that have not begun. -/
def fineStart (db : Database) (tasks : List Task) : FineSystem :=
  .start ⟨db.state, db.wal.entries, false⟩
    (fun | .data => db.file | .index => db.indexFile | .wal => db.wal.file) (tasks.map .outside)

/-- One step of the calls and of the tasks that own the files. -/
abbrev FineStep : FineSystem → FineSystem → Prop :=
  Mailbox.Step program (fun io cmd file => cmd.serve io file) channelCapacity

/-- Any steps of the calls and of the tasks that own the files. -/
abbrev FineRun : FineSystem → FineSystem → Prop :=
  Mailbox.Run program (fun io cmd file => cmd.serve io file) channelCapacity

/-- What a prompt file does with a command. -/
abbrev PromptVerdict := {io : Verdict // io.Prompt}

/-- A prompt file does all that a command asks. -/
def PromptVerdict.done : PromptVerdict := ⟨.done, trivial⟩

/-- Any steps of the calls and of the tasks that own the files, which are
prompt. -/
abbrev PromptRun : FineSystem → FineSystem → Prop :=
  Mailbox.Run program (fun (io : PromptVerdict) cmd file => cmd.serve io.1 file) channelCapacity

/-- Execute steps of the calls and of the tasks that own the files. -/
abbrev finePerform : FineSystem → List (Move FileId Choice Verdict) → Option FineSystem :=
  performAll program (fun io cmd file => FileCmd.serve io cmd file) channelCapacity

/-- Execute steps of the calls and of the tasks that own prompt files. -/
abbrev promptPerform :
    FineSystem → List (Move FileId Choice PromptVerdict) → Option FineSystem :=
  performAll program (fun io cmd file => FileCmd.serve io.1 cmd file) channelCapacity

end

end Db

end PeachDB
