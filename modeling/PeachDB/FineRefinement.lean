import PeachDB.DataFileSteps
import PeachDB.FineGrained

/-!
# The sections of a call are atomic

A run of calls that wait for the mutex of the log and for the tasks that own
the files is a run of `Task.step`, in which all of it is done section by
section. So what holds in every run of the larger sections holds of the data
file at every moment. No call is ever stuck.
-/

namespace PeachDB.Db

open LittleEndian Dtypes RecordCodec IndexCodec FileHandler WriteAheadLog Interleaving Mailbox
  CriticalSection

/-- The file that belongs to a task. -/
def Database.fileOf (db : Database) : FileId → Bytes
  | .data => db.file
  | .index => db.indexFile
  | .wal => db.wal.file

/-- The database with another file. -/
def Database.setFile (db : Database) (id : FileId) (file : Bytes) : Database :=
  match id with
  | .data => { db with file }
  | .index => { db with indexFile := file }
  | .wal => { db with wal := { db.wal with file } }

/-- The state and the files without the log. -/
abbrev Outer := State × Bytes × Bytes

/-- A database with a log. -/
def withLog (u : Outer) (wal : Wal) : Database := ⟨u.1, wal, u.2.1, u.2.2⟩

/-- A choice of verdicts alone. -/
def verdicts (first second : Verdict) : Choice := ⟨first, second, [], []⟩

/-- A choice of orders alone. -/
def Choice.orders (choice : Choice) : Choice := { choice with first := .done, second := .done }

section

variable [Crc]

/-- Steps on files that do with their commands what `files` says. -/
def Task.stepOn (files : Verdict → Prop) [DecidablePred files] (choice : Choice) (db : Database)
    (t : Task) : Option (Database × Task) :=
  if files choice.first ∧ files choice.second then Task.step choice db t else none

/-- A step with two verdicts that the files can give. -/
theorem stepOn_verdicts {files : Verdict → Prop} [DecidablePred files] {io io' : Verdict}
    (h : files io) (h' : files io') (db : Database) (t : Task) :
    Task.stepOn files (verdicts io io') db t = Task.step (verdicts io io') db t :=
  if_pos ⟨h, h'⟩

/-- Files may do anything. -/
theorem stepOn_any : Task.stepOn (fun _ => True) = Task.step := by
  funext choice db t
  exact if_pos ⟨trivial, trivial⟩

/-- What a task with the mutex has done: it took the log as `wal`, to execute
the section of a task, and has come to another log. -/
inductive Inside (files : Verdict → Prop) [DecidablePred files] (wal : Wal) :
    Task → Fine → Wal → Prop
  /-- It is about to append the entry to the file. -/
  | append (entry : WalEntry) :
      Inside files wal (.write entry .append) (.inside (.append entry)) wal
  /-- It has appended the entry, and is about to push it. -/
  | push {entry : WalEntry} {io : Verdict} {pos : UInt64} {file : Bytes} (hio : files io)
      (happend : FileHandler.append io wal.file (walBytes entry) = (.ok pos, file)) :
      Inside files wal (.write entry .append) (.inside (.push entry)) ⟨file, wal.entries⟩
  /-- It has cleared the memory, and is about to truncate the file. -/
  | truncate {f : Flush} (hstage : f.stage = .checkpoint) :
      Inside files wal (.flush f) (.inside (.truncate f)) ⟨wal.file, []⟩
  /-- It is about to sync the file. -/
  | sync {t next : Task} {wal' : Wal} {io : Verdict} (hio : files io)
      (hnext : ∀ e, next ≠ .failed e)
      (hsync : ∀ io' u, Task.step (verdicts io io') (withLog u wal) t =
        some (proceed (withLog u wal') (syncAll io') next)) :
      Inside files wal t (.inside (.sync next)) wal'
  /-- Its section is done. -/
  | release {t next : Task} {wal' : Wal} (choice : Choice)
      (hsection : ∀ u, Task.stepOn files choice (withLog u wal) t = some (withLog u wal', next)) :
      Inside files wal t (.inside (.release next)) wal'

omit [Crc] in
/-- A flush goes on behind a command that returns nothing, or it has failed. -/
theorem proceed_eq {db : Database} {f g : Flush} {result : PDBResult Unit} {reply : Reply}
    (hg : f.after = g)
    (hreply : reply = .writeAt result ∨ reply = .setLen result ∨ reply = .syncAll result) :
    proceed db result (.flush g) = (db, f.resume reply) := by
  subst hg
  rcases hreply with rfl | rfl | rfl <;> cases result <;> rfl

/-- A command of a flush and its reply are the next section of the flush. -/
theorem flushStep_of_command {f : Flush} {id : FileId} {cmd : FileCmd}
    (h : f.command = some (id, cmd)) (io : Verdict) (db : Database) :
    id ≠ .wal ∧ f.step (verdicts io .done) db =
      some (db.setFile id (cmd.serve io (db.fileOf id)).2,
        f.resume (cmd.serve io (db.fileOf id)).1) := by
  obtain ⟨stage, net, deletePlan, todo, indexes, count, index, encoded⟩ := f
  cases stage with
  | batch =>
    cases todo with
    | nil =>
      cases h
      exact ⟨by simp, congrArg some (proceed_eq rfl (.inr (.inr rfl)))⟩
    | cons entry todo =>
      cases entry with
      | set key field =>
        cases h
        refine ⟨by simp, ?_⟩
        simp only [Flush.step, Flush.batchItem, FileCmd.serve, Database.fileOf]
        cases hcommand : FileHandler.append io db.file (encode key field) with
        | mk result file =>
          simp only [verdicts, hcommand]
          cases result <;> rfl
      | delete key =>
        obtain ⟨entry, hplan, heq⟩ := Option.map_eq_some_iff.mp h
        cases heq
        refine ⟨by simp, ?_⟩
        simp only [Flush.step, Flush.batchItem]
        dsimp only at hplan
        rw [hplan]
        exact congrArg some (proceed_eq rfl (.inl rfl))
  | writeCount | writeIndex =>
    cases h
    exact ⟨by simp, congrArg some (proceed_eq rfl (.inl rfl))⟩
  | truncIndex =>
    cases h
    exact ⟨by simp, congrArg some (proceed_eq rfl (.inr (.inl rfl)))⟩
  | syncIndex =>
    cases h
    exact ⟨by simp, congrArg some (proceed_eq rfl (.inr (.inr rfl)))⟩
  | pop | plan | publish | countFields | cloneIndex | checkpoint | done => cases h

/-- What the tasks share: the memory and the files. -/
abbrev World := Memory × (FileId → Bytes)

omit [Crc] in
/-- The state, the data file and the index file. -/
def outerOf (w : World) : Outer := (w.1.state, w.2 .data, w.2 .index)

omit [Crc] in
/-- The log. -/
def logOf (w : World) : Wal := ⟨w.2 .wal, w.1.entries⟩

omit [Crc] in
/-- The other files do not depend on the log. -/
theorem fileOf_withLog (w : World) (wal : Wal) {id : FileId} (h : id ≠ .wal) :
    (withLog (outerOf w) wal).fileOf id = w.2 id := by
  cases id with
  | data => rfl
  | index => rfl
  | wal => exact absurd rfl h

omit [Crc] in
/-- Writing another file does not depend on the log. -/
theorem setFile_withLog (w : World) (wal : Wal) {id : FileId} (h : id ≠ .wal) (file : Bytes) :
    (withLog (outerOf w) wal).setFile id file = withLog (outerOf (w.1, Function.update w.2 id file))
      wal := by
  cases id with
  | data => rfl
  | index => rfl
  | wal => exact absurd rfl h

omit [Crc] in
/-- The log does not depend on the other files. -/
theorem logOf_update (w : World) {id : FileId} (h : id ≠ .wal) (file : Bytes) :
    logOf (w.1, Function.update w.2 id file) = logOf w := by
  simp only [logOf]
  rw [Function.update_of_ne (Ne.symm h)]

/-- A section of a flush without a command: it leaves the log alone, or copies
it, or takes the mutex. -/
theorem flushStep_of_compute {choice : Choice} {w : World} {m : Memory} {f : Flush} {l : Fine}
    (h : f.compute choice w.1 = some (m, l)) :
    (∃ t, l = .outside t ∧ m.locked = w.1.locked ∧ m.entries = w.1.entries ∧
      ∀ wal, f.step choice.orders (withLog (outerOf w) wal) =
        some (withLog (outerOf (m, w.2)) wal, t)) ∨
    (∃ t, l = .outside t ∧ w.1.locked = false ∧ m = w.1 ∧
      f.step choice.orders (withLog (outerOf w) (logOf w)) =
        some (withLog (outerOf w) (logOf w), t)) ∨
    (w.1.locked = false ∧ f.stage = .checkpoint ∧ l = .inside (.truncate f) ∧
      m = { w.1 with entries := [], locked := true }) := by
  obtain ⟨stage, net, deletePlan, todo, indexes, count, index, encoded⟩ := f
  cases stage with
  | pop =>
    obtain ⟨hfree, hout⟩ := Option.ite_none_left_eq_some.mp h
    cases hout
    exact .inr (.inl ⟨_, rfl, by simpa using hfree, rfl, rfl⟩)
  | plan =>
    obtain ⟨hbatch, hout⟩ := Option.ite_none_right_eq_some.mp h
    cases hout
    exact .inl ⟨_, rfl, rfl, rfl, fun wal => if_pos hbatch⟩
  | batch =>
    cases todo with
    | nil => cases h
    | cons entry todo =>
      cases entry with
      | set key field => cases h
      | delete key =>
        obtain ⟨hplan, hout⟩ := Option.ite_none_right_eq_some.mp h
        cases hout
        refine .inl ⟨_, rfl, rfl, rfl, fun wal => ?_⟩
        simp only [Flush.step, Flush.batchItem]
        dsimp only at hplan
        rw [hplan]
  | publish | countFields =>
    cases h
    exact .inl ⟨_, rfl, rfl, rfl, fun wal => rfl⟩
  | cloneIndex =>
    obtain ⟨horder, hout⟩ := Option.ite_none_right_eq_some.mp h
    cases hout
    exact .inl ⟨_, rfl, rfl, rfl, fun wal => if_pos horder⟩
  | checkpoint =>
    obtain ⟨hfree, hout⟩ := Option.ite_none_left_eq_some.mp h
    cases hout
    exact .inr (.inr ⟨by simpa using hfree, rfl, rfl, rfl⟩)
  | writeCount | truncIndex | writeIndex | syncIndex | done => cases h

variable {V : Type} {verdict : V → Verdict} {files : Verdict → Prop} [DecidablePred files]

/-- The calls with a command and its reply as one section. -/
abbrev callSections (verdict : V → Verdict) : Exec (Choice ⊕ V) World Fine :=
  atomically program fun v cmd file => FileCmd.serve (verdict v) cmd file

variable (files) in
/-- What a task without the mutex does in a section: a section of `Task.step`
beside any log, or it takes the mutex, or a section on the log while the mutex
is free. -/
def Outward (w : World) (t : Task) (w' : World) (l' : Fine) : Prop :=
  (w'.1.locked = w.1.locked ∧ logOf w' = logOf w ∧
    ((outerOf w' = outerOf w ∧ l' = .outside t) ∨
      ∀ wal, ∃ choice' t', Task.stepOn files choice' (withLog (outerOf w) wal) t =
        some (withLog (outerOf w') wal, t') ∧ l' = .outside t')) ∨
  (w.1.locked = false ∧ w'.1.locked = true ∧ outerOf w' = outerOf w ∧
    Inside files (logOf w) t l' (logOf w')) ∨
  (w.1.locked = false ∧ w'.1.locked = false ∧ ∃ choice' t',
    Task.stepOn files choice' (withLog (outerOf w) (logOf w)) t =
      some (withLog (outerOf w') (logOf w'), t') ∧ l' = .outside t')

/-- A flush sends a command and goes on with the reply. -/
theorem outward_of_command (hdone : files .done) {io : Verdict} (hio : files io) {f : Flush}
    {id : FileId} {cmd : FileCmd} (hcommand : f.command = some (id, cmd)) (w : World) :
    Outward files w (.flush f) (w.1, Function.update w.2 id (cmd.serve io (w.2 id)).2)
      (.outside (f.resume (cmd.serve io (w.2 id)).1)) := by
  have hid := (flushStep_of_command hcommand io (withLog (outerOf w) (logOf w))).1
  refine .inl ⟨rfl, logOf_update w hid _, .inr fun wal => ⟨verdicts io .done, _, ?_, rfl⟩⟩
  have hsection := (flushStep_of_command hcommand io (withLog (outerOf w) wal)).2
  rw [fileOf_withLog w wal hid, setFile_withLog w wal hid] at hsection
  exact (stepOn_verdicts hio hdone _ _).trans hsection

/-- A flush makes a section without a command. -/
theorem outward_of_compute (hdone : files .done) {f : Flush} {choice : Choice} {w : World}
    {m : Memory} {l : Fine} (hout : f.compute choice w.1 = some (m, l)) :
    Outward files w (.flush f) (m, w.2) l := by
  rcases flushStep_of_compute hout with ⟨t, rfl, hlocked, hentries, hsection⟩ |
    ⟨t, rfl, hfree, rfl, hsection⟩ | ⟨hfree, hstage, rfl, rfl⟩
  · refine .inl ⟨hlocked, ?_, .inr fun wal => ⟨choice.orders, t, ?_, rfl⟩⟩
    · rw [logOf, logOf, hentries]
    · exact (if_pos ⟨hdone, hdone⟩).trans (hsection wal)
  · exact .inr (.inr ⟨hfree, hfree, choice.orders, t, (if_pos ⟨hdone, hdone⟩).trans hsection,
      rfl⟩)
  · exact .inr (.inl ⟨hfree, rfl, rfl, .truncate hstage⟩)

/-- A section of a task without the mutex. -/
theorem outside_section (hdone : files .done) (hfiles : ∀ v, files (verdict v))
    {choice : Choice ⊕ V} {w w' : World} {l' : Fine} {t : Task}
    (h : callSections verdict choice w (.outside t) = some (w', l')) :
    Outward files w t w' l' := by
  cases t with
  | write entry stage =>
    cases choice with
    | inr io => cases stage <;> cases h
    | inl choice =>
      cases stage with
      | append =>
        obtain ⟨out, hout, heq⟩ := Option.map_eq_some_iff.mp h
        obtain ⟨hfree, hout⟩ := Option.ite_none_left_eq_some.mp hout
        cases hout
        cases heq
        exact .inr (.inl ⟨by simpa using hfree, rfl, rfl, .append entry⟩)
      | update =>
        cases h
        exact .inl ⟨rfl, rfl, .inr fun wal => ⟨.plain, _, if_pos ⟨hdone, hdone⟩, rfl⟩⟩
      | done => cases h
  | get key result =>
    cases choice with
    | inr io => cases result <;> cases h
    | inl choice =>
      cases result with
      | none =>
        cases h
        exact .inl ⟨rfl, rfl, .inr fun wal => ⟨.plain, _, if_pos ⟨hdone, hdone⟩, rfl⟩⟩
      | some result => cases h
  | failed e => cases choice <;> cases h
  | flush f =>
    cases hcommand : f.command with
    | some sent =>
      obtain ⟨id, cmd⟩ := sent
      have hfine : program.command (.outside (.flush f)) = some (id, cmd) := hcommand
      cases choice with
      | inl choice =>
        simp only [callSections, atomically, hfine] at h
        cases h
      | inr io =>
        simp only [callSections, atomically, hfine, Option.some.injEq, Prod.mk.injEq] at h
        obtain ⟨rfl, rfl⟩ := h
        exact outward_of_command hdone (hfiles io) hcommand w
    | none =>
      have hfine : program.command (.outside (.flush f)) = none := hcommand
      cases choice with
      | inr io =>
        simp only [callSections, atomically, hfine] at h
        cases h
      | inl choice =>
        simp only [callSections, atomically, hfine] at h
        obtain ⟨⟨m, l⟩, hout, heq⟩ := Option.map_eq_some_iff.mp h
        cases heq
        exact outward_of_compute hdone hout

omit [Crc] in
/-- The log has its own file. -/
theorem logOf_update_wal (w : World) (file : Bytes) :
    logOf (w.1, Function.update w.2 .wal file) = ⟨file, w.1.entries⟩ := by
  simp only [logOf, Function.update_self]

/-- `append_entry`, when its first command has failed. -/
theorem step_append_error {wal : Wal} {entry : WalEntry} {io : Verdict} {e : Abort} {file : Bytes}
    (h : FileHandler.append io wal.file (walBytes entry) = (.error e, file)) (u : Outer) :
    Task.step (verdicts io .done) (withLog u wal) (.write entry .append) =
      some (withLog u ⟨file, wal.entries⟩, .failed e) := by
  simp only [Task.step, Wal.appendEntry, withLog, verdicts, h]
  rfl

/-- `append_entry`, when it has come to its second command. -/
theorem step_append_ok {wal : Wal} {entry : WalEntry} {io : Verdict} {pos : UInt64} {file : Bytes}
    (h : FileHandler.append io wal.file (walBytes entry) = (.ok pos, file)) (io' : Verdict)
    (u : Outer) :
    Task.step (verdicts io io') (withLog u wal) (.write entry .append) =
      some (proceed (withLog u ⟨file, wal.entries ++ [entry]⟩) (syncAll io')
        (.write entry .update)) := by
  simp only [Task.step, Wal.appendEntry, withLog, verdicts, h]

/-- `checkpoint`, when its first command has failed. -/
theorem step_checkpoint_error {wal : Wal} {f : Flush} {io : Verdict} {e : Abort} {file : Bytes}
    (hstage : f.stage = .checkpoint) (h : FileHandler.setLen io wal.file 0 = (.error e, file))
    (u : Outer) :
    Task.step (verdicts io .done) (withLog u wal) (.flush f) = some (withLog u ⟨file, []⟩,
      .failed e) := by
  simp only [Task.step, Flush.step, hstage, Wal.checkpoint, withLog, verdicts, h]
  rfl

/-- `checkpoint`, when it has come to its second command. -/
theorem step_checkpoint_ok {wal : Wal} {f : Flush} {io : Verdict} {u₀ : Unit} {file : Bytes}
    (hstage : f.stage = .checkpoint) (h : FileHandler.setLen io wal.file 0 = (.ok u₀, file))
    (io' : Verdict) (u : Outer) : Task.step (verdicts io io') (withLog u wal) (.flush f) =
      some (proceed (withLog u ⟨file, []⟩) (syncAll io')
        (.flush { f with stage := .done })) := by
  simp only [Task.step, Flush.step, hstage, Wal.checkpoint, withLog, verdicts, h]

/-- With the mutex: the reply to the append. -/
theorem inside_appended (hdone : files .done) {io : Verdict} (hio : files io) (wal : Wal)
    (entry : WalEntry) : Inside files wal (.write entry .append)
      (Fine.resume (.inside (.append entry))
        (FileCmd.serve io (.append (walBytes entry)) wal.file).1)
      ⟨(FileCmd.serve io (.append (walBytes entry)) wal.file).2, wal.entries⟩ := by
  simp only [FileCmd.serve]
  cases hcommand : FileHandler.append io wal.file (walBytes entry) with
  | mk result file =>
    cases result with
    | ok pos => exact .push hio hcommand
    | error e =>
      exact .release _ fun u =>
        (stepOn_verdicts hio hdone _ _).trans (step_append_error hcommand u)

/-- With the mutex: the reply to the truncation. -/
theorem inside_truncated (hdone : files .done) {io : Verdict} (hio : files io) (wal : Wal)
    {f : Flush} (hstage : f.stage = .checkpoint) : Inside files wal (.flush f)
      (Fine.resume (.inside (.truncate f)) (FileCmd.serve io (.setLen 0) wal.file).1)
      ⟨(FileCmd.serve io (.setLen 0) wal.file).2, []⟩ := by
  simp only [FileCmd.serve, UInt64.toNat_zero]
  cases hcommand : FileHandler.setLen io wal.file 0 with
  | mk result file =>
    cases result with
    | ok u => exact .sync hio (by simp) (step_checkpoint_ok hstage hcommand)
    | error e =>
      exact .release _ fun u =>
        (stepOn_verdicts hio hdone _ _).trans (step_checkpoint_error hstage hcommand u)

/-- With the mutex: the reply to the sync. -/
theorem inside_synced {io io' : Verdict} (hio : files io) (hio' : files io') {wal wal' : Wal}
    {t next : Task} (hsync : ∀ io' u, Task.step (verdicts io io') (withLog u wal) t =
      some (proceed (withLog u wal') (syncAll io') next)) :
    Inside files wal t
      (Fine.resume (.inside (.sync next)) (FileCmd.serve io' .syncAll wal'.file).1)
      ⟨(FileCmd.serve io' .syncAll wal'.file).2, wal'.entries⟩ := by
  have hsection : ∀ u, Task.stepOn files (verdicts io io') (withLog u wal) t = _ :=
    fun u => (stepOn_verdicts hio hio' _ _).trans (hsync io' u)
  simp only [FileCmd.serve]
  cases hresult : syncAll io' with
  | ok u =>
    rw [hresult] at hsection
    exact .release _ hsection
  | error e =>
    rw [hresult] at hsection
    exact .release _ hsection

/-- A section of the task that holds the mutex. -/
theorem inside_section (hdone : files .done) (hfiles : ∀ v, files (verdict v))
    {choice : Choice ⊕ V} {w w' : World} {l l' : Fine} {t : Task} {wal : Wal}
    (h : callSections verdict choice w l = some (w', l')) (hlocked : w.1.locked = true)
    (hinside : Inside files wal t l (logOf w)) :
    outerOf w' = outerOf w ∧ ((w'.1.locked = true ∧ Inside files wal t l' (logOf w')) ∨
      (w'.1.locked = false ∧ ∃ choice' t', Task.stepOn files choice' (withLog (outerOf w) wal)
        t =
        some (withLog (outerOf w) (logOf w'), t') ∧ l' = .outside t')) := by
  generalize hlog : logOf w = current at hinside
  have hfile : w.2 .wal = current.file := by rw [← hlog, logOf]
  have hentries : w.1.entries = current.entries := by rw [← hlog, logOf]
  cases hinside with
  | append entry =>
    cases choice with
    | inl choice => cases h
    | inr io =>
      have hout := Prod.mk.inj (Option.some.inj h)
      obtain ⟨rfl, rfl⟩ := hout
      refine ⟨rfl, .inl ⟨hlocked, ?_⟩⟩
      rw [logOf_update_wal, hfile, hentries]
      exact inside_appended hdone (hfiles io) wal entry
  | @push entry io pos file hio happend =>
    cases choice with
    | inr io => cases h
    | inl choice =>
      cases h
      refine ⟨rfl, .inl ⟨hlocked, ?_⟩⟩
      simp only [logOf, hfile, hentries]
      exact .sync hio (by simp) (step_append_ok happend)
  | @truncate f hstage =>
    cases choice with
    | inl choice => cases h
    | inr io =>
      have hout := Prod.mk.inj (Option.some.inj h)
      obtain ⟨rfl, rfl⟩ := hout
      refine ⟨rfl, .inl ⟨hlocked, ?_⟩⟩
      rw [logOf_update_wal, hfile, hentries]
      exact inside_truncated hdone (hfiles io) wal hstage
  | @sync _ next _ io hio hnext hsync =>
    cases choice with
    | inl choice => cases h
    | inr io' =>
      have hout := Prod.mk.inj (Option.some.inj h)
      obtain ⟨rfl, rfl⟩ := hout
      refine ⟨rfl, .inl ⟨hlocked, ?_⟩⟩
      rw [logOf_update_wal, hfile, hentries]
      exact inside_synced hio (hfiles io') hsync
  | @release _ next _ choice' hsection =>
    cases choice with
    | inr io => cases h
    | inl choice =>
      cases h
      refine ⟨rfl, .inr ⟨rfl, choice', next, ?_, rfl⟩⟩
      rw [hsection]
      exact congrArg (fun log => some (withLog (outerOf w) log, next)) hlog.symm

/-- The calls with a mutex stand for the sections of `Task.step`. -/
def mutexDiscipline (hdone : files .done) (hfiles : ∀ v, files (verdict v)) :
    Discipline (callSections verdict) (Task.stepOn files) Outer Wal where
  outer := outerOf
  inner := logOf
  held w := w.1.locked
  join := withLog
  Outside l t := l = .outside t
  Inside := Inside files
  outside := by
    rintro choice w w' _ l' t h rfl
    exact outside_section hdone hfiles h
  inside := inside_section hdone hfiles

/-- The calls have returned or failed. -/
def Task.Finished (t : Task) : Prop := t.Returned ∨ ∃ e, t = .failed e

/-- A pool of calls and the system that it stands for: they have the same state,
data file and index file, the same log when the mutex is free, and the same
calls between their sections. -/
structure Agrees (s : FineSystem) (c : Pool Database Task) : Prop where
  /-- The state is the same. -/
  state : c.shared.state = s.memory.state
  /-- The data file is the same. -/
  data : c.shared.file = s.objects .data
  /-- The index file is the same. -/
  index : c.shared.indexFile = s.objects .index
  /-- The log is the same when its mutex is free. -/
  log : s.memory.locked = false → c.shared.wal = ⟨s.objects .wal, s.memory.entries⟩
  /-- The tasks correspond. -/
  length : c.tasks.length = s.tasks.length
  /-- A task outside of a section of the log is the same. -/
  tasks : ∀ (i : ℕ) (t : Task), s.tasks[i]? = some (.running (.outside t)) →
    c.tasks[i]? = some t
  /-- A task has failed in one when it has in the other. -/
  failed : ∀ (i : ℕ) (e : Abort), c.tasks[i]? = some (.failed e) →
    ∃ status, s.tasks[i]? = some status ∧ status.settled program = .outside (.failed e)

/-- Runs of calls on files that do with a command what `verdict` gives. -/
abbrev FilesRun (verdict : V → Verdict) : FineSystem → FineSystem → Prop :=
  Mailbox.Run program (fun v cmd file => FileCmd.serve (verdict v) cmd file) channelCapacity

variable (verdict files) in
/-- The state of a system that calls on a database have led to. While a task
holds the mutex, the log counts as it was before the mutex was taken. -/
theorem related_of_run (hdone : files .done) (hfiles : ∀ v, files (verdict v)) {db : Database}
    {tasks : List Task} {s : FineSystem} (hrun : FilesRun verdict (fineStart db tasks) s) :
    ∃ holder wal trace c, Run (Task.stepOn files) anyStep ⟨db, tasks⟩ trace c ∧
      Related (mutexDiscipline hdone hfiles) holder wal (s.pool program) c ∧
      (holder ≠ none → ∃ s₀, FilesRun verdict (fineStart db tasks) s₀ ∧
        FilesRun verdict s₀ s ∧
        s₀.memory.locked = false ∧ wal = ⟨s₀.objects .wal, s₀.memory.entries⟩) := by
  induction hrun with
  | refl =>
    refine ⟨none, db.wal, [], ⟨db, tasks⟩, .refl, ?_, fun hheld => absurd rfl hheld⟩
    rw [fineStart, pool_start]
    refine ⟨List.length_map _, rfl, ?_, fun _ => ⟨rfl, rfl⟩, by simp⟩
    intro j l t _ hl ht
    rw [List.getElem?_map, ht] at hl
    cases hl
    rfl
  | @tail s₁ s₂ hbefore hstep ih =>
    obtain ⟨holder, wal, trace, c, hsections, hrelated, hsince⟩ := ih
    rcases ((orderly_start _ _ _).run hbefore).simulates hstep with ⟨heq, -⟩ | ⟨l, hmove⟩
    · refine ⟨holder, wal, trace, c, hsections, heq ▸ hrelated, fun hheld => ?_⟩
      obtain ⟨s₀, hrun, hlater, hsame⟩ := hsince hheld
      exact ⟨s₀, hrun, hlater.tail hstep, hsame⟩
    · obtain ⟨holder', wal', c', hrelated', hsection, hsame⟩ := hrelated.step hmove
      obtain ⟨trace', hsections'⟩ : ∃ trace', Run (Task.stepOn files) anyStep ⟨db,
        tasks⟩ trace' c' := by
        rcases hsection with rfl | ⟨t, hsection⟩
        · exact ⟨trace, hsections⟩
        · exact ⟨_, hsections.snoc hsection⟩
      refine ⟨holder', wal', trace', c', hsections', hrelated', fun hheld => ?_⟩
      rw [hsame hheld]
      cases holder with
      | none =>
        -- the mutex has been taken in this step
        obtain ⟨hfree, hwal⟩ := hrelated.free rfl
        exact ⟨s₁, hbefore, .single hstep, hfree, hwal⟩
      | some i =>
        obtain ⟨s₀, hrun, hlater, hfree⟩ := hsince (by simp)
        exact ⟨s₀, hrun, hlater.tail hstep, hfree⟩

omit [Crc] in
/-- A task of the pool is one of the system. -/
theorem exists_task {s : FineSystem} {i : ℕ} {l : Fine} [Crc]
    (h : (s.pool program).tasks[i]? = some l) :
    ∃ status, s.tasks[i]? = some status ∧ status.settled program = l := by
  rw [System.pool, List.getElem?_map] at h
  exact Option.map_eq_some_iff.mp h

/-- The task with the mutex is inside. -/
theorem Inside.exists_holding {wal wal' : Wal} {t : Task} {l : Fine}
    (h : Inside files wal t l wal') :
    (∃ holding, l = .inside holding) ∧ ∀ e, t ≠ .failed e := by
  cases h with
  | append entry => exact ⟨⟨_, rfl⟩, by simp⟩
  | push hio happend => exact ⟨⟨_, rfl⟩, by simp⟩
  | truncate hstage => exact ⟨⟨_, rfl⟩, by simp⟩
  | sync hio hnext hsync =>
    refine ⟨⟨_, rfl⟩, ?_⟩
    rintro e rfl
    cases hsync .done (⟨∅, ∅⟩, [], [])
  | release choice hsection =>
    refine ⟨⟨_, rfl⟩, ?_⟩
    rintro e rfl
    cases (Option.ite_none_right_eq_some.mp (hsection (⟨∅, ∅⟩, [], []))).2

/-- A pool that a system stands for agrees with it. -/
theorem agrees_of_related {hdone : files .done} {hfiles : ∀ v, files (verdict v)} {s : FineSystem}
    {c : Pool Database Task} {holder : Option ℕ} {wal : Wal}
    (h : Related (mutexDiscipline hdone hfiles) holder wal (s.pool program) c) : Agrees s c := by
  have hlength : c.tasks.length = s.tasks.length := by
    rw [← h.length, System.pool, List.length_map]
  refine ⟨by rw [h.shared]; rfl, by rw [h.shared]; rfl, by rw [h.shared]; rfl, ?_, hlength, ?_, ?_⟩
  · intro hfree
    rw [h.shared, (h.free (h.holder_eq_none hfree)).2]
    rfl
  · intro i t ht
    have hpool : (s.pool program).tasks[i]? = some (.outside t) := pool_task ht
    have hi : i < c.tasks.length := hlength ▸ (List.getElem?_eq_some_iff.mp ht).1
    have htask := List.getElem?_eq_getElem hi
    by_cases hholder : holder = some i
    · obtain ⟨-, l, t', hl, -, hinside⟩ := h.inside i hholder
      obtain ⟨⟨holding, rfl⟩, -⟩ := hinside.exists_holding
      rw [hpool] at hl
      cases hl
    · have hout : Fine.outside t = .outside c.tasks[i] := h.outside i _ _ hholder hpool htask
      cases hout
      exact htask
  · intro i e hi
    have hlen : i < (s.pool program).tasks.length :=
      h.length ▸ (List.getElem?_eq_some_iff.mp hi).1
    have hpool := List.getElem?_eq_getElem hlen
    by_cases hholder : holder = some i
    · obtain ⟨-, l, t', -, ht', hinside⟩ := h.inside i hholder
      rw [hi] at ht'
      cases ht'
      exact absurd rfl (hinside.exists_holding.2 e)
    · have hout : (s.pool program).tasks[i] = .outside (.failed e) :=
        h.outside i _ _ hholder hpool hi
      rw [hout] at hpool
      exact exists_task hpool

variable (verdict files) in
/-- Every run of calls on files of one kind is a run of their sections on such
files, and goes on as one. -/
theorem agrees_of_run (hdone : files .done) (hfiles : ∀ v, files (verdict v)) {db : Database}
    {tasks : List Task} {s s' : FineSystem} (hrun : FilesRun verdict (fineStart db tasks) s)
    (hlater : FilesRun verdict s s') :
    ∃ trace c trace' c', Run (Task.stepOn files) anyStep ⟨db, tasks⟩ trace c ∧
      Agrees s c ∧
      Run (Task.stepOn files) anyStep c trace' c' ∧ Agrees s' c' := by
  obtain ⟨holder, wal, trace, c, hsections, hrelated, -⟩ :=
    related_of_run verdict files hdone hfiles hrun
  have horderly := (orderly_start _ _ _).run hrun
  obtain ⟨later, hcalls⟩ := horderly.refines hlater
  obtain ⟨holder', wal', trace', c', hsections', hrelated'⟩ := hrelated.refines hcalls
  exact ⟨trace, c, trace', c', hsections, agrees_of_related hrelated, hsections',
    agrees_of_related hrelated'⟩

omit [DecidablePred files] in
/-- Every run of calls, with the mutex of the log and the tasks that own the
files, is a run of their sections, and goes on as one. -/
theorem fine_run_refines {db : Database} {tasks : List Task} {s s' : FineSystem}
    (hrun : FineRun (fineStart db tasks) s) (hlater : FineRun s s') :
    ∃ trace c trace' c', Run Task.step anyStep ⟨db, tasks⟩ trace c ∧ Agrees s c ∧
      Run Task.step anyStep c trace' c' ∧ Agrees s' c' := by
  have hagree := agrees_of_run (fun io => io) (fun _ => True) trivial (fun _ => trivial) hrun hlater
  rwa [stepOn_any] at hagree

/-- A call that has failed, or is about to return an error. -/
def Fine.Failed : Fine → Prop
  | .outside (.failed _) => True
  | .inside (.release (.failed _)) => True
  | _ => False

instance : DecidablePred Fine.Failed
  | .outside (.failed _) => isTrue trivial
  | .inside (.release (.failed _)) => isTrue trivial
  | .outside (.write _ _) | .outside (.get _ _) | .outside (.flush _) => isFalse id
  | .inside (.append _) | .inside (.push _) | .inside (.truncate _) | .inside (.sync _) =>
    isFalse id
  | .inside (.release (.write _ _)) | .inside (.release (.get _ _))
    | .inside (.release (.flush _)) => isFalse id

/-- When no call of the system has failed, none of the pool has. -/
theorem Agrees.ne_failed {s : FineSystem} {c : Pool Database Task} (h : Agrees s c)
    (hnone : ∀ status ∈ s.tasks, ¬ (status.settled program).Failed) :
    ∀ t ∈ c.tasks, ∀ e, t ≠ .failed e := by
  rintro t ht e rfl
  obtain ⟨i, hi⟩ := List.getElem?_of_mem ht
  obtain ⟨status, hstatus, hsettled⟩ := h.failed i e hi
  refine hnone status (List.mem_of_getElem? hstatus) ?_
  rw [hsettled]
  trivial

/-- A run on prompt files in which no call has failed is one without refused
commands, and no call had failed before. -/
theorem stepOk_of_run {guard : Guard Database Task} {c₀ c : Pool Database Task}
    {trace : List Task} (hrun : Run Task.stepPrompt guard c₀ trace c)
    (hnone : ∀ t ∈ c.tasks, ∀ e, t ≠ .failed e) :
    Run Task.stepOk guard c₀ trace c ∧ ∀ t ∈ c₀.tasks, ∀ e, t ≠ .failed e := by
  induction hrun with
  | refl => exact ⟨.refl, hnone⟩
  | @snoc _ _ _ t hbefore hstep ih =>
    cases hstep with
    | @move pre post _ _ _ t' choice hguard hexec =>
      have hnext : ∀ e, t' ≠ .failed e := hnone t' (mem_tasks_iff.mpr (.inl rfl))
      have hnoneBefore : ∀ u ∈ pre ++ t :: post, ∀ e, u ≠ .failed e := by
        intro u hu e
        rcases mem_tasks_iff.mp hu with rfl | hu
        · rintro rfl
          cases (Option.ite_none_right_eq_some.mp hexec).2
        · exact hnone u (mem_tasks_iff.mpr (.inr hu)) e
      obtain ⟨hrun, hfirst⟩ := ih hnoneBefore
      obtain ⟨hprompt, hexec⟩ := Option.ite_none_right_eq_some.mp hexec
      exact ⟨.snoc hrun (.move pre post choice hguard (taskStepOk_of_step hprompt hexec hnext)),
        hfirst⟩

end

open scoped IsoHdlc

/-- Two calls, of which the first one waits for the log to be synced. -/
def twoSets : List Task :=
  [.write (.set (.ofText "k") (.primitive (.integer 1))) .append,
    .write (.set (.ofText "l") (.primitive (.integer 2))) .append]

/-- The first call takes the mutex, appends its entry and asks for a sync. -/
def firstSyncs {V : Type} (done : V) : List (Move FileId Choice V) :=
  [.compute 0 .plain, .send 0, .serve .wal done, .receive 0, .compute 0 .plain, .send 0]

/-- The first call comes to its end, and the second one takes the mutex. -/
def secondLocks : List (Move FileId Choice Verdict) :=
  [.serve .wal .done, .receive 0, .compute 0 .plain, .compute 1 .plain, .compute 0 .plain, .send 1]

/-- The first part executes. -/
theorem firstSyncs_runs :
    (finePerform (fineStart (Database.new "db" [] ⟨[], []⟩) twoSets)
      (firstSyncs .done)).isSome := by
  decide +kernel

/-- The second part executes behind it. -/
theorem secondLocks_runs :
    (finePerform ((finePerform _ _).get firstSyncs_runs) secondLocks).isSome := by
  decide +kernel

/-- The sections of the two calls, seen while the first one holds the mutex and
when the second one does. -/
theorem fine_run_refines_twoSets :
    let s := (finePerform _ _).get firstSyncs_runs
    let s' := (finePerform _ _).get secondLocks_runs
    ∃ trace c trace' c',
      Run Task.step anyStep ⟨Database.new "db" [] ⟨[], []⟩, twoSets⟩ trace c ∧
      Agrees s c ∧
        Run Task.step anyStep c trace' c' ∧ Agrees s' c' :=
  fine_run_refines (run_get_performAll firstSyncs_runs) (run_get_performAll secondLocks_runs)

end PeachDB.Db
