import PeachDB.Persistence

/-!
# Flushes that exclude writes

Any number of calls on one database, of which nothing is logged and no flush
begins while another flush is in progress. Reads, and the state updates of
writes that are in the log, go on beside it. But for the fields in memory, a
flush then does what one that runs alone does. The process may die at any
moment, in the middle of a flush as well: the files have all that was logged.
-/

namespace PeachDB.Db

open Dtypes RecordCodec IndexCodec FileHandler WriteAheadLog Interleaving

/-- A flush that has taken the log and has not returned. -/
def Task.Flushing : Task → Prop
  | .flush f => f.stage ≠ .pop ∧ f.stage ≠ .done
  | .write _ _ | .get _ _ | .failed _ => False

instance : DecidablePred Task.Flushing
  | .flush f => inferInstanceAs (Decidable (f.stage ≠ .pop ∧ f.stage ≠ .done))
  | .write _ _ | .get _ _ | .failed _ => isFalse id

/-- The entries that a run logs, in order. -/
def loggedIn (trace : List Task) : List WalEntry :=
  trace.filterMap fun
    | .write entry .append => some entry
    | .write _ _ | .get _ _ | .flush _ | .failed _ => none

/-- A call that has not begun; a written key is not empty, and its entry can be
encoded. -/
def Task.Begins (t : Task) : Prop :=
  t.Initial ∧ ∀ entry ∈ loggedIn [t], entry.Encodable ∧ entry.key.asBytes ≠ []

instance : DecidablePred Task.Initial
  | .write _ stage => inferInstanceAs (Decidable (stage = .append))
  | .get _ result => inferInstanceAs (Decidable (result = none))
  | .flush f => inferInstanceAs (Decidable (f = .start))
  | .failed _ => isFalse id

instance : DecidablePred Task.Begins := fun t =>
  inferInstanceAs (Decidable (t.Initial ∧ ∀ entry ∈ loggedIn [t], entry.Encodable ∧
    entry.key.asBytes ≠ []))

/-- A task that is in no flush, with what it is about to log. -/
def Task.Idle : Task → Prop
  | .write entry _ => entry.Encodable ∧ entry.key.asBytes ≠ []
  | .flush f => f = .start ∨ f.stage = .done
  | .get _ _ | .failed _ => True

/-- The database with other fields in memory. -/
def Database.withFields (db : Database) (fields : HashMap Key Field) : Database :=
  { db with state := { db.state with fields } }

section

variable [Crc]

/-- The live records of a key behind the tombstone that a flush writes for it. -/
def leftover (db : Database) (k : Key) : ℕ :=
  match db.state.index.lookup k with
  | some entry => liveCount (overwrite db.file entry.offset.toNat (tombstoneOf entry)) k
  | none => liveCount db.file k

/-- A flush that begins leaves no live record of a key that it deletes. -/
def DeletesAll (db : Database) : Prop :=
  ∀ entry ∈ db.wal.entries, lastValue entry.key db.wal.entries = some none →
    leftover db entry.key = 0

instance (db : Database) : Decidable (DeletesAll db) :=
  inferInstanceAs (Decidable (∀ entry ∈ db.wal.entries, _ = some none → _ = 0))

/-- While a flush is in progress nothing is logged and no other flush begins.
A flush that begins leaves no live record of a key that it deletes. -/
def Exclusive (db : Database) (others : List Task) : Task → Prop
  | .write _ .append => ∀ u ∈ others, ¬ u.Flushing
  | .flush f => f.stage = .pop → DeletesAll db ∧ ∀ u ∈ others, ¬ u.Flushing
  | .write _ .update | .write _ .done | .get _ _ | .failed _ => True

instance (db : Database) (others : List Task) : DecidablePred (Exclusive db others)
  | .write _ .append => inferInstanceAs (Decidable (∀ u ∈ others, ¬ u.Flushing))
  | .flush f =>
    inferInstanceAs (Decidable (f.stage = .pop → DeletesAll db ∧
      ∀ u ∈ others, ¬ u.Flushing))
  | .write _ .update | .write _ .done | .get _ _ | .failed _ => isTrue trivial

/-- Processes one after another, each of which opens the files that the one
before has left when it died, and all that they have logged. -/
inductive Lived (name : String) : List WalEntry → Database → Prop
  /-- The first process creates its files. -/
  | new {db : Database} (hopen : Database.open name ⟨[], [], []⟩ = .ok db) : Lived name [] db
  /-- The next one opens what is left when the one before dies. -/
  | restart {log : List WalEntry} {db db' : Database} {tasks trace : List Task}
      {c : Pool Database Task} (hlived : Lived name log db) (hbegin : ∀ t ∈ tasks, t.Begins)
      (hrun : Run Task.stepOk Exclusive ⟨db, tasks⟩ trace c)
      (hopen : Database.open name c.shared.disk = .ok db') : Lived name (log ++ loggedIn trace) db'

/-- What a process leaves behind when it dies: the files can be opened and have
what was logged. The index file may have extents of dead records, or lack some
of live ones. -/
structure Remains (log : List WalEntry) (df : DataFile) (db : Database) : Prop where
  /-- The data file. -/
  file : db.file = df.bytes
  /-- The log file holds the entries in memory. -/
  readable : Wal.open db.wal.file = .ok db.wal
  /-- The log can be encoded. -/
  entries : ∀ entry ∈ db.wal.entries, entry.Encodable
  /-- No key of the log is empty. -/
  entryKeys : ∀ entry ∈ db.wal.entries, entry.key.asBytes ≠ []
  /-- No key of a live record is empty. -/
  liveKeys : ∀ x ∈ df.live, x.1.asBytes ≠ []
  /-- The offsets are those of a file. -/
  offsets : ∀ x ∈ df.live, x.2.offset ≤ maxFileLen
  /-- The index file is empty, or has the extents of some records. -/
  indexFile : db.indexFile = [] ∨ ∃ index, Encodes db.indexFile index ∧ LengthsMatch index ∧
    ∀ k e, index.lookup k = some e → df.Extent k e
  /-- Data file and log together give all that has been logged. -/
  logged : replay df.fields db.wal.entries = replay ∅ log

/-- No flush is in progress. -/
structure Quiet (log : List WalEntry) (df : DataFile) (db : Database) : Prop
    extends Remains log df db where
  /-- Every index entry is an extent of its key. -/
  index : ∀ k e, db.state.index.lookup k = some e → df.Extent k e
  /-- The entries have the lengths of their keys. -/
  lengths : LengthsMatch db.state.index

/-- A flush is in progress. But for the fields in memory it has done what one
that runs alone does. -/
structure InFlush (log : List WalEntry) (df₀ : DataFile) (db₀ : Database) (df : DataFile)
    (db : Database) (f : Flush) : Prop where
  /-- How it was when the flush began. -/
  before : Quiet log df₀ db₀
  /-- The flush leaves no live record of a key that it deletes. -/
  deletes : DeletesAll db₀
  /-- No record of before has moved. -/
  extents : ∀ k e, df₀.Extent k e → df.Extent k e
  /-- But for the fields the flush is alone. -/
  alone : ∃ fields, Alone df₀ db₀ df (db.withFields fields) f
  /-- The lengths in the index and in the log fit. -/
  lengths : DbLengths db
  /-- The lengths that the flush holds fit. -/
  flush : FlushLengths f

/-- The task is the flush in progress. -/
def Busy (log : List WalEntry) (db : Database) (t : Task) : Prop :=
  t.Flushing ∧ ∃ f df₀ db₀ df, t = .flush f ∧ InFlush log df₀ db₀ df db f

variable {log : List WalEntry} {df df₀ : DataFile} {db db' db₀ : Database} {f g : Flush}
  {t t' : Task} {name : String}

omit [Crc] in
/-- The last task logs last. -/
theorem loggedIn_concat (trace : List Task) (t : Task) :
    loggedIn (trace ++ [t]) = loggedIn trace ++ loggedIn [t] :=
  List.filterMap_append

omit [Crc] in
/-- Only a section that logs an entry adds to what was logged. -/
theorem logged_same {trace : List Task} (h : loggedIn [t] = []) :
    log ++ loggedIn (trace ++ [t]) = log ++ loggedIn trace := by
  rw [loggedIn_concat, h, List.append_nil]

omit [Crc] in
/-- A call that has not begun is no flush in progress. -/
theorem idle_of_begins (h : t.Begins) : t.Idle := by
  obtain ⟨hinit, hentry⟩ := h
  cases t with
  | write entry stage =>
    obtain rfl : stage = .append := hinit
    exact hentry entry (List.mem_singleton.mpr rfl)
  | get key result => trivial
  | flush f => exact .inl hinit
  | failed e => trivial

/-- The fields in memory are nothing to a flush but a number that it counts. -/
theorem Moves.withFields (h : Moves db (.flush f) db' t') (fields : HashMap Key Field) :
    ∃ fields' g count, t' = .flush g ∧ g.stage ≠ .pop ∧
      Moves (db.withFields fields) (.flush f) (db'.withFields fields')
        (.flush { g with count }) := by
  cases h with
  | pop f hstage => exact ⟨fields, _, _, rfl, nofun, .pop _ f hstage⟩
  | plan f batch hstage hbatch =>
    exact ⟨fields, _, _, rfl, nofun, .plan _ f batch hstage hbatch⟩
  | appendItem f key field todo hstage htodo hfits =>
    exact ⟨fields, _, _, rfl, by simp [hstage], .appendItem _ f key field todo hstage htodo hfits⟩
  | skipItem f key todo hstage htodo hplan =>
    exact ⟨fields, _, _, rfl, by simp [hstage], .skipItem _ f key todo hstage htodo hplan⟩
  | tombstoneItem f key todo entry hstage htodo hplan =>
    exact ⟨fields, _, _, rfl, by simp [hstage],
      .tombstoneItem _ f key todo entry hstage htodo hplan⟩
  | sync f hstage htodo => exact ⟨fields, _, _, rfl, nofun, .sync _ f hstage htodo⟩
  | publish f hstage =>
    exact ⟨removeKeys fields f.deletePlan, _, _, rfl, nofun, .publish _ f hstage⟩
  | countFields f hstage => exact ⟨fields, _, _, rfl, nofun, .countFields _ f hstage⟩
  | writeCount f hstage => exact ⟨fields, _, _, rfl, nofun, .writeCount _ f hstage⟩
  | cloneIndex f order hstage horder =>
    exact ⟨fields, _, _, rfl, nofun, .cloneIndex _ f order hstage horder⟩
  | truncIndex f hstage => exact ⟨fields, _, _, rfl, nofun, .truncIndex _ f hstage⟩
  | writeIndex f hstage => exact ⟨fields, _, _, rfl, nofun, .writeIndex _ f hstage⟩
  | syncIndex f hstage => exact ⟨fields, _, _, rfl, nofun, .syncIndex _ f hstage⟩
  | checkpoint f hstage => exact ⟨fields, _, _, rfl, nofun, .checkpoint _ f hstage⟩

/-- A flush that has returned has no section left. -/
theorem not_moves_of_done (hstage : f.stage = .done) : ¬ Moves db (.flush f) db' t' := by
  intro h
  cases h <;> simp_all

/-- What a flush has counted does not matter to what it has done. -/
theorem Alone.withCount {count : UInt64} (h : Alone df₀ db₀ df db { f with count })
    (hstage : f.stage ≠ .pop) :
    Alone df₀ db₀ df db f where
  sound := h.sound
  flush := ⟨fun hpop => absurd hpop hstage, h.flush.net, h.flush.todo, h.flush.nodup,
    h.flush.idle, h.flush.plan, h.flush.indexes⟩
  net := h.net
  plan := h.plan
  keys k := (h.keys k).same Iff.rfl rfl rfl rfl
  grows := h.grows
  unpublished := h.unpublished
  published := h.published
  copied := h.copied
  indexFile := h.indexFile
  wal := h.wal

/-- A database between two flushes is sound. -/
theorem Quiet.sound (h : Quiet log df db) : Sound df db := ⟨h.file, h.index, h.entries⟩

/-- The tombstones of a flush spare no record of a key that it deletes. -/
theorem DeletesAll.spared_eq_nil (h : DeletesAll db) (hdb : Sound df db) {k : Key}
    (hk : lastValue k db.wal.entries = some none) :
    spared (db.state.index.lookup k) (df.liveOf k) = [] := by
  have hentry := lastEntry_of_delete hk
  obtain ⟨hmem, -⟩ := mem_of_lastEntry hentry
  have hleft := h _ hmem hk
  rw [leftover, show (WalEntry.delete k).key = k from rfl] at hleft
  cases hindex : db.state.index.lookup k with
  | none =>
    rw [hindex] at hleft
    dsimp only at hleft
    rw [hdb.file, liveCount_bytes] at hleft
    exact List.length_eq_zero_iff.mp hleft
  | some entry =>
    rw [hindex] at hleft
    dsimp only at hleft
    rw [hdb.file, tombstoneOf, DataFile.bytes_tombstone (hdb.index k entry hindex), liveCount_bytes,
      DataFile.liveOf_tombstone] at hleft
    exact List.length_eq_zero_iff.mp hleft

/-- Opening what a process has left gives back what was logged. -/
theorem Remains.reopens (h : Remains log df db) (hname : (stringBytes name).length ≤ 64) :
    ∃ db', Database.open name db.disk = .ok db' ∧ Quiet log df db' ∧
      db'.state.fields = replay ∅ log := by
  have hread : ∃ index, Database.initIndex df.bytes db.indexFile = .ok index ∧
      (∀ k e, index.lookup k = some e → df.Extent k e) := by
    have hscan : ∀ k e, df.index.lookup k = some e → df.Extent k e := fun k e hk =>
      (DataFile.liveExtent_of_index (fun x hx => (h.offsets x hx).trans_lt (by decide)) hk).extent
    by_cases hempty : db.indexFile = []
    · rw [hempty]
      exact ⟨_, initIndex_nil h.liveKeys, hscan⟩
    · obtain ⟨index, hencodes, hlengths, hextents⟩ := h.indexFile.resolve_left hempty
      exact ⟨_, initIndex_encoded hencodes hlengths hempty, hextents⟩
  obtain ⟨index, hindex, hextents⟩ := hread
  have hopen := open_bytes hname h.readable hindex
  rw [← h.file] at hopen
  exact ⟨_, hopen,
    ⟨⟨h.file, h.readable, h.entries, h.entryKeys, h.liveKeys, h.offsets, h.indexFile,
      h.logged⟩,
    hextents, (dbLengths_of_open hopen).index⟩, h.logged⟩

/-- An entry that is logged while no flush is in progress. -/
theorem Quiet.append (h : Quiet log df db) {entry : WalEntry} (hentry : entry.Encodable)
    (hkey : entry.key.asBytes ≠ []) :
    Quiet (log ++ [entry]) df
      { db with wal := ⟨db.wal.file ++ walBytes entry, db.wal.entries ++ [entry]⟩ } where
  file := h.file
  readable := open_append h.readable hentry
  entries := List.forall_mem_append.mpr ⟨h.entries, List.forall_mem_singleton.mpr hentry⟩
  entryKeys := List.forall_mem_append.mpr ⟨h.entryKeys, List.forall_mem_singleton.mpr hkey⟩
  liveKeys := h.liveKeys
  offsets := h.offsets
  indexFile := h.indexFile
  logged := by rw [replay_concat, replay_concat, h.logged]
  index := h.index
  lengths := h.lengths

/-- Between two flushes the fields may be any. -/
theorem Quiet.withFields (h : Quiet log df db) (fields : HashMap Key Field) :
    Quiet log df (db.withFields fields) :=
  ⟨⟨h.file, h.readable, h.entries, h.entryKeys, h.liveKeys, h.offsets, h.indexFile, h.logged⟩,
    h.index, h.lengths⟩

/-- A flush that is about to begin. -/
theorem Quiet.inFlush (h : Quiet log df db) (hdeletes : DeletesAll db) :
    InFlush log df db df db .start where
  before := h
  deletes := hdeletes
  extents _ _ hk := hk
  alone := ⟨db.state.fields, alone_start h.sound⟩
  lengths := ⟨h.lengths, fun entry he => (h.entries entry he).1⟩
  flush := flushLengths_start

/-- In a flush the fields may be any. -/
theorem InFlush.withFields (h : InFlush log df₀ db₀ df db f) (fields : HashMap Key Field) :
    InFlush log df₀ db₀ df (db.withFields fields) f :=
  ⟨h.before, h.deletes, h.extents, h.alone, ⟨h.lengths.index, h.lengths.entries⟩, h.flush⟩

/-- At every stage of a flush the data file and the log have what was logged. -/
theorem InFlush.logged (h : InFlush log df₀ db₀ df db f) :
    replay df.fields db.wal.entries = replay ∅ log := by
  obtain ⟨fields, halone⟩ := h.alone
  by_cases hstage : f.stage = .done
  · -- the flush has written all that was in the log, and has emptied the log
    have hspared : ∀ k, lastValue k db₀.wal.entries = some none →
        spared (db₀.state.index.lookup k) (df₀.liveOf k) = [] :=
      fun k hk => h.deletes.spared_eq_nil h.before.sound hk
    have hfields := fields_of_flushedAt hspared (halone.flushedAt_done hstage)
    have hwal : db.wal = ⟨[], []⟩ := halone.wal_done hstage
    rw [hwal, ← h.before.logged, ← hfields]
    rfl
  · have hwal : db.wal = db₀.wal :=
      halone.wal_old (by revert hstage; cases f.stage <;> simp [Stage.le_iff])
    rw [hwal, halone.replay_eq, h.before.logged]

/-- At every stage of a flush the index file is empty, or it encodes an index
of extents. -/
theorem InFlush.indexFile (h : InFlush log df₀ db₀ df db f) : db.indexFile = [] ∨
    ∃ index, Encodes db.indexFile index ∧ LengthsMatch index ∧
    ∀ k e, index.lookup k = some e → df.Extent k e := by
  obtain ⟨fields, halone⟩ := h.alone
  by_cases hold : f.stage ≤ .truncIndex
  · have hfile : db.indexFile = db₀.indexFile := halone.indexFile_old hold
    rw [hfile]
    rcases h.before.indexFile with hempty | ⟨index, hencodes, hlengths, hextents⟩
    · exact .inl hempty
    · exact .inr ⟨index, hencodes, hlengths, fun k e hk => h.extents k e (hextents k e hk)⟩
  · have hfile : db.indexFile = if f.stage = .writeIndex then [] else f.encoded :=
      halone.indexFile.trans (if_neg hold)
    have hcopied : .cloneIndex < f.stage := Nat.lt_trans (by decide) (Stage.not_le.mp hold)
    obtain ⟨hlengths, hencodes⟩ := h.flush.copied hcopied
    split at hfile
    · exact .inl hfile
    · refine .inr ⟨f.index, hfile ▸ hencodes, hlengths, fun k e hk => ?_⟩
      rw [(halone.copied hcopied).1] at hk
      exact halone.sound.index k e hk

/-- The files that a process leaves when it dies in the middle of a flush. -/
theorem InFlush.remains (h : InFlush log df₀ db₀ df db f) : Remains log df db := by
  obtain ⟨fields, halone⟩ := h.alone
  have hwal : db.wal = db₀.wal ∨ db.wal = ⟨[], []⟩ := by
    have hwal := halone.wal
    split at hwal
    · exact .inl hwal
    · exact .inr hwal
  have hentries : ∀ entry ∈ db.wal.entries, entry ∈ db₀.wal.entries := by
    intro entry hentry
    rcases hwal with heq | heq
    · rwa [heq] at hentry
    · rw [heq] at hentry
      cases hentry
  refine ⟨halone.sound.file, ?_, halone.sound.entries,
    fun entry he => h.before.entryKeys entry (hentries entry he), fun x hx => ?_, fun x hx => ?_,
    h.indexFile, h.logged⟩
  · rcases hwal with heq | heq
    · rw [heq]
      exact h.before.readable
    · rw [heq]
      rfl
  · rcases halone.mem_liveOf (mem_itemsOf.mpr hx) with hold | ⟨⟨entry, hentry⟩, -⟩
    · exact h.before.liveKeys _ (mem_itemsOf.mp hold)
    · obtain ⟨hmem, hkey⟩ := mem_of_lastEntry hentry
      rw [← hkey]
      exact h.before.entryKeys entry hmem
  · rcases halone.mem_liveOf (mem_itemsOf.mpr hx) with hold | ⟨-, hoffset⟩
    · exact h.before.offsets _ (mem_itemsOf.mp hold)
    · exact hoffset

/-- A flush that has returned is not in progress any more. -/
theorem InFlush.quiet (h : InFlush log df₀ db₀ df db f) : Quiet log df db := by
  obtain ⟨fields, halone⟩ := h.alone
  exact ⟨h.remains, halone.sound.index, h.lengths.index⟩

/-- The next section of the flush in progress. -/
theorem InFlush.step (h : InFlush log df₀ db₀ df db f) (hmove : Moves db (.flush f) db' t') :
    ∃ g, t' = .flush g ∧ g.stage ≠ .pop ∧
      InFlush log df₀ db₀ (df.after (.flush f)) db' g := by
  obtain ⟨fields, halone⟩ := h.alone
  obtain ⟨fields', g, count, rfl, hstage, hmove'⟩ := hmove.withFields fields
  obtain ⟨_, heq, halone'⟩ := halone.step hmove'
  cases heq
  obtain ⟨hlengths, hflush⟩ := hmove.lengths h.lengths h.flush
  exact ⟨g, rfl, hstage, h.before, h.deletes, fun k e hk => (h.extents k e hk).after,
    ⟨fields', halone'.withCount hstage⟩, hlengths, hflush⟩

/-- The section after which a flush in progress has returned. -/
theorem InFlush.quiet_or_busy (h : InFlush log df₀ db₀ df db f) (hstage : f.stage ≠ .pop) :
    ((∃ df, Quiet log df db) ∧ (Task.flush f).Idle) ∨ Busy log db (.flush f) := by
  by_cases hdone : f.stage = .done
  · exact .inl ⟨⟨df, h.quiet⟩, .inr hdone⟩
  · exact .inr ⟨⟨hstage, hdone⟩, f, df₀, db₀, df, rfl, h⟩

/-- A section while no flush is in progress. -/
theorem Quiet.step {trace : List Task} {others : List Task}
    (h : Quiet (log ++ loggedIn trace) df db) (hguard : Exclusive db others t) (hidle : t.Idle)
    (hmove : Moves db t db' t') :
    ((∃ df, Quiet (log ++ loggedIn (trace ++ [t])) df db') ∧ t'.Idle) ∨
      Busy (log ++ loggedIn (trace ++ [t])) db' t' := by
  cases t with
  | write entry stage =>
    cases hmove with
    | append =>
      obtain ⟨hentry, hkey⟩ := hidle
      rw [loggedIn_concat, ← List.append_assoc]
      exact .inl ⟨⟨df, h.append hentry hkey⟩, hentry, hkey⟩
    | update =>
      rw [logged_same rfl]
      exact .inl ⟨⟨df, h.withFields _⟩, hidle⟩
  | get key result =>
    cases hmove with
    | get =>
      rw [logged_same rfl]
      exact .inl ⟨⟨df, h⟩, trivial⟩
  | flush f =>
    rw [logged_same rfl]
    rcases hidle with rfl | hdone
    · obtain ⟨g, rfl, hstage, hflush⟩ := (h.inFlush (hguard rfl).1).step hmove
      exact hflush.quiet_or_busy hstage
    · exact absurd hmove (not_moves_of_done hdone)
  | failed e => cases hmove

/-- A section of another task while a flush is in progress. -/
theorem Busy.beside {trace : List Task} {others : List Task} {u : Task}
    (h : Busy (log ++ loggedIn trace) db u) (hu : u ∈ others) (hguard : Exclusive db others t)
    (hidle : t.Idle) (hmove : Moves db t db' t') :
    Busy (log ++ loggedIn (trace ++ [t])) db' u ∧ t'.Idle := by
  obtain ⟨hflushing, f, df₀, db₀, df, rfl, hflush⟩ := h
  cases t with
  | write entry stage =>
    cases hmove with
    | append => exact absurd hflushing (hguard _ hu)
    | update =>
      rw [logged_same rfl]
      exact ⟨⟨hflushing, f, df₀, db₀, df, rfl, hflush.withFields _⟩, hidle⟩
  | get key result =>
    cases hmove with
    | get =>
      rw [logged_same rfl]
      exact ⟨⟨hflushing, f, df₀, db₀, df, rfl, hflush⟩, trivial⟩
  | flush g =>
    rcases hidle with rfl | hdone
    · exact absurd hflushing ((hguard rfl).2 _ hu)
    · exact absurd hmove (not_moves_of_done hdone)
  | failed e => cases hmove

/-- In every state of a run no flush is in progress, or exactly one is. -/
theorem quiet_or_busy_of_run {tasks trace : List Task} {c : Pool Database Task}
    (hquiet : Quiet log df db) (hbegin : ∀ t ∈ tasks, t.Begins)
    (hrun : Run Task.stepOk Exclusive ⟨db, tasks⟩ trace c) :
    (∃ df, Quiet (log ++ loggedIn trace) df c.shared) ∨
      ∃ t, Busy (log ++ loggedIn trace) c.shared t := by
  have hexclusive :=
    hrun.exclusive (I := Task.Idle)
      (Q := fun trace db => ∃ df, Quiet (log ++ loggedIn trace) df db)
    (B := fun trace => Busy (log ++ loggedIn trace)) ?_ ?_ ?_ ⟨⟨df, ?_⟩,
      fun t ht => idle_of_begins (hbegin t ht)⟩
  · rcases hexclusive with ⟨hquiet, -⟩ | ⟨-, t, -, hbusy, -⟩
    · exact .inl hquiet
    · exact .inr ⟨t, hbusy⟩
  · rintro trace choice db others t db' t' hguard hexec ⟨df, hquiet⟩ hidle
    exact hquiet.step hguard hidle (moves_of_stepOk hexec)
  · intro trace choice db others t u db' t' hguard hexec hu hbusy hidle
    exact hbusy.beside hu hguard hidle (moves_of_stepOk hexec)
  · rintro trace choice db t db' t' hexec ⟨-, f, df₀, db₀, df, rfl, hflush⟩
    obtain ⟨g, rfl, hstage, hflush'⟩ := hflush.step (moves_of_stepOk hexec)
    rw [logged_same rfl]
    exact hflush'.quiet_or_busy hstage
  · rwa [loggedIn, List.filterMap_nil, List.append_nil]

/-- At every moment of a run the files have what was logged. -/
theorem remains_of_run {tasks trace : List Task} {c : Pool Database Task} (hquiet : Quiet log df db)
    (hbegin : ∀ t ∈ tasks, t.Begins)
    (hrun : Run Task.stepOk Exclusive ⟨db, tasks⟩ trace c) :
    ∃ df, Remains (log ++ loggedIn trace) df c.shared := by
  rcases quiet_or_busy_of_run hquiet hbegin hrun with ⟨df, hquiet'⟩
    | ⟨t, -, f, df₀, db₀, df, -, hflush⟩
  · exact ⟨df, hquiet'.toRemains⟩
  · exact ⟨df, hflush.remains⟩

/-- A process that begins after others does so without a flush in progress. -/
theorem Lived.quiet (h : Lived name log db) : (stringBytes name).length ≤ 64 ∧
    ∃ df, Quiet log df db := by
  induction h with
  | new hopen =>
    obtain ⟨hname, wal, hwal, rfl⟩ := (open_eq_ok_iff_new rfl).mp hopen
    cases hwal
    have hnew := settled_new name
    exact ⟨hname, emptyFile name, ⟨hnew.file, hnew.log, nofun, nofun, nofun, nofun, .inl rfl, rfl⟩,
      fun k e hk => (hnew.index k e hk).extent, (dbLengths_of_open hopen).index⟩
  | restart hlived hbegin hrun hopen ih =>
    obtain ⟨hname, df, hquiet⟩ := ih
    obtain ⟨df', hremains⟩ := remains_of_run hquiet hbegin hrun
    obtain ⟨db', hopen', hquiet', -⟩ := hremains.reopens hname
    rw [hopen'] at hopen
    cases hopen
    exact ⟨hname, df', hquiet'⟩

/-- Processes run one after another on the same files. In each of them any
number of calls interleave, but nothing is logged and no flush begins while a
flush is in progress, and each one dies at any moment. Then the files can be
opened at every moment, and what they give back is all that was logged by all
of the processes. -/
theorem exclusive_flushes_lose_nothing {tasks trace : List Task} {c : Pool Database Task}
    (hlived : Lived name log db) (hbegin : ∀ t ∈ tasks, t.Begins)
    (hrun : Run Task.stepOk Exclusive ⟨db, tasks⟩ trace c) :
    ∃ db', Database.open name c.shared.disk = .ok db' ∧
      db'.state.fields = replay ∅ (log ++ loggedIn trace) := by
  obtain ⟨hname, df, hquiet⟩ := hlived.quiet
  obtain ⟨df', hremains⟩ := remains_of_run hquiet hbegin hrun
  obtain ⟨db', hopen, -, hfields⟩ := hremains.reopens hname
  exact ⟨db', hopen, hfields⟩

end

open scoped IsoHdlc

/-- A key is set and flushed; the process dies when the new index file is about
to be written. -/
def setAndDie : List (ℕ × Choice) :=
  sections 0 2 ++ takeBatch 1 [(.ofText "k", .set (.ofText "k") (.primitive (.integer 1)))] ++
    sections 1 5 ++
    copyIndex 1 [(.ofText "k", ⟨114, 1, 9⟩)] ++ sections 1 1

/-- The first process dies in its flush. -/
theorem setAndDie_runs : (drive Task.stepOk Exclusive setAndDie
    ⟨Database.new "db" [] ⟨[], []⟩,
      [.write (.set (.ofText "k") (.primitive (.integer 1))) .append,
        .flush .start]⟩).isSome := by
  decide +kernel

/-- The files that it leaves, opened. -/
def afterDeath : Option Database :=
  (Database.open "db" ((drive Task.stepOk Exclusive setAndDie _).get
    setAndDie_runs).2.shared.disk).toOption

/-- Its files are opened. -/
theorem afterDeath_opens : afterDeath.isSome := by
  decide +kernel

/-- The next process deletes the key and flushes; the state update of the
delete comes in the middle of the flush, and the process dies behind the
tombstone. -/
def deleteAndDie : List (ℕ × Choice) :=
  sections 0 1 ++ takeBatch 1 [(.ofText "k", .delete (.ofText "k"))] ++ sections 0 1 ++ sections 1 1

/-- The second process dies in its flush. -/
theorem deleteAndDie_runs : (drive Task.stepOk Exclusive deleteAndDie
    ⟨afterDeath.get afterDeath_opens,
      [.write (.delete (.ofText "k")) .append, .flush .start]⟩).isSome := by
  decide +kernel

/-- Both processes have died in the middle of a flush. The files have the set
and the delete. -/
theorem exclusive_flushes_lose_nothing_deleteAndDie :
    let trace := ((drive Task.stepOk Exclusive setAndDie _).get setAndDie_runs).1
    let out := (drive Task.stepOk Exclusive deleteAndDie _).get deleteAndDie_runs
    ∃ db, Database.open "db" out.2.shared.disk = .ok db ∧
      db.state.fields = replay ∅ (loggedIn trace ++ loggedIn out.1) := by
  have hopen : Database.open "db" ((drive Task.stepOk Exclusive setAndDie _).get
      setAndDie_runs).2.shared.disk =
      .ok (afterDeath.get afterDeath_opens) := by
    decide +kernel
  have hlived := Lived.restart (.new rfl) (by decide +kernel) (run_get_drive setAndDie_runs) hopen
  rw [List.nil_append] at hlived
  exact exclusive_flushes_lose_nothing hlived (by decide +kernel) (run_get_drive deleteAndDie_runs)

end PeachDB.Db
