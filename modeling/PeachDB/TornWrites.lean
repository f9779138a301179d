import PeachDB.CrashRecovery
import PeachDB.CutWrites
import PeachDB.FineRefinement

/-!
# Dying in the middle of a command

The process dies while a command of a flush is being executed, so that only
some bytes of it are in the file. A record that is cut and the first bytes of
a tombstone make the data file unreadable: it is refused when it is opened. All
other cuts are harmless, and whatever is opened has the fields of before.
-/

namespace PeachDB

open LittleEndian Dtypes RecordCodec IndexCodec FileHandler WriteAheadLog Interleaving Mailbox Db

/-- How many bytes of its item make the data file readable again. -/
def WriteAheadLog.WalEntry.readableFrom [Crc] : WalEntry → ℕ
  | .set key field => (encode key field).length
  | .delete _ => 4

namespace Db

section

variable [Crc] {df₀ df df' : DataFile} {db₀ db db' : Database} {f : Flush}

/-- The index entry of a key whose delete is about to be written is the extent
of a record that is alive. -/
theorem Alone.exists_slot (h : Alone df₀ db₀ df db f) (hdb : Recoverable df₀ db₀)
    {key : Key} {todo : List WalEntry} {entry : IndexEntry} (hstage : f.stage = .batch)
    (htodo : f.todo = .delete key :: todo) (hplan : f.deletePlan.lookup key = some entry) :
    ∃ s ∈ df.slots, s.Holds key entry ∧ s.record.isDead = false := by
  obtain ⟨s, hs, hheld⟩ := h.flush.plan key entry hplan
  have hnet : f.net.lookup key = some (.delete key) :=
    h.flush.todo (.delete key) (htodo ▸ List.mem_cons_self)
  have hbatch : Stage.batch ≤ f.stage := by
    rw [hstage]
    decide
  rw [h.plan hbatch, lookup_deletePlanOf_of_delete hnet] at hplan
  obtain ⟨x, hx, hat⟩ := hdb.index key entry hplan
  have hkey : KeyAt df₀ db₀ df f (WalEntry.delete key).key := h.keys key
  obtain ⟨hlive, -⟩ := hkey.of_todo htodo
  change df.liveOf key = df₀.liveOf key at hlive
  rw [← hlive] at hx
  obtain ⟨s', hs', hdead, -, hoff, -⟩ := DataFile.mem_live (mem_itemsOf.mp hx)
  have hsame : s = s' := slot_unique hs hs' (by rw [← hheld.offset_eq, hat.offset_eq, hoff])
  exact ⟨s, hs, hheld, hsame ▸ hdead⟩

omit [Crc] in
/-- The bytes of a tombstone are those of the deleted record. -/
theorem tombstoneOf_of_holds [Crc] {s : Slot} {key : Key} {entry : IndexEntry}
    (h : s.Holds key entry) :
    tombstoneOf entry = s.record.tombstone.bytes := by
  rw [tombstoneOf, h.keyLen_eq, h.fieldLen_eq, Record.bytes_tombstone]

/-- A key with an item has an entry in the log. -/
theorem Alone.lastEntry_of_todo (h : Alone df₀ db₀ df db f) {entry : WalEntry}
    {todo : List WalEntry} (hstage : f.stage = .batch) (htodo : f.todo = entry :: todo) :
    lastEntry entry.key db₀.wal.entries = some entry := by
  rw [← h.lookup_net (by rw [hstage]; decide)]
  exact h.flush.todo entry (htodo ▸ List.mem_cons_self)

/-- A data file over which the log gives what it gave over the first one: it has
the same live records of all keys that are not in the log. No key is empty. -/
structure Replayable (df₀ : DataFile) (log : List WalEntry) (df : DataFile) : Prop where
  /-- Keys that are not in the log have their records. -/
  others : ∀ k, lastValue k log = none → df.liveOf k = df₀.liveOf k
  /-- No key of a live record is empty. -/
  liveKeys : ∀ x ∈ df.live, x.1.asBytes ≠ []

section

variable {log : List WalEntry} {key : Key}

omit [Crc] in
/-- Replaying the log gives the same fields again. -/
theorem Replayable.replay_eq (h : Replayable df₀ log df) :
    replay df.fields log = replay df₀.fields log := by
  rw [Db.replay_eq, Db.replay_eq]
  refine applyAll_congr fun k hk => ?_
  rw [DataFile.lookup_fields, DataFile.lookup_fields, h.others k hk]

omit [Crc] in
/-- Only the live records matter. -/
theorem Replayable.same (h : Replayable df₀ log df) (hlive : df'.live = df.live) :
    Replayable df₀ log df' where
  others k hk := by
    rw [DataFile.liveOf, hlive]
    exact h.others k hk
  liveKeys := hlive ▸ h.liveKeys

/-- A record of a key in the log is added. -/
theorem Replayable.append (h : Replayable df₀ log df) {field : Field} (hkey : key.Encodable)
    (hfield : field.Encodable) (hlogged : lastValue key log ≠ none) (hne : key.asBytes ≠ []) :
    Replayable df₀ log (df.append (.ofPair key field hkey hfield)) where
  others k hk := by
    have hother : key ≠ k := fun heq => hlogged (heq ▸ hk)
    rw [DataFile.liveOf_append, if_neg hother]
    exact h.others k hk
  liveKeys x hx := by
    rw [DataFile.live_append] at hx
    rcases List.mem_append.mp hx with hx | hx
    · exact h.liveKeys x hx
    · rw [List.mem_singleton.mp hx]
      exact hne

omit [Crc] in
/-- A record of a key in the log is deleted. -/
theorem Replayable.tombstone (h : Replayable df₀ log df) {entry : IndexEntry}
    (hextent : df.Extent key entry) (hlogged : lastValue key log ≠ none) :
    Replayable df₀ log (df.tombstone entry.offset.toNat) where
  others k hk := by
    rw [DataFile.liveOf_tombstone_of_ne hextent fun heq => hlogged (heq ▸ hk)]
    exact h.others k hk
  liveKeys x hx := by
    rw [DataFile.live_tombstone] at hx
    exact h.liveKeys x (List.mem_of_mem_filter hx)

end

/-- While a flush runs alone the log can be replayed. -/
theorem Alone.replayable (h : Alone df₀ db₀ df db f) (hdb : Recoverable df₀ db₀) :
    Replayable df₀ db₀.wal.entries df :=
  ⟨fun _ hk => h.liveOf_eq hk, h.liveKeys hdb⟩

/-- Over what a cut command leaves the log gives what it gave before, when it
can be read. -/
theorem Alone.torn (h : Alone df₀ db₀ df db f) (hdb : Recoverable df₀ db₀)
    (htorn : Torn db f db') (hfile : db'.file = df'.bytes) :
    Replayable df₀ db₀.wal.entries df' := by
  have hbefore := h.replayable hdb
  have hold : db'.file = db.file → df'.live = df.live := by
    intro heq
    exact DataFile.live_of_records
      (DataFile.records_eq_of_bytes_eq (hfile.symm.trans (heq.trans h.sound.file)))
  cases htorn with
  | untouched | index indexFile hstage | checkpoint file hstage => exact hbefore.same (hold rfl)
  | count n hstage =>
    obtain ⟨count', hcount⟩ := df.torn_count f.count n
    have hrecords := DataFile.records_eq_of_bytes_eq
      (hfile.symm.trans ((congrArg (overwrite · 34 ((ofU64 f.count).take n)) h.sound.file).trans
        hcount))
    exact hbefore.same (DataFile.live_of_records hrecords)
  | @append key field todo n hstage htodo =>
    have henc := h.flush.encodable htodo
    have hkey : key.Encodable := henc.1
    have hfield : field.Encodable := henc.2 field rfl
    have hlast : lastEntry key db₀.wal.entries = some (.set key field) :=
      h.lastEntry_of_todo hstage htodo
    dsimp only at hfile
    rw [h.sound.file, ← Record.bytes_ofPair key field hkey hfield] at hfile
    rcases DataFile.torn_append hfile with ⟨-, hrecords⟩ | ⟨-, hrecords⟩
    · exact hbefore.same (DataFile.live_of_records hrecords)
    · have hlogged : lastValue key db₀.wal.entries ≠ none := by
        rw [← map_value_lastEntry, hlast]
        simp
      have hne : key.asBytes ≠ [] := hdb.entryKeys _ (mem_of_lastEntry hlast).1
      exact (hbefore.append hkey hfield hlogged hne).same (DataFile.live_of_records hrecords)
  | @tombstone key todo entry n hstage htodo hplan =>
    obtain ⟨s, hs, hheld, hdead⟩ := h.exists_slot hdb hstage htodo hplan
    have hlast : lastEntry key db₀.wal.entries = some (.delete key) :=
      h.lastEntry_of_todo hstage htodo
    dsimp only at hfile
    rw [h.sound.file, tombstoneOf_of_holds hheld, hheld.offset_eq] at hfile
    have hlive := (DataFile.torn_tombstone hs hdead n).2 df' hfile
    split at hlive
    · exact hbefore.same hlive
    · have hlogged : lastValue key db₀.wal.entries ≠ none := by
        rw [← map_value_lastEntry, hlast]
        simp
      rw [← hheld.offset_eq] at hlive
      exact (hbefore.tombstone ⟨s, hs, hheld⟩ hlogged).same hlive

/-- A cut command does not leave an empty data file. -/
theorem Torn.file_ne_nil (h : Torn db f db') (hne : db.file ≠ []) : db'.file ≠ [] := by
  have hoverwrite : ∀ (pos : ℕ) (data : Bytes), overwrite db.file pos data ≠ [] := by
    intro pos data hnil
    have hlen := length_le_overwrite db.file pos data
    rw [hnil, List.length_nil, Nat.le_zero, List.length_eq_zero_iff] at hlen
    exact hne hlen
  cases h with
  | untouched | index indexFile hstage | checkpoint file hstage => exact hne
  | append n hstage htodo => exact List.append_ne_nil_of_left_ne_nil hne _
  | tombstone n hstage htodo hplan => exact hoverwrite _ _
  | count n hstage => exact hoverwrite _ _

/-- A flush that runs alone on prompt files and whose commands may fail. -/
theorem alone_or_torn {trace : List Task} {c : Pool Database Task} (hdb : Recoverable df₀ db₀)
    (hrun : Run Task.stepPrompt anyStep ⟨db₀, [.flush .start]⟩ trace c) :
    (∃ df db f, c = ⟨db, [.flush f]⟩ ∧ Alone df₀ db₀ df db f ∧ FlushLengths f) ∨
      ∃ df db f db' e, c = ⟨db', [.failed e]⟩ ∧ Alone df₀ db₀ df db f ∧
      Torn db f db' := by
  have hsolo := hrun.solo
    (P := fun _ db t =>
      (∃ trace, Run Task.stepOk anyStep ⟨db₀, [.flush .start]⟩ trace ⟨db, [t]⟩) ∨
      ∃ df db₁ f e, t = .failed e ∧ Alone df₀ db₀ df db₁ f ∧ Torn db₁ f db)
    ?_ (.inl ⟨[], .refl⟩)
  · obtain ⟨db', t, rfl, ⟨trace', hok⟩ | ⟨df, db₁, f, e, rfl, halone, htorn⟩⟩ := hsolo
    · obtain ⟨df, db, f, heq, halone, -, hf⟩ := alone_of_run hdb hok
      exact .inl ⟨df, db, f, heq, halone, hf⟩
    · exact .inr ⟨df, db₁, f, db', e, rfl, halone, htorn⟩
  · rintro - choice db t db' t' hexec (⟨trace', hok⟩ | ⟨df, db₁, f, e, rfl, -⟩)
    · obtain ⟨hprompt, hexec⟩ := Option.ite_none_right_eq_some.mp hexec
      obtain ⟨df, db₁, f, heq, halone, -, -⟩ := alone_of_run hdb hok
      cases heq
      by_cases hfailed : ∃ e, t' = .failed e
      · obtain ⟨e, rfl⟩ := hfailed
        exact .inr ⟨df, db, f, e, rfl, halone, torn_of_failed hexec⟩
      · have hstep := taskStepOk_of_step hprompt hexec (not_exists.mp hfailed)
        exact .inl ⟨_, hok.snoc (.move [] [] choice trivial hstep)⟩
    · cases (Option.ite_none_right_eq_some.mp hexec).2

/-- A flush that runs alone on prompt files is cut off at any moment before the
log is truncated, inside any of its commands as well. Opening the files gives the
fields of before, or it is refused; it is refused only when a command was cut
or has failed. -/
theorem open_after_cut {name : String} {s : FineSystem} (hname : (stringBytes name).length ≤ 64)
    (hdb : Recoverable df₀ db₀)
    (hfields : replay df₀.fields db₀.wal.entries = db₀.state.fields)
    (hindexFile : db₀.indexFile = [] ∨ Encodes db₀.indexFile db₀.state.index)
    (hrun : PromptRun (fineStart db₀ [.flush .start]) s)
    (hlog : s.objects .wal = db₀.wal.file) :
    (∃ db, Database.open name ⟨s.objects .data, s.objects .index, s.objects .wal⟩ = .ok db ∧
      db.state.fields = db₀.state.fields) ∨
    ((∃ e, Database.open name ⟨s.objects .data, s.objects .index, s.objects .wal⟩ =
      .error e) ∧
      ∃ status ∈ s.tasks, (status.settled program).Failed) := by
  obtain ⟨_, _, _, c, hsections, hrelated, -⟩ :=
    related_of_run (fun io : PromptVerdict => io.1) Verdict.Prompt trivial (fun io => io.2) hrun
  have hagrees := agrees_of_related hrelated
  have hwal : Wal.open (s.objects .wal) = .ok db₀.wal := by
    rw [hlog]
    exact hdb.log
  rcases alone_or_torn hdb hsections with ⟨df, db, f, rfl, halone, hf⟩
    | ⟨df, db, f, db', e, rfl, halone, htorn⟩
  · have hdata : s.objects .data = df.bytes := hagrees.data.symm.trans halone.sound.file
    have hindex : s.objects .index = db.indexFile := hagrees.index.symm
    obtain ⟨index, hread⟩ := halone.exists_initIndex hdb hindexFile hf
    rw [← hindex] at hread
    have hopen := open_bytes hname hwal hread
    rw [halone.replay_eq, ← hdata] at hopen
    exact .inl ⟨_, hopen, hfields⟩
  · have hdata : s.objects .data = db'.file := hagrees.data.symm
    cases hopen : Database.open name ⟨s.objects .data, s.objects .index, s.objects .wal⟩ with
    | error e' =>
      refine .inr ⟨⟨e', rfl⟩, ?_⟩
      obtain ⟨status, hstatus, hsettled⟩ := hagrees.failed 0 e rfl
      refine ⟨status, List.mem_of_getElem? hstatus, ?_⟩
      rw [hsettled]
      trivial
    | ok db₁ =>
      have hne : db'.file ≠ [] := htorn.file_ne_nil (halone.sound.file ▸ df.bytes_ne_nil)
      obtain ⟨df', hbytes, hstate⟩ := dataFile_of_open (hdata ▸ hne) hwal hopen
      refine .inl ⟨db₁, rfl, hstate.trans ?_⟩
      rw [← hfields]
      exact (halone.torn hdb htorn (hdata ▸ hbytes)).replay_eq

omit [Crc] in
/-- The index file can be read with every data file that can be scanned. -/
theorem exists_initIndex [Crc] (hkeys : ∀ x ∈ df.live, x.1.asBytes ≠ []) {indexFile : Bytes}
    {index : HashMap Key IndexEntry} (hindexFile : indexFile = [] ∨ Encodes indexFile index)
    (hlen : LengthsMatch index) : ∃ index, Database.initIndex df.bytes indexFile = .ok index := by
  by_cases hempty : indexFile = []
  · rw [hempty]
    exact ⟨_, initIndex_nil hkeys⟩
  · exact ⟨_, initIndex_encoded (hindexFile.resolve_left hempty) hlen hempty⟩

/-- When a flush has died in its batch, the database can be opened again exactly
when the data file can be read. -/
theorem Alone.open_torn_iff (h : Alone df₀ db₀ df db f) {name : String}
    (hname : (stringBytes name).length ≤ 64) (hdb : Recoverable df₀ db₀)
    (hindexFile : db₀.indexFile = [] ∨ Encodes db₀.indexFile db₀.state.index)
    (hstage : f.stage = .batch) (htorn : Torn db f db') :
    (∃ db₁, Database.open name db'.disk = .ok db₁) ↔ ∃ df' :
    DataFile, db'.file = df'.bytes := by
  have hwal : Wal.open db'.wal.file = .ok db₀.wal := by
    have hsame : db'.wal = db.wal := by
      cases htorn with
      | checkpoint file hcheckpoint =>
        rw [hstage] at hcheckpoint
        cases hcheckpoint
      | _ => rfl
    rw [hsame, h.wal_old (by rw [hstage]; decide)]
    exact hdb.log
  have hindexSame : db'.indexFile = db₀.indexFile := by
    rw [← h.indexFile_old (by rw [hstage]; decide)]
    cases htorn with
    | index indexFile hwrite =>
      rw [hstage] at hwrite
      cases hwrite
    | _ => rfl
  have hne : db'.file ≠ [] := htorn.file_ne_nil (h.sound.file ▸ df.bytes_ne_nil)
  constructor
  · rintro ⟨db₁, hopen⟩
    obtain ⟨df', hbytes, -⟩ := dataFile_of_open hne hwal hopen
    exact ⟨df', hbytes⟩
  · rintro ⟨df', hbytes⟩
    obtain ⟨index, hindex⟩ :=
      Db.exists_initIndex (h.torn hdb htorn hbytes).liveKeys (hindexSame ▸ hindexFile)
        hdb.lengths.index
    have hopen := open_bytes hname hwal hindex
    rw [← hbytes] at hopen
    exact ⟨_, hopen⟩

/-- A flush that runs alone dies while it writes an item of its batch, with `n`
bytes of it in the data file. The database can be opened again exactly when
there are none of them or enough: the whole of a record, or the magic word of
a tombstone. -/
theorem open_torn_item_iff {name : String} {trace : List Task} {entry : WalEntry}
    {todo : List WalEntry} {choice : Choice} {n : ℕ} {e : Abort}
    (hname : (stringBytes name).length ≤ 64) (hdb : Recoverable df₀ db₀)
    (hindexFile : db₀.indexFile = [] ∨ Encodes db₀.indexFile db₀.state.index)
    (hrun : Run Task.stepOk anyStep ⟨db₀, [.flush .start]⟩ trace ⟨db, [.flush f]⟩)
    (hstage : f.stage = .batch) (htodo : f.todo = entry :: todo) (hcut : choice.first = .failed n)
    (hfail : Task.step choice db (.flush f) = some (db', .failed e)) :
    (∃ db₁, Database.open name db'.disk = .ok db₁) ↔
      n = 0 ∨ entry.readableFrom ≤ n := by
  obtain ⟨df, db₁, f₁, heq, halone, -, -⟩ := alone_of_run hdb hrun
  cases heq
  rw [halone.open_torn_iff hname hdb hindexFile hstage (torn_of_failed hfail)]
  cases entry with
  | set key field =>
    have henc := halone.flush.encodable htodo
    have hkey : key.Encodable := henc.1
    have hfield : field.Encodable := henc.2 field rfl
    have hfile : db'.file = df.bytes ++ (Record.ofPair key field hkey hfield).bytes.take n := by
      simp only [Task.step, Flush.step, hstage, htodo, Flush.batchItem, hcut,
        FileHandler.append_failed] at hfail
      obtain ⟨rfl, -⟩ := Prod.mk.inj (Option.some.inj hfail)
      rw [Record.bytes_ofPair, ← halone.sound.file]
    have hsize : (WalEntry.set key field).readableFrom =
        (Record.ofPair key field hkey hfield).size := by
      rw [← Record.length_bytes, Record.bytes_ofPair]
      rfl
    rw [hfile, hsize]
    constructor
    · rintro ⟨df', hdf'⟩
      exact (DataFile.torn_append hdf').imp And.left And.left
    · rintro (rfl | hall)
      · exact ⟨df, by rw [List.take_zero, List.append_nil]⟩
      · refine ⟨df.append (.ofPair key field hkey hfield), ?_⟩
        rw [List.take_of_length_le (by rwa [Record.length_bytes]), DataFile.bytes_append]
  | delete key =>
    cases hplan : f.deletePlan.lookup key with
    | none =>
      simp only [Task.step, Flush.step, hstage, htodo, Flush.batchItem, hplan] at hfail
      cases hfail
    | some entry =>
      obtain ⟨s, hs, hheld, hdead⟩ := halone.exists_slot hdb hstage htodo hplan
      have hfile : db'.file = overwrite df.bytes s.offset (s.record.tombstone.bytes.take n) := by
        simp only [Task.step, Flush.step, hstage, htodo, Flush.batchItem, hplan, hcut] at hfail
        obtain ⟨rfl, -⟩ := Prod.mk.inj (Option.some.inj hfail)
        rw [← tombstoneOf_of_holds hheld, ← hheld.offset_eq, ← halone.sound.file]
        rfl
      rw [hfile]
      exact (DataFile.torn_tombstone hs hdead n).1

omit [Crc] in
/-- An index file that is cut can be read exactly when its bytes are those of
the first entries, and then only these are in the index. -/
theorem initIndex_take_iff [Crc] (hkeys : ∀ x ∈ df.live, x.1.asBytes ≠ [])
    {order : List (Key × IndexEntry)} (hall : ∀ x ∈ order, x.2.keyLen.toNat = x.1.len)
    (n : ℕ) (index : HashMap Key IndexEntry) :
    Database.initIndex df.bytes ((IndexEncoder.new.encodeIndexFile order).finish.take n) =
      .ok index ↔
      ∃ j, (IndexEncoder.new.encodeIndexFile order).finish.take n =
          (IndexEncoder.new.encodeIndexFile (order.take j)).finish ∧
        index = if order.take j = [] then df.index else insertAll ∅ (order.take j) := by
  lift order to List IndexItem using hall
  have hbytes :
      ∀ items : List IndexItem,
      (IndexEncoder.new.encodeIndexFile (items.map Subtype.val)).finish =
      items.flatMap fun x => entryBytes x.1 := by
    intro items
    rw [IndexEncoder.finish, encodeIndexFile_buffer, List.flatMap_map]
    rfl
  have hnil : ∀ items : List IndexItem, items.flatMap (fun x => entryBytes x.1) = [] ↔
      items = [] := by
    intro items
    refine ⟨fun hempty => ?_, fun hempty => hempty ▸ rfl⟩
    have hlength := IndexDecoder.framed.length_le items
    rw [hempty] at hlength
    exact List.length_eq_zero_iff.mp (Nat.le_zero.mp hlength)
  simp only [← List.map_take, hbytes, List.map_eq_nil_iff]
  by_cases hempty : (order.flatMap fun x => entryBytes x.1).take n = []
  · -- nothing is left of the file, and the data file is scanned
    rw [hempty, initIndex_nil hkeys]
    constructor
    · intro hindex
      cases hindex
      exact ⟨0, rfl, (if_pos rfl).symm⟩
    · rintro ⟨j, hj, rfl⟩
      rw [if_pos ((hnil _).mp hj.symm)]
  · rw [Database.initIndex, if_pos hempty,
      IndexCodec.decodeIndexFile_of_prefix (List.take_prefix n _)]
    refine exists_congr fun j => and_congr_right fun hj => ?_
    rw [if_neg fun htake => hempty (hj.trans ((hnil _).mpr htake))]

/-- A flush that runs alone dies while it rewrites the index file, with `n`
bytes of it there. The database can be opened again exactly when these are the
bytes of the first entries; the index then has no others. When there are none,
it is the one of the data file. -/
theorem open_torn_index_iff {name : String} {trace : List Task} {choice : Choice} {n : ℕ}
    {e : Abort} {index : HashMap Key IndexEntry} (hname : (stringBytes name).length ≤ 64)
    (hdb : Recoverable df₀ db₀)
    (hrun : Run Task.stepOk anyStep ⟨db₀, [.flush .start]⟩ trace ⟨db, [.flush f]⟩)
    (hstage : f.stage = .writeIndex) (hcut : choice.first = .failed n)
    (hfail : Task.step choice db (.flush f) = some (db', .failed e)) (hfile : db.file = df.bytes) :
    ∃ order, IterOrder f.index order ∧
      f.encoded = (IndexEncoder.new.encodeIndexFile order).finish ∧
      ((∃ db₁, Database.open name db'.disk = .ok db₁ ∧ db₁.state.index = index) ↔
        ∃ j, f.encoded.take n = (IndexEncoder.new.encodeIndexFile (order.take j)).finish ∧
          index = if order.take j = [] then df.index else insertAll ∅ (order.take j)) := by
  obtain ⟨df₁, db₁, f₁, heq, halone, -, hf⟩ := alone_of_run hdb hrun
  cases heq
  obtain ⟨hlen, order, horder, hencoded⟩ := hf.copied (by rw [hstage]; decide)
  refine ⟨order, horder, hencoded, ?_⟩
  have hdisk : db'.disk = ⟨df.bytes, f.encoded.take n, db₀.wal.file⟩ := by
    have hold : db.indexFile = [] := by
      rw [halone.indexFile, if_neg (by rw [hstage]; decide), if_pos hstage]
    have hwal : db.wal = db₀.wal := halone.wal_old (by rw [hstage]; decide)
    simp only [Task.step, Flush.step, hstage, hcut] at hfail
    obtain ⟨rfl, -⟩ := Prod.mk.inj (Option.some.inj hfail)
    simp only [Database.disk, writeAt, writeAll, UInt64.toNat_zero, hold, hwal, hfile,
      overwrite_zero (List.length_nil.le.trans (Nat.zero_le _))]
  have hsame : df₁.live = df.live :=
    DataFile.live_of_records (DataFile.records_eq_of_bytes_eq (halone.sound.file.symm.trans hfile))
  have hkeys : ∀ x ∈ df.live, x.1.asBytes ≠ [] := hsame ▸ halone.liveKeys hdb
  -- opening succeeds when the index can be read
  have hopen : (∃ db₁, Database.open name db'.disk = .ok db₁ ∧
      db₁.state.index = index) ↔
      Database.initIndex df.bytes (f.encoded.take n) = .ok index := by
    rw [hdisk]
    constructor
    · rintro ⟨db₁, hopen, rfl⟩
      obtain ⟨-, wal, -, fields, info, -, index, hindex, rfl⟩ :=
        (open_eq_ok_iff_init df.bytes_ne_nil).mp hopen
      exact hindex
    · intro hindex
      exact ⟨_, open_bytes hname hdb.log hindex, rfl⟩
  have hall : ∀ x ∈ order, x.2.keyLen.toNat = x.1.len := fun x hx =>
    hlen _ _ (horder.mem_iff.mp hx)
  rw [hopen, hencoded]
  exact initIndex_take_iff hkeys hall n index

end

open scoped IsoHdlc

/-- A flush that dies when it has written five bytes of the new record. -/
def dieInsideAppend : List (Move FileId Choice PromptVerdict) :=
  [.compute 0 .plain,
    .compute 0 { Choice.plain with batch :=
      [(.ofText "k", .set (.ofText "k") (.primitive (.integer 2)))] },
    .send 0, .serve .data ⟨.failed 5, trivial⟩]

/-- The flush dies inside its append. -/
theorem dieInsideAppend_runs :
    (promptPerform (fineStart setAgain [.flush .start]) dieInsideAppend).isSome := by
  decide +kernel

/-- The files that the flush leaves are refused. -/
theorem open_after_cut_setAgain :
    let s := (promptPerform _ _).get dieInsideAppend_runs
    (∃ db, Database.open "db" ⟨s.objects .data, s.objects .index, s.objects .wal⟩ = .ok db ∧
      db.state.fields = setAgain.state.fields) ∨
    ((∃ e, Database.open "db" ⟨s.objects .data, s.objects .index, s.objects .wal⟩ =
      .error e) ∧
      ∃ status ∈ s.tasks, (status.settled program).Failed) :=
  open_after_cut (by decide) recoverable_setAgain rfl (.inr encodes_setAgain)
    (run_get_performAll dieInsideAppend_runs) (by decide +kernel)

/-- The flush when it is about to append the new record. -/
def aboutToAppend : Flush :=
  { Flush.start with
    stage := .batch
    net := netOf setAgain.wal.entries
    todo := setAgain.wal.entries }

/-- The flush comes to its append. -/
theorem aboutToAppend_runs : (drive Task.stepOk anyStep
    (takeBatch 0 [(.ofText "k", .set (.ofText "k") (.primitive (.integer 2)))])
    ⟨setAgain, [.flush .start]⟩).map Prod.snd =
      some ⟨setAgain, [.flush aboutToAppend]⟩ := by
  decide +kernel

/-- With five bytes of the record in the file it is refused. -/
theorem open_torn_item_iff_setAgain : ∃ db',
    Task.step (verdicts (.failed 5) .done) setAgain (.flush aboutToAppend) =
      some (db', .failed (.err (mapFileHandlerError .device))) ∧
    ((∃ db, Database.open "db" db'.disk = .ok db) ↔
      5 = 0 ∨ (WalEntry.set (.ofText "k") (.primitive (.integer 2))).readableFrom ≤ 5) := by
  obtain ⟨⟨trace, c⟩, hdrive, rfl⟩ := Option.map_eq_some_iff.mp aboutToAppend_runs
  have hfail : Task.step (verdicts (.failed 5) .done) setAgain (.flush aboutToAppend) =
      some (_, .failed (.err (mapFileHandlerError .device))) := rfl
  exact ⟨_, hfail, open_torn_item_iff (by decide) recoverable_setAgain (.inr encodes_setAgain)
    (run_of_drive hdrive) rfl rfl rfl hfail⟩

/-- The flush when it is about to write the index file. -/
def aboutToWriteIndex : Flush where
  stage := .writeIndex
  net := netOf setAgain.wal.entries
  deletePlan := ∅
  todo := []
  indexes := [(.ofText "k", ⟨138, 1, 9⟩)]
  count := 1
  index := insertAll ∅ [(.ofText "k", ⟨138, 1, 9⟩)]
  encoded := entryBytes (.ofText "k", ⟨138, 1, 9⟩)

/-- The files and the state then. -/
def beforeWriteIndex : Database :=
  { setAgain with
    state := ⟨setAgain.state.fields, insertAll ∅ [(.ofText "k", ⟨138, 1, 9⟩)]⟩
    file := twoRecords.bytes
    indexFile := [] }

/-- The flush comes to its write of the index file. -/
theorem aboutToWriteIndex_runs : (drive Task.stepOk anyStep
    (takeBatch 0 [(.ofText "k", .set (.ofText "k") (.primitive (.integer 2)))] ++ sections 0 5 ++
      copyIndex 0 [(.ofText "k", ⟨138, 1, 9⟩)] ++ sections 0 1)
    ⟨setAgain, [.flush .start]⟩).map Prod.snd =
      some ⟨beforeWriteIndex, [.flush aboutToWriteIndex]⟩ := by
  decide +kernel

/-- With three bytes of the entry in the index file it is refused. -/
theorem open_torn_index_iff_setAgain : ∃ db',
    Task.step (verdicts (.failed 3) .done) beforeWriteIndex (.flush aboutToWriteIndex) =
      some (db', .failed (.err (mapFileHandlerError .device))) ∧
    ∃ order, IterOrder aboutToWriteIndex.index order ∧
      aboutToWriteIndex.encoded = (IndexEncoder.new.encodeIndexFile order).finish ∧
      ((∃ db, Database.open "db" db'.disk = .ok db ∧ db.state.index = twoRecords.index) ↔
        ∃ j, aboutToWriteIndex.encoded.take 3 =
          (IndexEncoder.new.encodeIndexFile (order.take j)).finish ∧
          twoRecords.index = if order.take j = [] then twoRecords.index
            else insertAll ∅ (order.take j)) := by
  obtain ⟨⟨trace, c⟩, hdrive, rfl⟩ := Option.map_eq_some_iff.mp aboutToWriteIndex_runs
  have hfail : Task.step (verdicts (.failed 3) .done) beforeWriteIndex (.flush aboutToWriteIndex) =
      some (_, .failed (.err (mapFileHandlerError .device))) := rfl
  exact ⟨_, hfail, open_torn_index_iff (by decide) recoverable_setAgain (run_of_drive hdrive) rfl
    rfl hfail rfl⟩

end Db

end PeachDB
