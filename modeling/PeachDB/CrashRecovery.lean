import PeachDB.FlushAlone
import PeachDB.IndexRewrite

/-!
# Dying in the middle of a flush

A flush that runs alone is cut off between two of its sections, before it has
truncated the log. The log is still the old one and the flush has touched the
records of its batch only, so that opening the files gives the fields of
before. The index is taken from the index file, which knows the appended
records only when it has been rewritten.
-/

namespace PeachDB

open Dtypes RecordCodec IndexCodec FileHandler WriteAheadLog Interleaving Db

/-- The entry is the extent of a live record of the key. -/
structure Stored.IsAt (x : Stored) (k : Key) (e : IndexEntry) : Prop where
  /-- It lies where the entry says. -/
  offset_eq : e.offset.toNat = x.offset
  /-- The key is as long as the entry says. -/
  keyLen_eq : e.keyLen.toNat = k.len
  /-- The field is as long as the entry says. -/
  fieldLen_eq : e.fieldLen.toNat = x.fieldLen

/-- The entry describes the extent of a live record of its own key. -/
def DataFile.LiveExtent (df : DataFile) (k : Key) (e : IndexEntry) : Prop :=
  ∃ x ∈ df.liveOf k, x.IsAt k e

/-- The index has the extent of the last live record of every key. -/
def DataFile.Covered (df : DataFile) (index : HashMap Key IndexEntry) : Prop :=
  ∀ k x, (df.liveOf k).getLast? = some x → ∃ e, index.lookup k = some e ∧ x.IsAt k e

/-- A live record lies inside the file, and its lengths fit. -/
theorem DataFile.bounds_of_mem_liveOf {df : DataFile} {k : Key} {x : Stored}
    (h : x ∈ df.liveOf k) :
    x.offset < 114 + totalSize df.records ∧ k.len < 2 ^ 16 ∧ x.fieldLen < 2 ^ 32 := by
  obtain ⟨s, hs, -, hkey, hoff, hfield⟩ := mem_live (mem_itemsOf.mp h)
  obtain ⟨-, hend⟩ := bounds_of_mem_slotsFrom hs
  have hpos := s.record.size_pos
  refine ⟨by omega, ?_, ?_⟩
  · rw [← hkey]
    exact s.record.parts.key_lt
  · rw [← hfield]
    exact s.record.parts.field_lt

/-- An entry of a live record is an extent. -/
theorem DataFile.LiveExtent.extent {df : DataFile} {k : Key} {e : IndexEntry}
    (h : df.LiveExtent k e) :
    df.Extent k e := by
  obtain ⟨x, hx, hat⟩ := h
  obtain ⟨s, hs, -, hkey, hoff, hfield⟩ := mem_live (mem_itemsOf.mp hx)
  refine ⟨s, hs, hat.offset_eq.trans hoff.symm, ?_, ?_, fun _ => hkey⟩
  · rw [← UInt16.toNat_inj, Parts.toNat_keyLen, hat.keyLen_eq, hkey]
  · rw [← UInt32.toNat_inj, Parts.toNat_fieldLen, hat.fieldLen_eq, hfield]

/-- The index entry of a live record is its extent. -/
theorem DataFile.isAt_entry {df : DataFile} {k : Key} {x : Stored} (h : x ∈ df.liveOf k)
    (hoff : x.offset < 2 ^ 64) : x.IsAt k (x.entry k) := by
  obtain ⟨-, hkey, hfield⟩ := bounds_of_mem_liveOf h
  exact ⟨UInt64.toNat_ofNat_of_lt' hoff,
    UInt16.toNat_ofNat_of_lt' hkey,
    UInt32.toNat_ofNat_of_lt' hfield⟩

/-- The index of a file covers it when all offsets can be represented. -/
theorem DataFile.covered_index {df : DataFile} (h : ∀ x ∈ df.live, x.2.offset < 2 ^ 64) :
    df.Covered df.index := by
  intro k x hx
  have hmem := List.mem_of_getLast? hx
  exact ⟨x.entry k, by rw [lookup_index, hx]; rfl, isAt_entry hmem (h _ (mem_itemsOf.mp hmem))⟩

/-- The index of a file has extents of live records only. -/
theorem DataFile.liveExtent_of_index {df : DataFile} (h : ∀ x ∈ df.live, x.2.offset < 2 ^ 64)
    {k : Key} {e : IndexEntry} (hk : df.index.lookup k = some e) : df.LiveExtent k e := by
  rw [lookup_index, Option.map_eq_some_iff] at hk
  obtain ⟨x, hx, rfl⟩ := hk
  have hmem := List.mem_of_getLast? hx
  exact ⟨x, hmem, isAt_entry hmem (h _ (mem_itemsOf.mp hmem))⟩

namespace Db

/-- The bytes encode the index in one of its orders. -/
def Encodes (bytes : Bytes) (index : HashMap Key IndexEntry) : Prop :=
  ∃ order, IterOrder index order ∧ bytes = (IndexEncoder.new.encodeIndexFile order).finish

/-- A database whose files can be opened: the log holds the entries, every
index entry describes a live record and no key is empty. -/
structure Recoverable [Crc] (df : DataFile) (db : Database) : Prop where
  /-- The data file. -/
  file : db.file = df.bytes
  /-- The log file holds the entries in memory. -/
  log : Wal.open db.wal.file = .ok db.wal
  /-- Every index entry describes a live record of its key. -/
  index : ∀ k e, db.state.index.lookup k = some e → df.LiveExtent k e
  /-- The log can be encoded. -/
  entries : ∀ entry ∈ db.wal.entries, entry.Encodable
  /-- No key of the log is empty. -/
  entryKeys : ∀ entry ∈ db.wal.entries, entry.key.asBytes ≠ []
  /-- No key of a live record is empty. -/
  liveKeys : ∀ x ∈ df.live, x.1.asBytes ≠ []

section

variable [Crc] {df₀ df : DataFile} {db₀ db : Database} {f : Flush} {k : Key}

/-- A database whose files can be opened is sound. -/
theorem Recoverable.sound (h : Recoverable df₀ db₀) : Sound df₀ db₀ :=
  ⟨h.file, fun k e hk => (h.index k e hk).extent, h.entries⟩

/-- In a database whose files can be opened the lengths fit. -/
theorem Recoverable.lengths (h : Recoverable df₀ db₀) : DbLengths db₀ := by
  refine ⟨fun k e hk => ?_, fun entry he => (h.entries entry he).1⟩
  obtain ⟨x, -, hat⟩ := h.index k e hk
  exact hat.keyLen_eq

/-- An empty index file makes the scan of the data file the index. -/
theorem initIndex_nil (hkeys : ∀ x ∈ df.live, x.1.asBytes ≠ []) :
    Database.initIndex df.bytes [] = .ok df.index := by
  rw [Database.initIndex, if_neg (not_not.mpr rfl)]
  exact decodeIndexFromFile_bytes hkeys

omit [Crc] in
/-- Any other index file that encodes an index is decoded to it. -/
theorem initIndex_encoded {file bytes : Bytes} {index : HashMap Key IndexEntry}
    (h : Encodes bytes index) (hlen : LengthsMatch index) (hne : bytes ≠ []) :
    Database.initIndex file bytes = .ok index := by
  obtain ⟨order, horder, rfl⟩ := h
  rw [Database.initIndex, if_pos hne]
  exact decodeIndexFile_encodeIndexFile horder hlen

/-- A key in the batch of a flush that runs alone has an entry in the log. -/
theorem Alone.lastEntry_of_net (h : Alone df₀ db₀ df db f) (hw : f.Written k) {entry : WalEntry}
    (hnet : f.net.lookup k = some entry) : lastEntry k db₀.wal.entries = some entry := by
  rwa [h.net (Nat.le_trans (by decide) hw.1), lookup_netOf] at hnet

/-- A flush that runs alone leaves the records of keys without a log entry. -/
theorem Alone.liveOf_eq (h : Alone df₀ db₀ df db f)
    (hk : lastValue k db₀.wal.entries = none) :
    df.liveOf k = df₀.liveOf k := by
  have hnone : lastEntry k db₀.wal.entries = none := by
    rw [← map_value_lastEntry] at hk
    exact Option.map_eq_none_iff.mp hk
  cases h.keys k with
  | untouched _ hlive => exact hlive
  | set field x hw hnet =>
    rw [h.lastEntry_of_net hw hnet] at hnone
    cases hnone
  | deleted hw hnet =>
    rw [h.lastEntry_of_net hw hnet] at hnone
    cases hnone

/-- Replaying the old log over the new file gives what it gave before. -/
theorem Alone.replay_eq (h : Alone df₀ db₀ df db f) :
    replay df.fields db₀.wal.entries = replay df₀.fields db₀.wal.entries := by
  rw [Db.replay_eq, Db.replay_eq]
  refine applyAll_congr fun k hk => ?_
  rw [DataFile.lookup_fields, DataFile.lookup_fields, h.liveOf_eq hk]

omit [Crc] in
/-- What is spared are records. -/
theorem mem_of_mem_spared {entry : Option IndexEntry} {records : List Stored} {x : Stored}
    (h : x ∈ spared entry records) : x ∈ records := by
  cases entry with
  | none => exact h
  | some e => exact List.mem_of_mem_filter h

/-- Each live record is an old one, or it is of a key in the log and was
appended within the range of file offsets. -/
theorem Alone.mem_liveOf (h : Alone df₀ db₀ df db f) {x : Stored} (hx : x ∈ df.liveOf k) :
    x ∈ df₀.liveOf k ∨
      (∃ entry, lastEntry k db₀.wal.entries = some entry) ∧ x.offset ≤ maxFileLen := by
  cases h.keys k with
  | untouched _ hlive => exact .inl (hlive ▸ hx)
  | set field y hw hnet hvalue hlive hindexes hbehind hfits =>
    rw [hlive] at hx
    rcases List.mem_append.mp hx with hx | hx
    · exact .inl hx
    · rw [List.mem_singleton.mp hx]
      exact .inr ⟨⟨_, h.lastEntry_of_net hw hnet⟩, hfits⟩
  | deleted hw hnet hlive =>
    rw [hlive] at hx
    exact .inl (mem_of_mem_spared hx)

/-- No live record has an empty key. -/
theorem Alone.liveKeys (h : Alone df₀ db₀ df db f) (hdb : Recoverable df₀ db₀) :
    ∀ x ∈ df.live, x.1.asBytes ≠ [] := by
  intro x hx
  rcases h.mem_liveOf (mem_itemsOf.mpr hx) with hold | ⟨⟨entry, hentry⟩, -⟩
  · exact hdb.liveKeys _ (mem_itemsOf.mp hold)
  · obtain ⟨hmem, hkey⟩ := mem_of_lastEntry hentry
    rw [← hkey]
    exact hdb.entryKeys entry hmem

/-- What a flush that runs alone has in its files and its memory. -/
theorem alone_of_run {guard : Guard Database Task} {trace : List Task} {c : Pool Database Task}
    (hdb : Recoverable df₀ db₀)
    (hrun : Run Task.stepOk guard ⟨db₀, [.flush .start]⟩ trace c) :
    ∃ df db f, c = ⟨db, [.flush f]⟩ ∧ Alone df₀ db₀ df db f ∧ DbLengths db ∧
      FlushLengths f := by
  obtain ⟨df, db, f, rfl, halone⟩ := alone_of_sound hdb.sound hrun
  have hstart : ∀ t ∈ [Task.flush .start], TaskLengths t := by
    intro t ht
    rw [List.mem_singleton.mp ht]
    exact flushLengths_start
  obtain ⟨hlengths, htasks⟩ := lengths_of_run hrun hdb.lengths hstart
  exact ⟨df, db, f, rfl, halone, hlengths, htasks _ (List.mem_singleton.mpr rfl)⟩

/-- Opening the files of a cut-off flush replays the old log. -/
theorem Alone.open_eq_ok (h : Alone df₀ db₀ df db f) {name : String}
    {index : HashMap Key IndexEntry} (hdb : Recoverable df₀ db₀)
    (hname : (stringBytes name).length ≤ 64) (hcut : f.stage ≠ .done)
    (hindex : Database.initIndex df.bytes db.indexFile = .ok index) :
    Database.open name db.disk =
      .ok ⟨⟨replay df₀.fields db₀.wal.entries, index⟩, db₀.wal, df.bytes,
        db.indexFile⟩ := by
  have hwal : db.wal = db₀.wal := by
    rw [h.wal, if_pos (by revert hcut; cases f.stage <;> simp [Stage.le_iff])]
  have hopen := open_bytes hname hdb.log hindex
  rw [h.replay_eq] at hopen
  rw [← hopen, Database.disk, h.sound.file, hwal]

/-- A flush that runs alone leaves the fields as they were. -/
theorem Alone.fields_eq (h : Alone df₀ db₀ df db f)
    (hfields : replay df₀.fields db₀.wal.entries = db₀.state.fields) :
    db.state.fields = db₀.state.fields := by
  apply Finmap.ext_lookup
  refine h.lookup_fields fun k hdelete => ?_
  rw [← hfields, lookup_replay, hdelete]
  rfl

/-- The index file of a cut-off flush can be read. -/
theorem Alone.exists_initIndex (h : Alone df₀ db₀ df db f) (hdb : Recoverable df₀ db₀)
    (hindexFile : db₀.indexFile = [] ∨ Encodes db₀.indexFile db₀.state.index)
    (hf : FlushLengths f) :
    ∃ index, Database.initIndex df.bytes db.indexFile = .ok index := by
  have hread : ∀ {bytes : Bytes} {index : HashMap Key IndexEntry}, Encodes bytes index →
      LengthsMatch index → ∃ index, Database.initIndex df.bytes bytes = .ok index := by
    intro bytes index hencodes hlen
    by_cases hne : bytes = []
    · rw [hne]
      exact ⟨_, initIndex_nil (h.liveKeys hdb)⟩
    · exact ⟨_, initIndex_encoded hencodes hlen hne⟩
  rw [h.indexFile]
  split
  · rcases hindexFile with hempty | hencodes
    · rw [hempty]
      exact ⟨_, initIndex_nil (h.liveKeys hdb)⟩
    · exact hread hencodes hdb.lengths.index
  · rename_i hstage
    split
    · exact ⟨_, initIndex_nil (h.liveKeys hdb)⟩
    · obtain ⟨hlen, order, horder, hencoded⟩ :=
        hf.copied (Nat.lt_trans (by decide) (Stage.not_le.mp hstage))
      exact hread ⟨order, horder, hencoded⟩ hlen

/-- A flush that runs alone is cut off before it truncates the log. Then
opening the files succeeds and gives the fields of before. -/
theorem open_after_crash {name : String} {trace : List Task} {c : Pool Database Task}
    (hname : (stringBytes name).length ≤ 64) (hdb : Recoverable df₀ db₀)
    (hfields : replay df₀.fields db₀.wal.entries = db₀.state.fields)
    (hindexFile : db₀.indexFile = [] ∨ Encodes db₀.indexFile db₀.state.index)
    (hrun : Run Task.stepOk anyStep ⟨db₀, [.flush .start]⟩ trace c)
    (hcut : ∀ t ∈ c.tasks, ¬ t.Returned) :
    ∃ db, Database.open name c.shared.disk = .ok db ∧
      db.state.fields = c.shared.state.fields ∧
      db.state.fields = db₀.state.fields := by
  obtain ⟨df, db, f, rfl, halone, -, hf⟩ := alone_of_run hdb hrun
  obtain ⟨index, hindex⟩ := halone.exists_initIndex hdb hindexFile hf
  refine ⟨_, halone.open_eq_ok hdb hname (hcut _ (List.mem_singleton.mpr rfl)) hindex, ?_, hfields⟩
  exact hfields.trans (halone.fields_eq hfields).symm

/-- The next section of the task appends a record to the data file. -/
def appendsRecord : Task → Bool
  | .flush f =>
    match f.stage, f.todo with
    | .batch, .set _ _ :: _ => true
    | _, _ => false
  | _ => false

/-- The next section of the task truncates the index file. -/
def truncatesIndex : Task → Bool
  | .flush f => f.stage = .truncIndex
  | _ => false

/-- The flush holds an index entry for each record that it has appended. -/
theorem Moves.indexes_eq_nil_iff {db' : Database} {g : Flush}
    (h : Moves db (.flush f) db' (.flush g)) :
    g.indexes = [] ↔ f.indexes = [] ∧ appendsRecord (.flush f) = false := by
  cases h with
  | appendItem f key field todo hstage htodo hfits => simp [appendsRecord, hstage, htodo]
  | _ => simp_all [appendsRecord]

/-- Only the truncation of the index file passes its own stage. -/
theorem Moves.truncIndex_lt_iff {db' : Database} {g : Flush}
    (h : Moves db (.flush f) db' (.flush g)) :
    .truncIndex < g.stage ↔ .truncIndex < f.stage ∨ truncatesIndex (.flush f) = true := by
  cases h <;> simp_all [truncatesIndex, Stage.lt_iff]

/-- How far a flush has come is what it has done. -/
theorem progress_of_run {guard : Guard Database Task} {trace : List Task} {db₀ db : Database}
    {f : Flush} (hrun : Run Task.stepOk guard ⟨db₀, [.flush .start]⟩ trace
      ⟨db, [.flush f]⟩) :
    (f.indexes = [] ↔ ∀ t ∈ trace, appendsRecord t = false) ∧
      (.truncIndex < f.stage ↔ ∃ t ∈ trace, truncatesIndex t = true) := by
  have hsolo := hrun.solo
    (P := fun trace _ t => ∃ f, t = .flush f ∧ (f.indexes = [] ↔
      ∀ t ∈ trace, appendsRecord t = false) ∧
      (.truncIndex < f.stage ↔ ∃ t ∈ trace, truncatesIndex t = true))
    ?_ ⟨.start, rfl, by simp [Flush.start], by simp [Flush.start, Stage.lt_iff]⟩
  · obtain ⟨_, _, heq, f', rfl, h⟩ := hsolo
    cases heq
    exact h
  · rintro trace choice db t db' t' hexec ⟨f, rfl, hindexes, htrunc⟩
    have hmove := moves_of_stepOk hexec
    obtain ⟨g, rfl⟩ := hmove.isFlush
    refine ⟨g, rfl, ?_, ?_⟩
    · rw [hmove.indexes_eq_nil_iff, hindexes]
      simp [or_imp, forall_and]
    · rw [hmove.truncIndex_lt_iff, htrunc]
      simp [or_and_right, exists_or]

/-- The data file has one live record for each key at most, and the index
knows it. -/
structure Indexed (df : DataFile) (db : Database) : Prop where
  /-- No key has two live records. -/
  single : ∀ k, (df.liveOf k).length ≤ 1
  /-- The index knows all live records. -/
  covered : df.Covered db.state.index

omit [Crc] in
/-- No record is spared of a key that the index covers and that has only one. -/
theorem spared_eq_nil {index : HashMap Key IndexEntry} (hcovered : df₀.Covered index)
    (hsingle : (df₀.liveOf k).length ≤ 1) : spared (index.lookup k) (df₀.liveOf k) = [] := by
  have hcovered := hcovered k
  cases hlive : df₀.liveOf k with
  | nil => cases index.lookup k <;> rfl
  | cons x rest =>
    rw [hlive, List.length_cons] at hsingle
    obtain rfl : rest = [] := List.length_eq_zero_iff.mp (by omega)
    obtain ⟨e, hlookup, hat⟩ := hcovered x (by rw [hlive]; rfl)
    rw [hlookup]
    simp [spared, hat.offset_eq]

/-- All offsets of live records can be represented. -/
theorem Alone.offset_lt (h : Alone df₀ db₀ df db f) (hdb : Indexed df₀ db₀) {x : Stored}
    (hx : x ∈ df.liveOf k) : x.offset < 2 ^ 64 := by
  rcases h.mem_liveOf hx with hold | ⟨-, hfits⟩
  · have hlast : (df₀.liveOf k).getLast? = some x := by
      have hsingle := hdb.single k
      cases hlive : df₀.liveOf k with
      | nil =>
        rw [hlive] at hold
        cases hold
      | cons y rest =>
        rw [hlive, List.length_cons] at hsingle
        obtain rfl : rest = [] := List.length_eq_zero_iff.mp (by omega)
        rw [hlive, List.mem_singleton] at hold
        rw [hold]
        rfl
    obtain ⟨e, -, hat⟩ := hdb.covered k x hlast
    rw [← hat.offset_eq]
    exact e.offset.toNat_lt
  · exact Nat.lt_of_le_of_lt hfits (by decide)

/-- The old index covers the new file exactly when nothing has been appended. -/
theorem Alone.covered_old_iff (h : Alone df₀ db₀ df db f) (hdb : Recoverable df₀ db₀)
    (hindexed : Indexed df₀ db₀) : df.Covered db₀.state.index ↔ f.indexes = [] := by
  constructor
  · intro hcovered
    by_contra hne
    obtain ⟨⟨k, e⟩, hmem⟩ := List.exists_mem_of_ne_nil _ hne
    have hlast : lastOf k f.indexes ≠ none := fun hnone => lastOf_eq_none_iff.mp hnone _ hmem rfl
    cases h.keys k with
    | untouched _ _ hindexes => exact hlast hindexes
    | deleted _ _ _ hindexes => exact hlast hindexes
    | set field x hw hnet hvalue hlive hindexes hbehind hfits =>
      obtain ⟨e, hlookup, hat⟩ := hcovered k x (by rw [hlive, List.getLast?_concat])
      obtain ⟨y, hy, hat'⟩ := hdb.index k e hlookup
      have hinside := (DataFile.bounds_of_mem_liveOf hy).1
      rw [← hat'.offset_eq, hat.offset_eq] at hinside
      omega
  · intro hnil k x hx
    cases h.keys k with
    | untouched _ hlive => exact hindexed.covered k x (hlive ▸ hx)
    | set field y hw hnet hvalue hlive hindexes =>
      rw [hnil] at hindexes
      cases hindexes
    | deleted hw hnet hlive =>
      rw [hlive, spared_eq_nil hindexed.covered (hindexed.single k)] at hx
      cases hx

omit [Crc] in
/-- The index of a flushed file covers it when the deleted keys had one live
record at most. -/
theorem covered_of_flushedAt {index : HashMap Key IndexEntry}
    (hcovered : df₀.Covered db₀.state.index)
    (hsingle : ∀ k, lastValue k db₀.wal.entries = some none → (df₀.liveOf k).length ≤ 1)
    (h : ∀ k, FlushedAt df₀ db₀ df index k) : df.Covered index := by
  intro k x hx
  cases h k with
  | kept hlast hlive hindex =>
    rw [hlive] at hx
    rw [hindex]
    exact hcovered k x hx
  | set field y hlast hvalue hlive hindex hfits =>
    have hmem : y ∈ df.liveOf k := by
      rw [hlive]
      simp
    rw [hlive, List.getLast?_concat] at hx
    cases hx
    exact ⟨_, hindex, DataFile.isAt_entry hmem (Nat.lt_of_le_of_lt hfits (by decide))⟩
  | deleted hlast hlive =>
    have hdelete : lastValue k db₀.wal.entries = some none := by
      rw [← map_value_lastEntry, hlast]
      rfl
    rw [hlive, spared_eq_nil hcovered (hsingle k hdelete)] at hx
    cases hx

/-- Opening the files of a cut-off flush gives an index that covers the data
file exactly when the flush has not appended a record yet or has truncated the
index file, or the index file was empty. -/
theorem Alone.covered_open_iff (h : Alone df₀ db₀ df db f) (hdb : Recoverable df₀ db₀)
    (hindexed : Indexed df₀ db₀) (hindexFile : Encodes db₀.indexFile db₀.state.index)
    (hlengths : DbLengths db) {index : HashMap Key IndexEntry}
    (hindex : Database.initIndex df.bytes db.indexFile = .ok index) :
    df.Covered index ↔ db₀.indexFile = [] ∨ f.indexes = [] ∨ .truncIndex < f.stage := by
  have hscan : df.Covered df.index := DataFile.covered_index fun x hx =>
    h.offset_lt hindexed (mem_itemsOf.mpr (show (x.1, x.2) ∈ df.live from hx))
  have hnil : db.indexFile = [] → df.Covered index := by
    intro hempty
    rw [hempty, initIndex_nil (h.liveKeys hdb)] at hindex
    cases hindex
    exact hscan
  have hfile := h.indexFile
  by_cases hstage : f.stage ≤ .truncIndex
  · rw [if_pos hstage] at hfile
    by_cases hempty : db₀.indexFile = []
    · exact iff_of_true (hnil (hfile.trans hempty)) (.inl hempty)
    · rw [hfile, initIndex_encoded hindexFile hdb.lengths.index hempty] at hindex
      cases hindex
      rw [h.covered_old_iff hdb hindexed]
      simp only [hempty, false_or, iff_self_or]
      exact fun hlt => absurd hstage (Stage.not_le.mpr hlt)
  · have hlt := Stage.not_le.mp hstage
    refine iff_of_true ?_ (.inr (.inr hlt))
    rw [if_neg hstage] at hfile
    by_cases hwrite : f.stage = .writeIndex
    · exact hnil (by rw [hfile, if_pos hwrite])
    · rw [if_neg hwrite] at hfile
      by_cases hempty : db.indexFile = []
      · exact hnil hempty
      · obtain ⟨hcopy, order, horder, hencoded⟩ := h.copied (Nat.lt_trans (by decide) hlt)
        rw [hfile] at hindex hempty
        rw [initIndex_encoded ⟨order, horder, hencoded⟩ (hcopy ▸ hlengths.index) hempty]
          at hindex
        cases hindex
        rw [hcopy]
        exact covered_of_flushedAt hindexed.covered (fun k _ => hindexed.single k)
          (h.flushedAt (Nat.lt_trans (by decide) hlt))

/-- A flush that runs alone is cut off before it truncates the log. Opening
the files gives an index with the extent of the last live record of every key
exactly when the index file was empty before, or no record has been appended
to the data file yet, or the index file has been truncated. -/
theorem recovered_index_covers_iff {name : String} {trace : List Task} {c : Pool Database Task}
    (hname : (stringBytes name).length ≤ 64) (hdb : Recoverable df₀ db₀)
    (hindexed : Indexed df₀ db₀) (hindexFile : Encodes db₀.indexFile db₀.state.index)
    (hrun : Run Task.stepOk anyStep ⟨db₀, [.flush .start]⟩ trace c)
    (hcut : ∀ t ∈ c.tasks, ¬ t.Returned) (hfile : c.shared.file = df.bytes) :
    (∃ db, Database.open name c.shared.disk = .ok db ∧ df.Covered db.state.index) ↔
      db₀.indexFile = [] ∨ (∀ t ∈ trace, appendsRecord t = false) ∨
        ∃ t ∈ trace, truncatesIndex t = true := by
  obtain ⟨df', db, f, rfl, halone, hlengths, hf⟩ := alone_of_run hdb hrun
  obtain ⟨index, hindex⟩ := halone.exists_initIndex hdb (.inr hindexFile) hf
  have hopen := halone.open_eq_ok hdb hname (hcut _ (List.mem_singleton.mpr rfl)) hindex
  have hrecords := DataFile.records_eq_of_bytes_eq (hfile.symm.trans halone.sound.file)
  have hcovered : df.Covered index ↔ df'.Covered index := by
    simp only [DataFile.Covered, DataFile.liveOf, DataFile.live, DataFile.slots, hrecords]
  obtain ⟨happends, htruncates⟩ := progress_of_run hrun
  rw [← happends, ← htruncates,
    ← halone.covered_open_iff hdb hindexed hindexFile hlengths hindex, ← hcovered, hopen]
  simp

end

open scoped IsoHdlc

/-- A data file with one live record. -/
def oneRecord : DataFile :=
  ((emptyFile "db").append (.ofPair (.ofText "k") (.primitive (.integer 1)) (by decide)
    (by decide))).setCount 1

/-- A key has been set and flushed, and then set again. -/
def setAgain : Database where
  state := ⟨replay oneRecord.fields [.set (.ofText "k") (.primitive (.integer 2))],
    oneRecord.index⟩
  wal := ⟨walBytes (.set (.ofText "k") (.primitive (.integer 2))),
    [.set (.ofText "k") (.primitive (.integer 2))]⟩
  file := oneRecord.bytes
  indexFile := entryBytes (.ofText "k", ⟨114, 1, 9⟩)

/-- The files of the example can be opened. -/
theorem recoverable_setAgain : Recoverable oneRecord setAgain where
  file := rfl
  log := by decide +kernel
  index _ _ := DataFile.liveExtent_of_index (by decide +kernel)
  entries := by decide +kernel
  entryKeys := by decide +kernel
  liveKeys := by decide +kernel

/-- The index of the example covers its record. -/
theorem indexed_setAgain : Indexed oneRecord setAgain where
  single _ := (List.length_filterMap_le _ _).trans (by decide +kernel)
  covered := DataFile.covered_index (by decide +kernel)

/-- The index file of the example encodes its index. -/
theorem encodes_setAgain : Encodes setAgain.indexFile setAgain.state.index :=
  ⟨[(.ofText "k", ⟨114, 1, 9⟩)], by decide +kernel, by decide +kernel⟩

/-- A flush begins and dies when it has appended the new record. -/
def dieAfterAppend : List (ℕ × Choice) :=
  takeBatch 0 [(.ofText "k", .set (.ofText "k") (.primitive (.integer 2)))] ++ sections 0 1

/-- The flush of the example gets behind its append. -/
theorem setAgain_dieAfterAppend_runs :
    (drive Task.stepOk anyStep dieAfterAppend ⟨setAgain, [.flush .start]⟩).isSome := by
  decide +kernel

/-- The fields are as before when the files are opened then. -/
theorem open_after_crash_setAgain :
    let c := ((drive Task.stepOk anyStep dieAfterAppend ⟨setAgain, [.flush .start]⟩).get
      setAgain_dieAfterAppend_runs).2
    ∃ db, Database.open "db" c.shared.disk = .ok db ∧
      db.state.fields = c.shared.state.fields ∧
      db.state.fields = setAgain.state.fields :=
  open_after_crash (by decide) recoverable_setAgain rfl (.inr encodes_setAgain)
    (run_get_drive setAgain_dieAfterAppend_runs) (by decide +kernel)

/-- The data file with the new record behind the old one. -/
def twoRecords : DataFile :=
  oneRecord.append (.ofPair (.ofText "k") (.primitive (.integer 2)) (by decide) (by decide))

/-- The files of a cut-off flush, by whether it is covered by the index that
they are opened with. -/
theorem recovered_index_covers_iff_setAgain :
    let out := (drive Task.stepOk anyStep dieAfterAppend ⟨setAgain, [.flush .start]⟩).get
      setAgain_dieAfterAppend_runs
    (∃ db, Database.open "db" out.2.shared.disk = .ok db ∧
      twoRecords.Covered db.state.index) ↔
      setAgain.indexFile = [] ∨ (∀ t ∈ out.1, appendsRecord t = false) ∨
        ∃ t ∈ out.1, truncatesIndex t = true :=
  recovered_index_covers_iff (by decide) recoverable_setAgain indexed_setAgain encodes_setAgain
    (run_get_drive setAgain_dieAfterAppend_runs) (by decide +kernel) (by decide +kernel)

/-- The index that the files are opened with there still has the old record,
and a delete would leave the new one alive. -/
theorem recovered_index_misses_append :
    let out := (drive Task.stepOk anyStep dieAfterAppend ⟨setAgain, [.flush .start]⟩).get
      setAgain_dieAfterAppend_runs
    Recoverable oneRecord setAgain ∧ Indexed oneRecord setAgain ∧
      Encodes setAgain.indexFile setAgain.state.index ∧
      Run Task.stepOk anyStep ⟨setAgain, [.flush .start]⟩ out.1 out.2 ∧
      (∀ t ∈ out.2.tasks, ¬ t.Returned) ∧ out.2.shared.file = twoRecords.bytes ∧
      (twoRecords.liveOf (.ofText "k")).getLast? = some ⟨138, 9, .primitive (.integer 2)⟩ ∧
      ∃ db, Database.open "db" out.2.shared.disk = .ok db ∧
        db.state.index.lookup (.ofText "k") = some ⟨114, 1, 9⟩ ∧
        ¬ twoRecords.Covered db.state.index := by
  refine ⟨recoverable_setAgain, indexed_setAgain, encodes_setAgain,
    run_get_drive setAgain_dieAfterAppend_runs, by decide +kernel, by decide +kernel, by
      decide +kernel, ?_⟩
  refine ⟨⟨setAgain.state, setAgain.wal, twoRecords.bytes, setAgain.indexFile⟩, by decide +kernel,
    by decide +kernel, fun hcovered => ?_⟩
  obtain ⟨e, hlookup, hat⟩ := hcovered (.ofText "k") ⟨138, 9, .primitive (.integer 2)⟩
    (by decide +kernel)
  have hold : setAgain.state.index.lookup (.ofText "k") = some ⟨114, 1, 9⟩ := by decide +kernel
  rw [show setAgain.state.index.lookup (.ofText "k") = some e from hlookup] at hold
  cases hold
  exact absurd hat.offset_eq (by decide)

end Db

end PeachDB
