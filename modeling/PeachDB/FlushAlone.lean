import PeachDB.DataFileSteps

/-!
# A flush that runs alone

All that a flush has done at each of its stages, as a function of the state it
started from: the records of a key change when the item of the key is written,
the index and the fields with the state update, the index file with its
truncation and its rewrite, the log with the checkpoint.
-/

namespace PeachDB.Db

open Dtypes RecordCodec IndexCodec FileHandler WriteAheadLog Interleaving

/-- The items of the key have been written, if its batch has any. -/
def Flush.Written (f : Flush) (k : Key) : Prop :=
  .batch ≤ f.stage ∧ ∀ entry ∈ f.todo, entry.key ≠ k

/-- The live records of a key that a tombstone for its index entry leaves. -/
def spared (entry : Option IndexEntry) (records : List Stored) : List Stored :=
  match entry with
  | some e => records.filter fun x => x.offset ≠ e.offset.toNat
  | none => records

/-- What a flush has done to the records of a key. -/
inductive KeyAt (df₀ : DataFile) (db₀ : Database) (df : DataFile) (f : Flush) (k : Key) : Prop
  /-- The key is not in the batch, or its item is still to be written. -/
  | untouched (hnet : f.Written k → f.net.lookup k = none) (hlive : df.liveOf k = df₀.liveOf k)
      (hindexes : lastOf k f.indexes = none)
  /-- A record has been appended behind those of the old file. -/
  | set (field : Field) (x : Stored) (hwritten : f.Written k)
      (hnet : f.net.lookup k = some (.set k field)) (hvalue : x.value = field)
      (hlive : df.liveOf k = df₀.liveOf k ++ [x])
      (hindexes : lastOf k f.indexes = some (x.entry k))
      (hbehind : 114 + totalSize df₀.records ≤ x.offset) (hfits : x.offset ≤ maxFileLen)
  /-- The record that the index knew has been made a tombstone. -/
  | deleted (hwritten : f.Written k) (hnet : f.net.lookup k = some (.delete k))
      (hlive : df.liveOf k = spared (db₀.state.index.lookup k) (df₀.liveOf k))
      (hindexes : lastOf k f.indexes = none)

/-- The copy that a flush makes of the index, once it has made it. -/
def Flush.Copied (f : Flush) (db : Database) : Prop :=
  f.index = db.state.index ∧
    ∃ order, IterOrder f.index order ∧
    f.encoded = (IndexEncoder.new.encodeIndexFile order).finish

/-- The state of a database whose only task is a flush that began on `db₀`. -/
structure Alone [Crc] (df₀ : DataFile) (db₀ : Database) (df : DataFile) (db : Database)
    (f : Flush) :
    Prop where
  /-- The data file is whole. -/
  sound : Sound df db
  /-- What the flush holds is sound. -/
  flush : FlushSound df f
  /-- It has taken the log of before. -/
  net : .plan ≤ f.stage → f.net = netOf db₀.wal.entries
  /-- Its plan is the one of the index of before. -/
  plan : .batch ≤ f.stage → f.deletePlan = deletePlanOf f.net db₀.state.index
  /-- How far each key has been flushed. -/
  keys : ∀ k, KeyAt df₀ db₀ df f k
  /-- The data file has not become shorter. -/
  grows : totalSize df₀.records ≤ totalSize df.records
  /-- Up to its update the state is the one of before. -/
  unpublished : f.stage ≤ .publish → db.state = db₀.state
  /-- Then it is the one of the update. -/
  published : .publish < f.stage → db.state = publish db₀.state f.indexes f.deletePlan
  /-- The copy of the index is the index. -/
  copied : .cloneIndex < f.stage → f.Copied db
  /-- The index file of before, none, or the copy. -/
  indexFile : db.indexFile =
    if f.stage ≤ .truncIndex then db₀.indexFile else if f.stage = .writeIndex then []
    else f.encoded
  /-- The log stays until the checkpoint. -/
  wal : db.wal = if f.stage ≤ .checkpoint then db₀.wal else ⟨[], []⟩

section

variable [Crc] {df₀ df : DataFile} {db₀ db db' : Database} {f g : Flush} {k : Key}

omit [Crc] in
/-- A section that does not write the item of a key keeps what was done to it. -/
theorem KeyAt.same {df' : DataFile} (h : KeyAt df₀ db₀ df f k)
    (hwritten : g.Written k ↔ f.Written k) (hnet : g.net = f.net)
    (hindexes : lastOf k g.indexes = lastOf k f.indexes) (hsame : df'.liveOf k = df.liveOf k) :
    KeyAt df₀ db₀ df' g k := by
  cases h with
  | untouched h hlive hidx =>
    exact .untouched (fun hw => hnet ▸ h (hwritten.mp hw)) (hsame.trans hlive)
      (hindexes.trans hidx)
  | set field x hw hset hvalue hlive hidx hbehind hfits =>
    exact .set field x (hwritten.mpr hw) (hnet ▸ hset) hvalue (hsame.trans hlive)
      (hindexes.trans hidx) hbehind hfits
  | deleted hw hdelete hlive hidx =>
    exact .deleted (hwritten.mpr hw) (hnet ▸ hdelete) (hsame.trans hlive) (hindexes.trans hidx)

omit [Crc] in
/-- Before its item is written, the records of a key are the old ones. -/
theorem KeyAt.of_todo {entry : WalEntry} {todo : List WalEntry}
    (h : KeyAt df₀ db₀ df f entry.key) (htodo : f.todo = entry :: todo) :
    df.liveOf entry.key = df₀.liveOf entry.key ∧ lastOf entry.key f.indexes = none := by
  have hnot : ¬ f.Written entry.key := fun hw => hw.2 entry (by simp [htodo]) rfl
  cases h with
  | untouched _ hlive hidx => exact ⟨hlive, hidx⟩
  | set _ _ hw => exact absurd hw hnot
  | deleted hw => exact absurd hw hnot

omit [Crc] in
/-- Before the batch nothing has been done to the records of any key. -/
theorem KeyAt.of_before (h : KeyAt df₀ db₀ df f k) (hstage : f.stage < .batch) :
    df.liveOf k = df₀.liveOf k ∧ lastOf k f.indexes = none := by
  have hnot : ¬ f.Written k := fun hw => absurd hw.1 (Nat.not_le.mpr hstage)
  cases h with
  | untouched _ hlive hidx => exact ⟨hlive, hidx⟩
  | set _ _ hw => exact absurd hw hnot
  | deleted hw => exact absurd hw hnot

/-- A flush that begins on a sound database. -/
theorem alone_start (hdb : Sound df₀ db₀) : Alone df₀ db₀ df₀ db₀ .start where
  sound := hdb
  flush := flushSound_start df₀
  net h := absurd h (by decide)
  plan h := absurd h (by decide)
  keys _ := .untouched (fun hw => absurd hw.1 (by decide)) rfl rfl
  grows := Nat.le_refl _
  unpublished _ := rfl
  published h := absurd h (by decide)
  copied h := absurd h (by decide)
  indexFile := rfl
  wal := rfl

/-- The item that is written next decides what has been done to its key. -/
theorem Alone.item {df' : DataFile} {entry : WalEntry} {todo : List WalEntry}
    {indexes : List (Key × IndexEntry)} (h : Alone df₀ db₀ df db f) (hstage : f.stage = .batch)
    (htodo : f.todo = entry :: todo) (hdb : Sound df' db')
    (hflush : FlushSound df' { f with todo, indexes })
    (hgrows : totalSize df.records ≤ totalSize df'.records)
    (hsame : db'.state = db.state ∧ db'.indexFile = db.indexFile ∧ db'.wal = db.wal)
    (hother : ∀ k, entry.key ≠ k →
      df'.liveOf k = df.liveOf k ∧ lastOf k indexes = lastOf k f.indexes)
    (hown : ({ f with todo, indexes } : Flush).Written entry.key →
      f.net.lookup entry.key = some entry →
      KeyAt df₀ db₀ df' { f with todo, indexes } entry.key) :
    Alone df₀ db₀ df' db' { f with todo, indexes } := by
  obtain ⟨hstate, hindexFile, hwal⟩ := hsame
  have hne := (h.flush.key_ne htodo).1
  have hbatch : ∀ s, Stage.batch < s → ¬ s ≤ f.stage := by
    intro s hs
    rw [hstage]
    exact Nat.not_le.mpr hs
  refine ⟨hdb, hflush, h.net, h.plan, fun k => ?_, h.grows.trans hgrows,
    fun hpublish => hstate.trans (h.unpublished hpublish), fun hpublish => ?_, fun hcopied => ?_,
    hindexFile.trans h.indexFile, hwal.trans h.wal⟩
  · by_cases hk : entry.key = k
    · subst hk
      exact hown ⟨(show Stage.batch ≤ f.stage by rw [hstage]; decide), hne⟩
        (h.flush.todo entry (htodo ▸ List.mem_cons_self))
    · obtain ⟨hlive, hindexes⟩ := hother k hk
      refine (h.keys k).same ?_ rfl hindexes hlive
      simp only [Flush.Written, htodo, List.mem_cons, forall_eq_or_imp, ne_eq, hk,
        not_false_eq_true, true_and]
  · exact absurd (Nat.le_of_lt hpublish) (hbatch _ (by decide))
  · exact absurd (Nat.le_of_lt hcopied) (hbatch _ (by decide))

/-- A section behind the batch keeps what the batch has done. -/
theorem Alone.later {df' : DataFile} (h : Alone df₀ db₀ df db f) (hstage : .batch ≤ f.stage)
    (hstage' : .batch ≤ g.stage)
    (hsame : g.net = f.net ∧ g.deletePlan = f.deletePlan ∧ g.todo = f.todo ∧
      g.indexes = f.indexes)
    (hdb : Sound df' db') (hflush : FlushSound df' g) (hlive : ∀ k, df'.liveOf k = df.liveOf k)
    (hgrows : totalSize df'.records = totalSize df.records)
    (hunpublished : g.stage ≤ .publish → db'.state = db₀.state)
    (hpublished : .publish < g.stage → db'.state = publish db₀.state f.indexes f.deletePlan)
    (hcopied : .cloneIndex < g.stage → g.Copied db')
    (hindexFile : db'.indexFile =
      if g.stage ≤ .truncIndex then db₀.indexFile else if g.stage = .writeIndex then []
        else g.encoded)
    (hwal : db'.wal = if g.stage ≤ .checkpoint then db₀.wal else ⟨[], []⟩) :
    Alone df₀ db₀ df' db' g := by
  obtain ⟨hnet, hplan, htodo', hindexes⟩ := hsame
  refine ⟨hdb, hflush, fun _ => ?_, fun _ => ?_, fun k => ?_, ?_, hunpublished, fun hstage => ?_,
    hcopied, hindexFile, hwal⟩
  · rw [hnet, h.net (Nat.le_trans (by decide) hstage)]
  · rw [hplan, hnet, h.plan hstage]
  · refine (h.keys k).same ?_ hnet (by rw [hindexes]) (hlive k)
    simp only [Flush.Written, hstage, hstage', htodo', true_and]
  · rw [hgrows]
    exact h.grows
  · rw [hindexes, hplan]
    exact hpublished hstage

/-- A section behind the publication keeps the published state. -/
theorem Alone.behind {df' : DataFile} (h : Alone df₀ db₀ df db f) (hstage : .publish < f.stage)
    (hstage' : .publish < g.stage)
    (hsame : g.net = f.net ∧ g.deletePlan = f.deletePlan ∧ g.todo = f.todo ∧
      g.indexes = f.indexes)
    (hdb : Sound df' db') (hflush : FlushSound df' g) (hlive : ∀ k, df'.liveOf k = df.liveOf k)
    (hgrows : totalSize df'.records = totalSize df.records) (hstate : db'.state = db.state)
    (hcopied : .cloneIndex < g.stage → g.Copied db')
    (hindexFile : db'.indexFile =
      if g.stage ≤ .truncIndex then db₀.indexFile else if g.stage = .writeIndex then []
        else g.encoded)
    (hwal : db'.wal = if g.stage ≤ .checkpoint then db₀.wal else ⟨[], []⟩) :
    Alone df₀ db₀ df' db' g := by
  have hbatch : ∀ {s : Stage}, .publish < s → .batch ≤ s :=
    fun hs => Nat.le_trans (by decide) (Nat.le_of_lt hs)
  refine h.later (hbatch hstage) (hbatch hstage') hsame hdb hflush hlive hgrows
    (fun hle => absurd hle (Nat.not_le.mpr hstage')) (fun _ => ?_) hcopied hindexFile hwal
  rw [hstate, h.published hstage]

/-- The index file is the old one until it is truncated. -/
theorem Alone.indexFile_old (h : Alone df₀ db₀ df db f) (hstage : f.stage ≤ .truncIndex) :
    db.indexFile = db₀.indexFile := by
  rw [h.indexFile, if_pos hstage]

/-- When it has been written, it is the copy of the flush. -/
theorem Alone.indexFile_new (h : Alone df₀ db₀ df db f) (hstage : .writeIndex < f.stage) :
    db.indexFile = f.encoded := by
  have hne : f.stage ≠ .writeIndex := fun heq => absurd hstage (by rw [heq]; decide)
  have hlt : Stage.truncIndex < f.stage := Nat.lt_trans (by decide) hstage
  rw [h.indexFile, if_neg (Stage.not_le.mpr hlt), if_neg hne]

/-- The log is the old one until the checkpoint. -/
theorem Alone.wal_old (h : Alone df₀ db₀ df db f) (hstage : f.stage ≤ .checkpoint) :
    db.wal = db₀.wal := by
  rw [h.wal, if_pos hstage]

/-- The log has been taken. -/
theorem Alone.pop (h : Alone df₀ db₀ df db f) (hstage : f.stage = .pop) :
    Alone df₀ db₀ (df.after (.flush f)) db
      { f with stage := .plan, net := netOf db.wal.entries } := by
  obtain ⟨hdb', ht'⟩ := (Moves.pop db f hstage).sound h.sound h.flush
  rw [DataFile.after_of_stage (by simp [hstage]) (by simp [hstage])] at hdb' ht' ⊢
  obtain rfl := h.flush.start hstage
  refine ⟨hdb', ht', fun _ => ?_, fun hbatch => absurd hbatch (by simp [Stage.le_iff]),
    fun k => ?_, h.grows, fun _ => h.unpublished (by decide),
    fun hpublish => absurd hpublish (by simp [Stage.lt_iff]),
    fun hcopied => absurd hcopied (by simp [Stage.lt_iff]), h.indexFile, h.wal⟩
  · rw [h.wal_old (by decide)]
  · obtain ⟨hlive, hindexes⟩ := (h.keys k).of_before (by decide)
    refine .untouched (fun hw => ?_) hlive hindexes
    have hbatch : Stage.batch ≤ .plan := hw.1
    exact absurd hbatch (by decide)

/-- The delete plan has been made, and every key of the batch is still to be
written. -/
theorem Alone.planned (h : Alone df₀ db₀ df db f) {batch : List (Key × WalEntry)}
    (hstage : f.stage = .plan) (hbatch : IterOrder f.net batch) :
    Alone df₀ db₀ (df.after (.flush f)) db
      { f with
        stage := .batch
        deletePlan := deletePlanOf f.net db.state.index
        todo := batch.map Prod.snd } := by
  obtain ⟨hdb', ht'⟩ := (Moves.plan db f batch hstage hbatch).sound h.sound h.flush
  rw [DataFile.after_of_stage (by simp [hstage]) (by simp [hstage])] at hdb' ht' ⊢
  have hold := h.unpublished (by simp [hstage, Stage.le_iff])
  refine ⟨hdb', ht', fun _ => h.net (by simp [hstage, Stage.le_iff]), fun _ => ?_,
    fun k => ?_, h.grows, fun _ => hold, fun hpublish => absurd hpublish (by simp [Stage.lt_iff]),
    fun hcopied => absurd hcopied (by simp [Stage.lt_iff]),
    h.indexFile_old (by simp [hstage, Stage.le_iff]), h.wal_old (by simp [hstage, Stage.le_iff])⟩
  · rw [hold]
  · obtain ⟨hlive, hindexes⟩ := (h.keys k).of_before (by simp [hstage, Stage.lt_iff])
    refine .untouched (fun hw => ?_) hlive hindexes
    cases hk : f.net.lookup k with
    | none => rfl
    | some entry =>
      have hmem := hbatch.mem_iff.mpr hk
      exact absurd (h.flush.net k entry hk).1 (hw.2 entry (List.mem_map_of_mem hmem))

/-- A record has been appended. -/
theorem Alone.appendItem (h : Alone df₀ db₀ df db f) {key : Key} {field : Field}
    {todo : List WalEntry} (hstage : f.stage = .batch) (htodo : f.todo = .set key field :: todo)
    (hfits : db.file.length ≤ maxFileLen) :
    Alone df₀ db₀ (df.after (.flush f)) { db with file := db.file ++ encode key field }
      { f with todo, indexes := f.indexes ++ [(key, entryAt db.file.length key field)] } := by
  obtain ⟨hdb', ht'⟩ :=
    (Moves.appendItem db f key field todo hstage htodo hfits).sound h.sound h.flush
  have henc := h.flush.encodable htodo
  have hkey : key.Encodable := henc.1
  have hfield : field.Encodable := henc.2 field rfl
  rw [DataFile.after_set hstage htodo hkey hfield] at hdb' ht' ⊢
  have hlength : df.bytes.length = 114 + totalSize df.records := df.length_bytes
  refine h.item hstage htodo hdb' ht' ?_ ⟨rfl, rfl, rfl⟩ (fun k hk => ⟨?_, ?_⟩)
    fun hw hnet => ?_
  · simp only [DataFile.append, totalSize, List.map_append, List.sum_append]
    exact Nat.le_add_right _ _
  · rw [DataFile.liveOf_append]
    exact if_neg hk
  · rw [lastOf_concat]
    exact if_neg fun heq => hk heq.symm
  · obtain ⟨hlive, -⟩ := (h.keys key).of_todo htodo
    have hfile := h.sound.file
    refine .set field ⟨df.bytes.length, (bytesFromField field).length, field⟩ hw hnet rfl ?_ ?_
      ?_ ?_
    · change _ = df₀.liveOf key ++ _
      change df.liveOf key = df₀.liveOf key at hlive
      rw [← hlive]
      exact (DataFile.liveOf_append ..).trans (if_pos rfl)
    · rw [entryAt, hfile]
      exact (lastOf_concat ..).trans (if_pos rfl)
    · have := h.grows
      dsimp only
      omega
    · rwa [hfile] at hfits

/-- A delete of a key that the index does not know has been passed over. -/
theorem Alone.skipItem (h : Alone df₀ db₀ df db f) {key : Key} {todo : List WalEntry}
    (hstage : f.stage = .batch) (htodo : f.todo = .delete key :: todo)
    (hplan : f.deletePlan.lookup key = none) :
    Alone df₀ db₀ (df.after (.flush f)) db { f with todo } := by
  obtain ⟨hdb', ht'⟩ := (Moves.skipItem db f key todo hstage htodo hplan).sound h.sound h.flush
  rw [DataFile.after_skip hstage htodo hplan] at hdb' ht' ⊢
  refine h.item hstage htodo hdb' ht' (Nat.le_refl _) ⟨rfl, rfl, rfl⟩
    (fun k hk => ⟨rfl, rfl⟩)
    fun hw hnet => ?_
  obtain ⟨hlive, hindexes⟩ := (h.keys key).of_todo htodo
  have hnone : db₀.state.index.lookup key = none := by
    rwa [h.plan (by simp [hstage, Stage.le_iff]),
      lookup_deletePlanOf_of_delete (k := key) hnet] at hplan
  refine .deleted hw hnet ?_ hindexes
  rw [show (WalEntry.delete key).key = key from rfl] at hlive ⊢
  rw [hnone, hlive]
  rfl

/-- A record has been made a tombstone. -/
theorem Alone.tombstoneItem (h : Alone df₀ db₀ df db f) {key : Key} {todo : List WalEntry}
    {entry : IndexEntry} (hstage : f.stage = .batch) (htodo : f.todo = .delete key :: todo)
    (hplan : f.deletePlan.lookup key = some entry) :
    Alone df₀ db₀ (df.after (.flush f))
      { db with file := overwrite db.file entry.offset.toNat (tombstoneOf entry) }
      { f with todo } := by
  obtain ⟨hdb', ht'⟩ :=
    (Moves.tombstoneItem db f key todo entry hstage htodo hplan).sound h.sound h.flush
  rw [DataFile.after_delete hstage htodo hplan] at hdb' ht' ⊢
  have hextent := h.flush.plan key entry hplan
  refine h.item hstage htodo hdb' ht' ?_ ⟨rfl, rfl, rfl⟩ (fun k hk => ⟨?_, rfl⟩)
    fun hw hnet => ?_
  · obtain ⟨s, hs, hheld⟩ := hextent
    obtain ⟨pre, post, hsplit, -, htomb⟩ := DataFile.records_tombstone hs
    rw [hheld.offset_eq, hsplit, htomb]
    simp [totalSize]
  · exact DataFile.liveOf_tombstone_of_ne hextent fun heq => hk heq.symm
  · obtain ⟨hlive, hindexes⟩ := (h.keys key).of_todo htodo
    have hsome : db₀.state.index.lookup key = some entry := by
      rwa [h.plan (by simp [hstage, Stage.le_iff]),
        lookup_deletePlanOf_of_delete (k := key) hnet] at hplan
    refine .deleted hw hnet ?_ hindexes
    rw [show (WalEntry.delete key).key = key from rfl] at hlive ⊢
    rw [DataFile.liveOf_tombstone, hlive, hsome]
    rfl

/-- The data file has been synced behind the batch. -/
theorem Alone.synced (h : Alone df₀ db₀ df db f) (hstage : f.stage = .batch)
    (htodo : f.todo = []) :
    Alone df₀ db₀ (df.after (.flush f)) db { f with stage := .publish } := by
  obtain ⟨hdb', ht'⟩ := (Moves.sync db f hstage htodo).sound h.sound h.flush
  rw [DataFile.after_sync hstage htodo] at hdb' ht' ⊢
  have hold := h.unpublished (by simp [hstage, Stage.le_iff])
  exact h.later (by simp [hstage, Stage.le_iff]) (by simp [Stage.le_iff]) ⟨rfl, rfl, rfl, rfl⟩
    hdb' ht' (fun _ => rfl) rfl (fun _ => hold)
    (fun hpublish => absurd hpublish (by simp [Stage.lt_iff]))
    (fun hcopied => absurd hcopied (by simp [Stage.lt_iff]))
    (h.indexFile_old (by simp [hstage, Stage.le_iff]))
    (h.wal_old (by simp [hstage, Stage.le_iff]))

/-- The state has been updated. -/
theorem Alone.publishes (h : Alone df₀ db₀ df db f) (hstage : f.stage = .publish) :
    Alone df₀ db₀ (df.after (.flush f))
      { db with state := publish db.state f.indexes f.deletePlan }
      { f with stage := .countFields } := by
  obtain ⟨hdb', ht'⟩ := (Moves.publish db f hstage).sound h.sound h.flush
  rw [DataFile.after_of_stage (by simp [hstage]) (by simp [hstage])] at hdb' ht' ⊢
  have hold := h.unpublished (by simp [hstage, Stage.le_iff])
  refine h.later (by simp [hstage, Stage.le_iff]) (by simp [Stage.le_iff]) ⟨rfl, rfl, rfl, rfl⟩
    hdb' ht' (fun _ => rfl) rfl (fun hle => absurd hle (by simp [Stage.le_iff])) (fun _ => ?_)
    (fun hcopied => absurd hcopied (by simp [Stage.lt_iff]))
    (h.indexFile_old (by simp [hstage, Stage.le_iff]))
    (h.wal_old (by simp [hstage, Stage.le_iff]))
  rw [← hold]

/-- The record count has been written. -/
theorem Alone.countsRecords (h : Alone df₀ db₀ df db f) (hstage : f.stage = .writeCount) :
    Alone df₀ db₀ (df.after (.flush f))
      { db with file := overwrite db.file 34 (LittleEndian.ofU64 f.count) }
      { f with stage := .cloneIndex } := by
  obtain ⟨hdb', ht'⟩ := (Moves.writeCount db f hstage).sound h.sound h.flush
  rw [DataFile.after_count hstage] at hdb' ht' ⊢
  exact h.behind (by simp [hstage, Stage.lt_iff]) (by simp [Stage.lt_iff]) ⟨rfl, rfl, rfl, rfl⟩
    hdb' ht' (fun k => df.liveOf_setCount f.count k) rfl rfl
    (fun hcopied => absurd hcopied (by simp [Stage.lt_iff]))
    (h.indexFile_old (by simp [hstage, Stage.le_iff]))
    (h.wal_old (by simp [hstage, Stage.le_iff]))

/-- A section behind the publication that leaves the data file alone. -/
theorem Alone.quiet (h : Alone df₀ db₀ df db f) (hstage : .publish < f.stage)
    (hstage' : .publish < g.stage) (hcount : f.stage ≠ .writeCount)
    (hsame : g.net = f.net ∧ g.deletePlan = f.deletePlan ∧ g.todo = f.todo ∧
      g.indexes = f.indexes)
    (hmove : Moves db (.flush f) db' (.flush g)) (hstate : db'.state = db.state)
    (hcopied : .cloneIndex < g.stage → g.Copied db')
    (hindexFile : db'.indexFile =
      if g.stage ≤ .truncIndex then db₀.indexFile else if g.stage = .writeIndex then []
        else g.encoded)
    (hwal : db'.wal = if g.stage ≤ .checkpoint then db₀.wal else ⟨[], []⟩) :
    Alone df₀ db₀ (df.after (.flush f)) db' g := by
  have hbatch : f.stage ≠ .batch := fun heq => absurd hstage (by rw [heq]; decide)
  obtain ⟨hdb', ht'⟩ := hmove.sound h.sound h.flush
  rw [DataFile.after_of_stage hbatch hcount] at hdb' ht' ⊢
  exact h.behind hstage hstage' hsame hdb' ht' (fun _ => rfl) rfl hstate hcopied hindexFile hwal

/-- The index file is written over an empty file. -/
theorem Alone.overwrite_encoded (h : Alone df₀ db₀ df db f) (hstage : f.stage = .writeIndex) :
    overwrite db.indexFile 0 f.encoded = f.encoded := by
  have hfile : db.indexFile = [] := by
    rw [h.indexFile, if_neg (by simp [hstage, Stage.le_iff]), if_pos hstage]
  exact overwrite_zero (by rw [hfile]; exact Nat.zero_le _)

/-- Each section of a flush that runs alone does its part. -/
theorem Alone.step (h : Alone df₀ db₀ df db f) {t' : Task}
    (hmove : Moves db (.flush f) db' t') :
    ∃ g, t' = .flush g ∧ Alone df₀ db₀ (df.after (.flush f)) db' g := by
  have hquiet := hmove
  cases hmove with
  | pop f hstage => exact ⟨_, rfl, h.pop hstage⟩
  | plan f batch hstage hbatch => exact ⟨_, rfl, h.planned hstage hbatch⟩
  | appendItem f key field todo hstage htodo hfits =>
    exact ⟨_, rfl, h.appendItem hstage htodo hfits⟩
  | skipItem f key todo hstage htodo hplan => exact ⟨_, rfl, h.skipItem hstage htodo hplan⟩
  | tombstoneItem f key todo entry hstage htodo hplan =>
    exact ⟨_, rfl, h.tombstoneItem hstage htodo hplan⟩
  | sync f hstage htodo => exact ⟨_, rfl, h.synced hstage htodo⟩
  | publish f hstage => exact ⟨_, rfl, h.publishes hstage⟩
  | writeCount f hstage => exact ⟨_, rfl, h.countsRecords hstage⟩
  | countFields f hstage =>
    exact ⟨_, rfl, h.quiet (by simp [hstage, Stage.lt_iff]) (by simp [Stage.lt_iff])
      (by simp [hstage])
      ⟨rfl, rfl, rfl, rfl⟩ hquiet rfl (fun hcopied => absurd hcopied (by simp [Stage.lt_iff]))
      (h.indexFile_old (by simp [hstage, Stage.le_iff]))
      (h.wal_old (by simp [hstage, Stage.le_iff]))⟩
  | cloneIndex f order hstage horder =>
    exact ⟨_, rfl, h.quiet (by simp [hstage, Stage.lt_iff]) (by simp [Stage.lt_iff])
      (by simp [hstage])
      ⟨rfl, rfl, rfl, rfl⟩ hquiet rfl (fun _ => ⟨rfl, order, horder, rfl⟩)
      (h.indexFile_old (by simp [hstage, Stage.le_iff]))
      (h.wal_old (by simp [hstage, Stage.le_iff]))⟩
  | truncIndex f hstage =>
    exact ⟨_, rfl, h.quiet (by simp [hstage, Stage.lt_iff]) (by simp [Stage.lt_iff])
      (by simp [hstage])
      ⟨rfl, rfl, rfl, rfl⟩ hquiet rfl (fun _ => h.copied (by simp [hstage, Stage.lt_iff])) rfl
      (h.wal_old (by simp [hstage, Stage.le_iff]))⟩
  | writeIndex f hstage =>
    exact ⟨_, rfl, h.quiet (by simp [hstage, Stage.lt_iff]) (by simp [Stage.lt_iff])
      (by simp [hstage])
      ⟨rfl, rfl, rfl, rfl⟩ hquiet rfl (fun _ => h.copied (by simp [hstage, Stage.lt_iff]))
      (h.overwrite_encoded hstage) (h.wal_old (by simp [hstage, Stage.le_iff]))⟩
  | syncIndex f hstage =>
    exact ⟨_, rfl, h.quiet (by simp [hstage, Stage.lt_iff]) (by simp [Stage.lt_iff])
      (by simp [hstage])
      ⟨rfl, rfl, rfl, rfl⟩ hquiet rfl (fun _ => h.copied (by simp [hstage, Stage.lt_iff]))
      (h.indexFile_new (by simp [hstage, Stage.lt_iff]))
      (h.wal_old (by simp [hstage, Stage.le_iff]))⟩
  | checkpoint f hstage =>
    exact ⟨_, rfl, h.quiet (by simp [hstage, Stage.lt_iff]) (by simp [Stage.lt_iff])
      (by simp [hstage])
      ⟨rfl, rfl, rfl, rfl⟩ hquiet rfl (fun _ => h.copied (by simp [hstage, Stage.lt_iff]))
      (h.indexFile_new (by simp [hstage, Stage.lt_iff])) rfl⟩

/-- A flush that runs alone on a sound database. -/
theorem alone_of_sound {guard : Guard Database Task} {trace : List Task} {c : Pool Database Task}
    (hdb : Sound df₀ db₀) (hrun : Run Task.stepOk guard ⟨db₀, [.flush .start]⟩ trace c) :
    ∃ df db f, c = ⟨db, [.flush f]⟩ ∧ Alone df₀ db₀ df db f := by
  have hsolo := hrun.solo (P := fun _ db t => ∃ df f, t = .flush f ∧ Alone df₀ db₀ df db f)
    ?_
    ⟨df₀, .start, rfl, alone_start hdb⟩
  · obtain ⟨db, _, rfl, df, f, rfl, halone⟩ := hsolo
    exact ⟨df, db, f, rfl, halone⟩
  · rintro _ choice db t db' t' hexec ⟨df, f, rfl, halone⟩
    obtain ⟨g, rfl, halone'⟩ := halone.step (moves_of_stepOk hexec)
    exact ⟨_, g, rfl, halone'⟩

/-- Behind its batch, a flush has written the items of all keys. -/
theorem Alone.written (h : Alone df₀ db₀ df db f) (hstage : .batch < f.stage) (k : Key) :
    f.Written k := by
  refine ⟨Nat.le_of_lt hstage, ?_⟩
  have hidle := h.flush.idle fun heq => absurd hstage (by rw [heq]; decide)
  rw [hidle]
  simp

/-- The batch has the last entry of each key in the log. -/
theorem Alone.lookup_net (h : Alone df₀ db₀ df db f) (hstage : .plan ≤ f.stage) (k : Key) :
    f.net.lookup k = lastEntry k db₀.wal.entries := by
  rw [h.net hstage, lookup_netOf]

/-- At no stage does a flush change a field, when the keys that its log deletes
last have none. -/
theorem Alone.lookup_fields (h : Alone df₀ db₀ df db f)
    (hdeleted : ∀ k, lastValue k db₀.wal.entries = some none →
      db₀.state.fields.lookup k = none) (k : Key) :
    db.state.fields.lookup k = db₀.state.fields.lookup k := by
  by_cases hstage : .publish < f.stage
  · have hbatch : .batch ≤ f.stage := Nat.le_trans (by decide) hstage
    rw [h.published hstage, lookup_fields_publish]
    split
    · rename_i hmem
      -- the delete plan has only keys that the log deletes last
      rw [h.plan hbatch, ← Finmap.lookup_isSome, lookup_deletePlanOf,
        h.lookup_net (Nat.le_trans (by decide) hbatch), map_value_lastEntry] at hmem
      split at hmem
      · rename_i hlast
        exact (hdeleted k hlast).symm
      · cases hmem
    · rfl
  · rw [h.unpublished (Nat.not_lt.mp hstage)]

end

/-- What flushing a log has done to the records and the index entry of a key:
nothing when the log does not mention it; a record of the field that it sets
last; or the tombstone of the record that the index knew. -/
inductive FlushedAt (df₀ : DataFile) (db₀ : Database) (df : DataFile)
    (index : HashMap Key IndexEntry) (k : Key) : Prop
  /-- A key without an entry in the log stays as it is. -/
  | kept (hlast : lastEntry k db₀.wal.entries = none) (hlive : df.liveOf k = df₀.liveOf k)
      (hindex : index.lookup k = db₀.state.index.lookup k)
  /-- A key that has been set has a record at the end. -/
  | set (field : Field) (x : Stored) (hlast : lastEntry k db₀.wal.entries = some (.set k field))
      (hvalue : x.value = field) (hlive : df.liveOf k = df₀.liveOf k ++ [x])
      (hindex : index.lookup k = some (x.entry k)) (hfits : x.offset ≤ maxFileLen)
  /-- A key that has been deleted has lost the record of the index. -/
  | deleted (hlast : lastEntry k db₀.wal.entries = some (.delete k))
      (hlive : df.liveOf k = spared (db₀.state.index.lookup k) (df₀.liveOf k))
      (hindex : index.lookup k = none)

/-- A flush that runs alone has done its part for every key when it has
published its index. -/
theorem Alone.flushedAt [Crc] {df₀ df : DataFile} {db₀ db : Database} {f : Flush}
    (h : Alone df₀ db₀ df db f) (hstage : .publish < f.stage) (k : Key) :
    FlushedAt df₀ db₀ df db.state.index k := by
  have hplanned : .plan ≤ f.stage := Nat.le_trans (by decide) hstage
  have hbatch : .batch < f.stage := Nat.lt_trans (by decide) hstage
  have hplan : f.deletePlan.lookup k =
      if (f.net.lookup k).map WalEntry.value = some none then db₀.state.index.lookup k
        else none := by
    rw [h.plan (Nat.le_of_lt hbatch), lookup_deletePlanOf]
  have hindex : db.state.index.lookup k = if (f.deletePlan.lookup k).isSome then none
      else (lastOf k f.indexes).or (db₀.state.index.lookup k) := by
    rw [h.published hstage, lookup_index_publish]
    simp only [Finmap.lookup_isSome]
  rw [hplan] at hindex
  cases h.keys k with
  | untouched hnet hlive hindexes =>
    have hnone := hnet (h.written hbatch k)
    refine .kept (by rw [← h.lookup_net hplanned, hnone]) hlive ?_
    rw [hindex, hnone, hindexes]
    rfl
  | set field x hw hnet hvalue hlive hindexes hbehind hfits =>
    refine .set field x (by rw [← h.lookup_net hplanned, hnet]) hvalue hlive ?_ hfits
    rw [hindex, hnet, hindexes]
    rfl
  | deleted hw hnet hlive hindexes =>
    refine .deleted (by rw [← h.lookup_net hplanned, hnet]) hlive ?_
    rw [hindex, hnet, hindexes]
    simp only [Option.map_some, WalEntry.value, if_true, Option.none_or]
    cases db₀.state.index.lookup k <;> rfl

end PeachDB.Db
