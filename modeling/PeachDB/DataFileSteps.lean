import PeachDB.Opening

/-!
# The data file under concurrent tasks

The abstract data file goes along with the program: an append adds a record,
a delete makes one a tombstone, and the record count is a part of the header.
Index entries, delete plans and freshly returned offsets stay extents of whole
records, whatever the other tasks do, so that every section of every task
keeps the file a data file.
-/

namespace PeachDB

open Dtypes RecordCodec IndexCodec WriteAheadLog Interleaving Db

/-- The data file after the next section of a task. -/
def DataFile.after (df : DataFile) : Task → DataFile
  | .flush f =>
    match f.stage, f.todo with
    | .batch, .set key field :: _ =>
      if h : key.Encodable ∧ field.Encodable then df.append (.ofPair key field h.1 h.2) else df
    | .batch, .delete key :: _ =>
      match f.deletePlan.lookup key with
      | some entry => df.tombstone entry.offset.toNat
      | none => df
    | .writeCount, _ => df.setCount f.count
    | _, _ => df
  | _ => df

namespace DataFile

variable {df : DataFile} {f : Flush}

/-- Outside of the batch and the count the data file stays. -/
theorem after_of_stage (hbatch : f.stage ≠ .batch) (hcount : f.stage ≠ .writeCount) :
    df.after (.flush f) = df := by
  cases hstage : f.stage <;> simp_all [after]

/-- The sync behind the batch changes nothing. -/
theorem after_sync (hstage : f.stage = .batch) (htodo : f.todo = []) :
    df.after (.flush f) = df := by
  simp only [after, hstage, htodo]

/-- A set item adds its record. -/
theorem after_set {key : Key} {field : Field} {todo : List WalEntry} (hstage : f.stage = .batch)
    (htodo : f.todo = .set key field :: todo) (hkey : key.Encodable) (hfield : field.Encodable) :
    df.after (.flush f) = df.append (.ofPair key field hkey hfield) := by
  simp only [after, hstage, htodo]
  exact dif_pos ⟨hkey, hfield⟩

/-- A key without a plan is passed over. -/
theorem after_skip {key : Key} {todo : List WalEntry} (hstage : f.stage = .batch)
    (htodo : f.todo = .delete key :: todo) (hplan : f.deletePlan.lookup key = none) :
    df.after (.flush f) = df := by
  simp only [after, hstage, htodo, hplan]

/-- A delete item makes the record of its plan entry a tombstone. -/
theorem after_delete {key : Key} {todo : List WalEntry} {entry : IndexEntry}
    (hstage : f.stage = .batch) (htodo : f.todo = .delete key :: todo)
    (hplan : f.deletePlan.lookup key = some entry) :
    df.after (.flush f) = df.tombstone entry.offset.toNat := by
  simp only [after, hstage, htodo, hplan]

/-- The count is written into the header. -/
theorem after_count (hstage : f.stage = .writeCount) :
    df.after (.flush f) = df.setCount f.count := by
  simp only [after, hstage]

/-- Every section keeps all extents in place. -/
theorem Extent.after {t : Task} {k : Key} {e : IndexEntry} (h : df.Extent k e) :
    (df.after t).Extent k e := by
  cases t with
  | write entry stage => exact h
  | get key result => exact h
  | failed e => exact h
  | flush f =>
    simp only [DataFile.after]
    split
    · split
      · exact h.append _
      · exact h
    · split
      · exact h.tombstone _
      · exact h
    · exact h.setCount _
    · exact h

end DataFile

namespace Db

/-- A database whose data file is `df`: index entries are extents, and what
the log holds can be encoded. -/
structure Sound [Crc] (df : DataFile) (db : Database) : Prop where
  /-- The data file. -/
  file : db.file = df.bytes
  /-- Every index entry is an extent of its key. -/
  index : ∀ k e, db.state.index.lookup k = some e → df.Extent k e
  /-- The log can be encoded. -/
  entries : ∀ entry ∈ db.wal.entries, entry.Encodable

/-- A flush that holds extents of the data file `df` and entries that can be
encoded; the items still to be written are items of its batch, one for a key. -/
structure FlushSound (df : DataFile) (f : Flush) : Prop where
  /-- A flush that has not begun holds nothing. -/
  start : f.stage = .pop → f = .start
  /-- The last entries of the keys it has taken. -/
  net : ∀ k entry, f.net.lookup k = some entry → entry.key = k ∧ entry.Encodable
  /-- What it still has to write has been taken. -/
  todo : ∀ entry ∈ f.todo, f.net.lookup entry.key = some entry
  /-- It writes every key once. -/
  nodup : (f.todo.map WalEntry.key).Nodup
  /-- It writes nothing outside of the batch. -/
  idle : f.stage ≠ .batch → f.todo = []
  /-- It deletes extents only. -/
  plan : ∀ k e, f.deletePlan.lookup k = some e → df.Extent k e
  /-- What it has appended is in the file. -/
  indexes : ∀ x ∈ f.indexes, df.Extent x.1 x.2

/-- What a task holds is sound for the data file `df`. -/
def TaskSound (df : DataFile) : Task → Prop
  | .write entry _ => entry.Encodable
  | .get _ _ | .failed _ => True
  | .flush f => FlushSound df f

/-- A flush holds nothing at first. -/
theorem flushSound_start (df : DataFile) : FlushSound df .start := by
  refine ⟨fun _ => rfl, fun k entry hk => ?_, nofun, List.nodup_nil, fun _ => rfl, fun k e hk => ?_,
    nofun⟩
  · cases hk
  · cases hk

/-- A call holds nothing at first but an entry. -/
theorem taskSound_of_initial {df : DataFile} {t : Task} (h : t.Initial)
    (hentry : ∀ entry stage, t = .write entry stage → entry.Encodable) : TaskSound df t := by
  cases t with
  | write entry stage => exact hentry entry stage rfl
  | get key result => trivial
  | failed e => trivial
  | flush f =>
    obtain rfl : f = .start := h
    exact flushSound_start df

/-- Extents are all that a task knows of the data file. -/
theorem TaskSound.mono {df df' : DataFile} {t : Task} (h : TaskSound df t)
    (hmono : ∀ k e, df.Extent k e → df'.Extent k e) : TaskSound df' t := by
  cases t with
  | write entry stage => exact h
  | get key result => trivial
  | failed e => trivial
  | flush f =>
    exact ⟨h.start, h.net, h.todo, h.nodup, h.idle, fun k e hk => hmono k e (h.plan k e hk),
      fun x hx => hmono _ _ (h.indexes x hx)⟩

/-- A flush behind its batch stays sound. -/
theorem FlushSound.next {df : DataFile} {f g : Flush} (h : FlushSound df f)
    (hstage : g.stage ≠ .pop) (htodo : f.todo = [])
    (hsame : g.net = f.net ∧ g.todo = f.todo ∧ g.deletePlan = f.deletePlan ∧
      g.indexes = f.indexes) :
    FlushSound df g := by
  obtain ⟨hnet, htodo', hplan, hindexes⟩ := hsame
  rw [htodo] at htodo'
  refine ⟨fun hpop => absurd hpop hstage, ?_, ?_, ?_, fun _ => htodo', ?_, ?_⟩
  · rw [hnet]
    exact h.net
  · rw [htodo']
    exact nofun
  · rw [htodo']
    exact List.nodup_nil
  · rw [hplan]
    exact h.plan
  · rw [hindexes]
    exact h.indexes

/-- No other item of the batch has the key of the one that is written next. -/
theorem FlushSound.key_ne {df : DataFile} {f : Flush} {entry : WalEntry} {todo : List WalEntry}
    (h : FlushSound df f) (htodo : f.todo = entry :: todo) :
    (∀ e ∈ todo, e.key ≠ entry.key) ∧ (todo.map WalEntry.key).Nodup := by
  have hnodup := h.nodup
  rw [htodo, List.map_cons, List.nodup_cons] at hnodup
  exact ⟨fun e he heq => hnodup.1 (heq ▸ List.mem_map_of_mem he), hnodup.2⟩

/-- A flush goes on with the rest of its batch. -/
theorem FlushSound.rest {df : DataFile} {f : Flush} {entry : WalEntry} {todo : List WalEntry}
    (h : FlushSound df f) (hstage : f.stage = .batch) (htodo : f.todo = entry :: todo) :
    FlushSound df { f with todo } :=
  ⟨fun hpop => absurd (hstage.symm.trans hpop) nofun, h.net,
    fun e he => h.todo e (htodo ▸ List.mem_cons_of_mem _ he), (h.key_ne htodo).2,
    fun hne => absurd hstage hne, h.plan, h.indexes⟩

/-- The batch in its iteration order has one item for a key. -/
theorem FlushSound.map_key {df : DataFile} {f : Flush} {batch : List (Key × WalEntry)}
    (h : FlushSound df f) (hbatch : IterOrder f.net batch) :
    (batch.map Prod.snd).map WalEntry.key = batch.map Prod.fst := by
  rw [List.map_map]
  exact List.map_congr_left fun x hx => (h.net _ _ (hbatch.mem_iff.mp hx)).1

/-- The item that is written next can be encoded. -/
theorem FlushSound.encodable {df : DataFile} {f : Flush} {entry : WalEntry} {todo : List WalEntry}
    (h : FlushSound df f) (htodo : f.todo = entry :: todo) : entry.Encodable :=
  (h.net _ _ (h.todo entry (htodo ▸ List.mem_cons_self))).2

/-- Publishing extents gives an index of extents. -/
theorem extent_of_publish {df : DataFile} {state : State} {indexes : List (Key × IndexEntry)}
    {deletePlan : HashMap Key IndexEntry}
    (hstate : ∀ k e, state.index.lookup k = some e → df.Extent k e)
    (hindexes : ∀ x ∈ indexes, df.Extent x.1 x.2) {k : Key} {e : IndexEntry}
    (h : (publish state indexes deletePlan).index.lookup k = some e) : df.Extent k e := by
  rw [lookup_index_publish] at h
  split at h
  · cases h
  · cases hlast : lastOf k indexes with
    | none =>
      rw [hlast, Option.none_or] at h
      exact hstate k e h
    | some e' =>
      rw [hlast] at h
      cases h
      exact hindexes _ (mem_of_lastOf hlast)

section

variable [Crc] {df : DataFile} {db db' : Database} {t t' : Task}

/-- A write has appended its entry. -/
theorem Sound.append (hdb : Sound df db) {entry : WalEntry} (hentry : entry.Encodable)
    (file : Bytes) :
    Sound df { db with wal := ⟨file, db.wal.entries ++ [entry]⟩ } := by
  refine ⟨hdb.file, hdb.index, fun e he => ?_⟩
  rcases List.mem_append.mp he with he | he
  · exact hdb.entries e he
  · rw [List.mem_singleton.mp he]
    exact hentry

omit [Crc] in
/-- A flush has taken the log. -/
theorem flushSound_pop (df : DataFile) {entries : List WalEntry}
    (hentries : ∀ entry ∈ entries, entry.Encodable) :
    FlushSound df { Flush.start with stage := .plan, net := netOf entries } := by
  refine ⟨nofun, fun k entry hk => ?_, nofun, List.nodup_nil, fun _ => rfl, fun k e hk => ?_, nofun⟩
  · rw [lookup_netOf] at hk
    exact ⟨(mem_of_lastEntry hk).2, hentries _ (mem_of_lastEntry hk).1⟩
  · cases hk

/-- A flush has made its delete plan. -/
theorem FlushSound.planned {f : Flush} (hdb : Sound df db) (ht : FlushSound df f)
    {batch : List (Key × WalEntry)} (hbatch : IterOrder f.net batch) :
    FlushSound df { f with
      stage := .batch
      deletePlan := deletePlanOf f.net db.state.index
      todo := batch.map Prod.snd } := by
  refine ⟨nofun, ht.net, fun entry he => ?_, ?_, fun hne => absurd rfl hne, fun k e hk => ?_,
    ht.indexes⟩
  · obtain ⟨x, hx, rfl⟩ := List.mem_map.mp he
    have hlookup := hbatch.mem_iff.mp (show (x.1, x.2) ∈ batch from hx)
    rw [(ht.net _ _ hlookup).1]
    exact hlookup
  · rw [ht.map_key hbatch]
    exact hbatch.nodup
  · rw [lookup_deletePlanOf] at hk
    split at hk
    · exact hdb.index k e hk
    · cases hk

/-- A flush has appended a record. -/
theorem FlushSound.appended {f : Flush} {key : Key} {field : Field} {todo : List WalEntry}
    (hdb : Sound df db) (ht : FlushSound df f) (hstage : f.stage = .batch)
    (htodo : f.todo = .set key field :: todo) (hfits : db.file.length ≤ FileHandler.maxFileLen) :
    Sound (df.after (.flush f)) { db with file := db.file ++ encode key field } ∧
      FlushSound (df.after (.flush f))
        { f with todo, indexes := f.indexes ++ [(key, entryAt db.file.length key field)] } := by
  have henc := ht.encodable htodo
  have hkey : key.Encodable := henc.1
  have hfield : field.Encodable := henc.2 field rfl
  rw [DataFile.after_set hstage htodo hkey hfield]
  refine ⟨⟨?_, fun k e hk => (hdb.index k e hk).append _, hdb.entries⟩, ?_⟩
  · rw [DataFile.bytes_append, Record.bytes_ofPair, ← hdb.file]
  · have hrest := ht.rest hstage htodo
    refine ⟨fun hpop => absurd (hstage.symm.trans hpop) nofun, hrest.net, hrest.todo, hrest.nodup,
      hrest.idle, fun k e hk => (hrest.plan k e hk).append _, fun x hx => ?_⟩
    rcases List.mem_append.mp hx with hx | hx
    · exact (ht.indexes x hx).append _
    · rw [List.mem_singleton.mp hx, entryAt, hdb.file]
      refine df.extent_append key field hkey hfield ?_
      rw [← hdb.file]
      exact hfits.trans_lt (by decide)

/-- A flush has made a record a tombstone. -/
theorem FlushSound.tombstoned {f : Flush} {key : Key} {todo : List WalEntry} {entry : IndexEntry}
    (hdb : Sound df db) (ht : FlushSound df f) (hstage : f.stage = .batch)
    (htodo : f.todo = .delete key :: todo) (hplan : f.deletePlan.lookup key = some entry) :
    Sound (df.after (.flush f))
        { db with file := overwrite db.file entry.offset.toNat (tombstoneOf entry) } ∧
      FlushSound (df.after (.flush f)) { f with todo } := by
  rw [DataFile.after_delete hstage htodo hplan]
  have hextent := ht.plan key entry hplan
  refine ⟨⟨?_, fun k e hk => (hdb.index k e hk).tombstone _, hdb.entries⟩, ?_⟩
  · rw [← DataFile.bytes_tombstone hextent, hdb.file]
    rfl
  · have hrest := ht.rest hstage htodo
    exact ⟨hrest.start, hrest.net, hrest.todo, hrest.nodup, hrest.idle,
      fun k e hk => (hrest.plan k e hk).tombstone _, fun x hx => (hrest.indexes x hx).tombstone _⟩

/-- A flush has written the record count. -/
theorem FlushSound.counted {f : Flush} (hdb : Sound df db) (ht : FlushSound df f)
    (hstage : f.stage = .writeCount) :
    Sound (df.after (.flush f))
      { db with file := overwrite db.file 34 (LittleEndian.ofU64 f.count) } ∧
      FlushSound (df.after (.flush f)) { f with stage := .cloneIndex } := by
  rw [DataFile.after_count hstage]
  refine ⟨⟨?_, fun k e hk => (hdb.index k e hk).setCount _, hdb.entries⟩, nofun, ht.net, ht.todo,
    ht.nodup, fun _ => ht.idle (by simp [hstage]), fun k e hk => (ht.plan k e hk).setCount _,
    fun x hx => (ht.indexes x hx).setCount _⟩
  rw [← DataFile.bytes_setCount, hdb.file]

/-- The program follows the abstract data file, section by section. -/
theorem Moves.sound (h : Moves db t db' t') (hdb : Sound df db) (ht : TaskSound df t) :
    Sound (df.after t) db' ∧ TaskSound (df.after t) t' := by
  cases h with
  | append entry => exact ⟨hdb.append ht _, ht⟩
  | update entry => exact ⟨⟨hdb.file, hdb.index, hdb.entries⟩, ht⟩
  | get key => exact ⟨hdb, trivial⟩
  | pop f hstage =>
    rw [DataFile.after_of_stage (by simp [hstage]) (by simp [hstage])]
    obtain rfl := ht.start hstage
    exact ⟨hdb, flushSound_pop df hdb.entries⟩
  | plan f batch hstage hbatch =>
    rw [DataFile.after_of_stage (by simp [hstage]) (by simp [hstage])]
    exact ⟨hdb, ht.planned hdb hbatch⟩
  | appendItem f key field todo hstage htodo hfits => exact ht.appended hdb hstage htodo hfits
  | skipItem f key todo hstage htodo hplan =>
    rw [DataFile.after_skip hstage htodo hplan]
    exact ⟨hdb, ht.rest hstage htodo⟩
  | tombstoneItem f key todo entry hstage htodo hplan => exact ht.tombstoned hdb hstage htodo hplan
  | sync f hstage htodo =>
    rw [DataFile.after_sync hstage htodo]
    exact ⟨hdb, ht.next nofun htodo ⟨rfl, rfl, rfl, rfl⟩⟩
  | publish f hstage =>
    rw [DataFile.after_of_stage (by simp [hstage]) (by simp [hstage])]
    exact ⟨⟨hdb.file, fun k e => extent_of_publish hdb.index ht.indexes, hdb.entries⟩,
      ht.next nofun (ht.idle (by simp [hstage])) ⟨rfl, rfl, rfl, rfl⟩⟩
  | writeCount f hstage => exact ht.counted hdb hstage
  | countFields f hstage | cloneIndex f order hstage horder | syncIndex f hstage =>
    rw [DataFile.after_of_stage (by simp [hstage]) (by simp [hstage])]
    exact ⟨hdb, ht.next nofun (ht.idle (by simp [hstage])) ⟨rfl, rfl, rfl, rfl⟩⟩
  | truncIndex f hstage | writeIndex f hstage =>
    rw [DataFile.after_of_stage (by simp [hstage]) (by simp [hstage])]
    exact ⟨⟨hdb.file, hdb.index, hdb.entries⟩,
      ht.next nofun (ht.idle (by simp [hstage])) ⟨rfl, rfl, rfl, rfl⟩⟩
  | checkpoint f hstage =>
    rw [DataFile.after_of_stage (by simp [hstage]) (by simp [hstage])]
    exact ⟨⟨hdb.file, hdb.index, nofun⟩,
      ht.next nofun (ht.idle (by simp [hstage])) ⟨rfl, rfl, rfl, rfl⟩⟩

/-- A new database has a sound, empty data file. -/
theorem sound_new (name : String) :
    Sound (emptyFile name) (Database.new name [] ⟨[], []⟩) := by
  refine ⟨new_file name [] ⟨[], []⟩, fun k e hk => ?_, nofun⟩
  cases hk

end

/-- The in-place write on the data file in the next section of a task. -/
def writeAtOf : Task → Option (UInt64 × Bytes)
  | .flush f =>
    match f.stage, f.todo with
    | .batch, .delete key :: _ => (f.deletePlan.lookup key).map fun e => (e.offset, tombstoneOf e)
    | .writeCount, _ => some (recordCountOffset, LittleEndian.ofU64 f.count)
    | _, _ => none
  | _ => none

/-- The key whose record the next section of a task deletes. -/
def deletedBy : Task → Option Key
  | .flush f =>
    match f.stage, f.todo with
    | .batch, .delete key :: _ => some key
    | _, _ => none
  | _ => none

section

variable [Crc] {df : DataFile} {db db' : Database} {t t' : Task}

/-- A section appends a record, writes in place or leaves the file alone. -/
theorem Moves.file_eq (h : Moves db t db' t') : db'.file = db.file ∨
    (∃ key field, db'.file = db.file ++ encode key field) ∨
    ∃ pos data, writeAtOf t = some (pos, data) ∧
    db'.file = overwrite db.file pos.toNat data := by
  cases h with
  | appendItem f key field todo hstage htodo hfits => exact .inr (.inl ⟨key, field, rfl⟩)
  | tombstoneItem f key todo entry hstage htodo hplan =>
    refine .inr (.inr ⟨entry.offset, tombstoneOf entry, ?_, rfl⟩)
    simp only [writeAtOf, hstage, htodo, hplan, Option.map_some]
  | writeCount f hstage =>
    refine .inr (.inr ⟨recordCountOffset, LittleEndian.ofU64 f.count, ?_, rfl⟩)
    simp only [writeAtOf, hstage]
  | append entry | update entry | get key | pop f hstage | plan f batch hstage hbatch
  | skipItem f key todo hstage htodo hplan | sync f hstage htodo | publish f hstage
  | countFields f hstage | cloneIndex f order hstage horder | truncIndex f hstage
  | writeIndex f hstage | syncIndex f hstage | checkpoint f hstage => exact .inl rfl

/-- A write covers the record count, or exactly one whole record, which is of
the deleted key unless it is a tombstone already, and leaves a tombstone. -/
def CoversWhole (df : DataFile) (key : Option Key) (pos : ℕ) (data : Bytes) : Prop :=
  (pos = 34 ∧ data.length = 8) ∨
    ∃ pre r post, df.records = pre ++ r :: post ∧
      pos = (df.header.bytes ++ pre.flatMap Record.bytes).length ∧
      data.length = r.bytes.length ∧
      (r.isDead = false → key = some r.parts.key) ∧
      overwrite df.bytes pos data = df.header.bytes ++ pre.flatMap Record.bytes ++
        r.tombstone.bytes ++ post.flatMap Record.bytes

/-- What a sound task writes in place covers a whole part of the file. -/
theorem coversWhole_of_sound {pos : UInt64} {data : Bytes} (ht : TaskSound df t)
    (hwrite : writeAtOf t = some (pos, data)) : CoversWhole df (deletedBy t) pos.toNat data := by
  cases t with
  | write entry stage => cases hwrite
  | get key result => cases hwrite
  | failed e => cases hwrite
  | flush f =>
    simp only [writeAtOf, deletedBy] at hwrite ⊢
    split at hwrite
    · rename_i key todo hstage htodo
      obtain ⟨e, hplan, heq⟩ := Option.map_eq_some_iff.mp hwrite
      cases heq
      obtain ⟨s, hs, hheld⟩ := ht.plan key e hplan
      obtain ⟨pre, post, hsplit, hoff, htomb⟩ := DataFile.records_tombstone hs
      have hbytes := DataFile.bytes_tombstone ⟨s, hs, hheld⟩
      have hdata : tombstoneOf e = s.record.tombstone.bytes := by
        rw [Record.bytes_tombstone, tombstoneOf, hheld.keyLen_eq, hheld.fieldLen_eq]
      refine .inr ⟨pre, s.record, post, hsplit, ?_, ?_, ?_, ?_⟩
      · rw [hheld.offset_eq, hoff, List.length_append, Header.length_bytes, length_flatMap_bytes]
      · rw [hdata, Record.length_bytes, Record.length_bytes, Record.size_tombstone]
      · intro hlive
        rw [hheld.key_eq hlive]
        simp only [hstage, htodo]
      · change overwrite df.bytes e.offset.toNat (tombstoneOf e) = _ at hbytes
        rw [hbytes, hheld.offset_eq, DataFile.bytes, htomb, List.flatMap_append, List.flatMap_cons]
        simp only [List.append_assoc]
        rfl
    · cases hwrite
      exact .inl ⟨rfl, LittleEndian.length_ofU64 _⟩
    · cases hwrite

/-- A header that differs from another one in the record count alone. -/
def Header.SameBut (h h₀ : Header) : Prop := h = { h₀ with recordCount := h.recordCount }

omit [Crc] in
/-- The header changes in its count alone. -/
theorem sameBut_after {h₀ : Header} (h : Header.SameBut df.header h₀) (t : Task) :
    Header.SameBut (df.after t).header h₀ := by
  cases t with
  | write entry stage => exact h
  | get key result => exact h
  | failed e => exact h
  | flush f =>
    simp only [DataFile.after]
    split
    · split <;> exact h
    · split <;> exact h
    · rw [Header.SameBut] at h ⊢
      rw [DataFile.setCount, h]
    · exact h

/-- What every section keeps holds along every run, which leaves the header but
for its record count as it was. -/
theorem sound_of_run {guard : Guard Database Task} {tasks trace : List Task}
    {c : Pool Database Task} {h₀ : Header} (hrun : Run Task.stepOk guard ⟨db, tasks⟩ trace c)
    (hdb : Sound df db) (hheader : Header.SameBut df.header h₀)
    (htasks : ∀ t ∈ tasks, TaskSound df t) :
    ∃ df', (Sound df' c.shared ∧ Header.SameBut df'.header h₀) ∧
      ∀ t ∈ c.tasks, TaskSound df' t := by
  refine hrun.pool_invariant (G := fun df db => Sound df db ∧ Header.SameBut df.header h₀)
    (P := fun df _ t => TaskSound df t) ?_ ⟨df, ⟨hdb, hheader⟩, htasks⟩
  rintro df choice db others t db' t' - hexec ⟨hdb, hheader⟩ ht hothers
  obtain ⟨hdb', ht'⟩ := (moves_of_stepOk hexec).sound hdb ht
  exact ⟨df.after t, ⟨hdb', sameBut_after hheader t⟩, ht',
    fun u hu => (hothers u hu).mono fun _ _ h => h.after⟩

/-- In every state that tasks on a new database can reach, the data file is
the header of the database, up to the record count, and whole records, so that
it decodes; and every section appends a record to the file, leaves it alone,
or writes in place over the record count or one whole record of the deleted
key. -/
theorem data_file_sound {name : String} {db₀ : Database} {tasks trace : List Task}
    {c : Pool Database Task} (hopen : Database.open name ⟨[], [], []⟩ = .ok db₀)
    (hinit : ∀ t ∈ tasks, t.Initial)
    (hencodable : ∀ entry stage, .write entry stage ∈ tasks → entry.Encodable)
    (hrun : Run Task.stepOk anyStep ⟨db₀, tasks⟩ trace c) :
    ∃ df : DataFile, c.shared.file = df.bytes ∧
      Header.SameBut df.header (Header.ofMeta ⟨1, 0, name⟩) ∧
      (∃ out, (do let d ← (DBDecoder.new c.shared.file).decodeDbFile; d.finish) = .ok out) ∧
      ∀ t ∈ c.tasks,
        (∀ pos data, writeAtOf t = some (pos, data) →
          CoversWhole df (deletedBy t) pos.toNat data) ∧
        ∀ choice db' t', Task.stepOk choice c.shared t = some (db', t') →
          db'.file = c.shared.file ∨
          (∃ key field, db'.file = c.shared.file ++ encode key field) ∨
          ∃ pos data, writeAtOf t = some (pos, data) ∧
            db'.file = overwrite c.shared.file pos.toNat data := by
  obtain ⟨-, wal, hwal, rfl⟩ := (open_eq_ok_iff_new rfl).mp hopen
  cases hwal
  have htasks : ∀ t ∈ tasks, TaskSound (emptyFile name) t := by
    intro t ht
    exact taskSound_of_initial (hinit t ht) fun entry stage heq =>
      hencodable entry stage (heq ▸ ht)
  have hheader : Header.SameBut (emptyFile name).header (Header.ofMeta ⟨1, 0, name⟩) := rfl
  obtain ⟨df, ⟨hdb, hheader⟩, htasks⟩ := sound_of_run hrun (sound_new name) hheader htasks
  refine ⟨df, hdb.file, hheader, ?_, fun t ht => ⟨?_, ?_⟩⟩
  · exact ⟨_, decodeDbFile_eq_ok_iff.mpr ⟨df, hdb.file, rfl, rfl⟩⟩
  · exact fun pos data hwrite => coversWhole_of_sound (htasks t ht) hwrite
  · exact fun choice db' t' hexec => (moves_of_stepOk hexec).file_eq

end

open scoped IsoHdlc

/-- A key is set and deleted, with a flush after each of them. -/
def setThenDelete : Pool Database Task where
  shared := Database.new "db" [] ⟨[], []⟩
  tasks :=
    [.write (.set (.ofText "k") (.primitive (.integer 1))) .append, .flush .start,
      .write (.delete (.ofText "k")) .append, .flush .start]

/-- The second flush is about to write the tombstone. -/
def beforeTombstone : List (ℕ × Choice) :=
  sections 0 2 ++ takeBatch 1 [(.ofText "k", .set (.ofText "k") (.primitive (.integer 1)))] ++
    sections 1 5 ++ copyIndex 1 [(.ofText "k", ⟨114, 1, 9⟩)] ++ sections 1 4 ++ sections 2 2 ++
    takeBatch 3 [(.ofText "k", .delete (.ofText "k"))]

/-- The flush gets to its tombstone. -/
theorem setThenDelete_runs : (drive Task.stepOk anyStep beforeTombstone setThenDelete).isSome := by
  decide +kernel

/-- It covers one whole record of the key. -/
theorem data_file_sound_tombstone :
    let c := ((drive Task.stepOk anyStep beforeTombstone setThenDelete).get setThenDelete_runs).2
    ∃ df : DataFile, c.shared.file = df.bytes ∧
      Header.SameBut df.header (Header.ofMeta ⟨1, 0, "db"⟩) ∧
      (∃ out, (do let d ← (DBDecoder.new c.shared.file).decodeDbFile; d.finish) = .ok out) ∧
      ∀ t ∈ c.tasks,
        (∀ pos data, writeAtOf t = some (pos, data) →
          CoversWhole df (deletedBy t) pos.toNat data) ∧
        ∀ choice db' t', Task.stepOk choice c.shared t = some (db', t') →
          db'.file = c.shared.file ∨
          (∃ key field, db'.file = c.shared.file ++ encode key field) ∨
          ∃ pos data, writeAtOf t = some (pos, data) ∧
            db'.file = overwrite c.shared.file pos.toNat data := by
  have hopen : Database.open "db" ⟨[], [], []⟩ = .ok setThenDelete.shared := rfl
  have hinit : ∀ t ∈ setThenDelete.tasks, t.Initial := by simp [setThenDelete, Task.Initial]
  have hencodable : ∀ entry stage, .write entry stage ∈ setThenDelete.tasks →
      entry.Encodable := by
    intro entry stage hmem
    simp only [setThenDelete, List.mem_cons, Task.write.injEq, reduceCtorEq, List.not_mem_nil,
      or_false, false_or] at hmem
    rcases hmem with ⟨rfl, -⟩ | ⟨rfl, -⟩
    · decide
    · decide
  exact data_file_sound hopen hinit hencodable (run_get_drive setThenDelete_runs)

end Db

end PeachDB
