import PeachDB.FlushOutcome
import PeachDB.WriteOutcome

/-!
# The index between calls

The invariant of every session on a new database, with empty keys and with
deletes of keys that have several live records: each index entry names the
last live record of its key. A key without an index entry may still have live
records, since a flush makes only one record of a deleted key a tombstone; how
many is counted along the calls.
-/

namespace PeachDB

open LittleEndian Dtypes RecordCodec IndexCodec FileHandler WriteAheadLog Interleaving Db

/-- Slots are in the order of their offsets, and do not overlap. -/
theorem slotsFrom_sorted (base : ℕ) (rs : List Record) :
    (slotsFrom base rs).Pairwise fun s t => s.offset + s.record.size ≤ t.offset := by
  induction rs generalizing base with
  | nil => exact .nil
  | cons r rs ih =>
    rw [slotsFrom, List.pairwise_cons]
    exact ⟨fun t ht => (bounds_of_mem_slotsFrom ht).1, ih _⟩

/-- A live record in a slot has the offset of the slot. -/
theorem Slot.offset_of_stored? {s : Slot} {x : Key × Stored} (h : s.stored? = some x) :
    x.2.offset = s.offset := by
  obtain ⟨value, -, rfl⟩ := Option.map_eq_some_iff.mp h
  rfl

/-- The live records of a key are in the order of their offsets. -/
theorem DataFile.liveOf_sorted (df : DataFile) (k : Key) :
    (df.liveOf k).Pairwise fun x y => x.offset < y.offset := by
  have hlive : df.live.Pairwise fun x y => x.2.offset < y.2.offset := by
    refine (slotsFrom_sorted 114 df.records).filterMap _ ?_
    intro s t hst x hx y hy
    have hpos := s.record.size_pos
    rw [Slot.offset_of_stored? hx, Slot.offset_of_stored? hy]
    omega
  refine hlive.filterMap _ ?_
  intro x y hxy a ha b hb
  split at ha
  · split at hb
    · cases ha
      cases hb
      exact hxy
    · cases hb
  · cases ha

/-- A tombstone for the last live record of a key leaves all others. -/
theorem spared_eq_dropLast {df : DataFile} {k : Key} {x : Stored} {e : IndexEntry}
    (hlast : (df.liveOf k).getLast? = some x) (hoffset : e.offset.toNat = x.offset) :
    spared (some e) (df.liveOf k) = (df.liveOf k).dropLast := by
  have hsorted := df.liveOf_sorted k
  obtain ⟨init, hinit⟩ := List.getLast?_eq_some_iff.mp hlast
  rw [hinit, List.pairwise_append] at hsorted
  rw [hinit, List.dropLast_concat, spared, List.filter_append, hoffset]
  have hkeep : init.filter (fun y => y.offset ≠ x.offset) = init := by
    rw [List.filter_eq_self]
    intro y hy
    have hlt := hsorted.2.2 y hy x (by simp)
    simp only [ne_eq, decide_eq_true_eq]
    omega
  rw [hkeep]
  simp

/-- An entry that names a live record is the entry of that record. -/
theorem Stored.IsAt.eq_entry {x : Stored} {k : Key} {e : IndexEntry} (h : x.IsAt k e) :
    e = x.entry k := by
  obtain ⟨offset, keyLen, fieldLen⟩ := e
  have hoffset : UInt64.ofNat x.offset = offset := by rw [← h.offset_eq, UInt64.ofNat_toNat]
  have hkeyLen : UInt16.ofNat k.len = keyLen := by rw [← h.keyLen_eq, UInt16.ofNat_toNat]
  have hfieldLen : UInt32.ofNat x.fieldLen = fieldLen := by
    rw [← h.fieldLen_eq, UInt32.ofNat_toNat]
  rw [Stored.entry, hoffset, hkeyLen, hfieldLen]

namespace Db

/-- What holds between two calls of any session: the log opens, the index
names last live records and is in the index file unless that is empty, and the
fields agree with the log. -/
structure Aligned [Crc] (df : DataFile) (db : Database) : Prop where
  /-- The data file. -/
  file : db.file = df.bytes
  /-- The log file holds the entries in memory. -/
  log : Wal.open db.wal.file = .ok db.wal
  /-- The index names the last live record of every key. -/
  names : df.NamesLast db.state.index
  /-- The index file is empty or encodes the index. -/
  indexFile : db.indexFile = [] ∨ Encodes db.indexFile db.state.index
  /-- The offsets are those of a file. -/
  offsets : ∀ x ∈ df.live, x.2.offset ≤ maxFileLen
  /-- The fields have the values of the log. -/
  logged : ∀ k value, lastValue k db.wal.entries = some value → db.state.fields.lookup k = value

section

variable [Crc] {name : String} {df : DataFile} {db db' : Database}

/-- The entries of a database in order can be encoded. -/
theorem Aligned.entries (h : Aligned df db) : ∀ entry ∈ db.wal.entries, entry.Encodable :=
  encodable_of_open h.log

/-- A database in order is sound. -/
theorem Aligned.sound (h : Aligned df db) : Sound df db :=
  sound_of_namesLast h.file h.names h.entries

/-- The index of an aligned database has the lengths of its keys. -/
theorem Aligned.lengthsMatch (h : Aligned df db) : LengthsMatch db.state.index := by
  intro k e hk
  obtain ⟨x, -, hat⟩ := h.names k e hk
  exact hat.keyLen_eq

/-- A new database is aligned. -/
theorem aligned_new (name : String) :
    Aligned (emptyFile name) (Database.new name [] ⟨[], []⟩) where
  file := new_file name [] ⟨[], []⟩
  log := rfl
  names k e hk := by cases hk
  indexFile := .inl rfl
  offsets x hx := by cases hx
  logged k value hk := by cases hk

/-- A write keeps a database aligned. -/
theorem Aligned.write (h : Aligned df db) {entry : WalEntry} (hentry : entry.Encodable) :
    Aligned df
      { db with
        state := { db.state with fields := applyEntry db.state.fields entry }
        wal := ⟨db.wal.file ++ walBytes entry, db.wal.entries ++ [entry]⟩ } where
  file := h.file
  log := open_append h.log hentry
  names := h.names
  indexFile := h.indexFile
  offsets := h.offsets
  logged k value hk := by
    rw [lastValue_concat] at hk
    rw [lookup_applyEntry]
    by_cases hkey : k = entry.key
    · rw [if_pos hkey] at hk ⊢
      exact Option.some.inj hk
    · rw [if_neg hkey] at hk ⊢
      exact h.logged k value hk

/-- A flush that has run alone to its end leaves an aligned database. -/
theorem Aligned.flush {df₀ : DataFile} {db₀ : Database} {f : Flush} (h : Aligned df₀ db₀)
    (halone : Alone df₀ db₀ df db f) (hstage : f.stage = .done) : Aligned df db where
  file := halone.sound.file
  log := by
    rw [halone.wal_done hstage]
    rfl
  names := namesLast_of_flushedAt h.names (halone.flushedAt_done hstage)
  indexFile := .inr (halone.encodes_done hstage)
  offsets x hx := by
    rcases halone.mem_liveOf (mem_itemsOf.mpr (show (x.1, x.2) ∈ df.live from hx)) with hold
      | ⟨-, hfits⟩
    · exact h.offsets (x.1, x.2) (mem_itemsOf.mp hold)
    · exact hfits
  logged k value hk := by
    rw [halone.wal_done hstage] at hk
    cases hk

/-- Opening the files of an aligned database, where it succeeds, gives an
aligned database. -/
theorem Aligned.reopen (h : Aligned df db) (hopen : Database.open name db.disk = .ok db') :
    Aligned df db' := by
  have hne : db.disk.file ≠ [] := by
    change db.file ≠ []
    rw [h.file]
    exact df.bytes_ne_nil
  obtain ⟨-, wal, hwal, fields, info, hfields, index, hindex, rfl⟩ :=
    (open_eq_ok_iff_init hne).mp hopen
  have hlog : wal = db.wal := Except.ok.inj (hwal.symm.trans h.log)
  have hnames : df.NamesLast index ∧ (db.indexFile = [] ∨ Encodes db.indexFile index) := by
    change Database.initIndex db.file db.indexFile = .ok index at hindex
    by_cases hempty : db.indexFile = []
    · rw [hempty, h.file] at hindex
      obtain ⟨-, rfl⟩ := decodeIndexFromFile_eq_ok_iff.mp hindex
      refine ⟨DataFile.namesLast_index fun x hx => ?_, .inl hempty⟩
      exact Nat.lt_of_le_of_lt (h.offsets x hx) (by decide)
    · have hencodes := h.indexFile.resolve_left hempty
      rw [initIndex_encoded hencodes h.lengthsMatch hempty] at hindex
      cases hindex
      exact ⟨h.names, .inr hencodes⟩
  refine ⟨h.file, ?_, hnames.1, hnames.2, h.offsets, fun k value hk => ?_⟩
  · rw [hlog]
    exact h.log
  · change (replay fields wal.entries).lookup k = value
    rw [lookup_replay, hk]
    rfl

/-- In every session on a new database the database stays aligned. -/
theorem aligned_of_session {db₀ : Database} {calls : List Call}
    {guard : Database → Call → Prop} (hopen : Database.open name ⟨[], [], []⟩ = .ok db₀)
    (hcalls : ∀ entry, .write entry ∈ calls → entry.Encodable)
    (hsession : Session name guard db₀ calls db) : ∃ df, Aligned df db := by
  obtain ⟨-, wal, hwal, rfl⟩ := (open_eq_ok_iff_new rfl).mp hopen
  cases hwal
  induction hsession with
  | nil => exact ⟨_, aligned_new name⟩
  | snoc hsession hguard hreturns ih =>
    rename_i calls db db' call
    obtain ⟨df, h⟩ := ih fun entry hentry => hcalls entry (List.mem_append_left _ hentry)
    cases hreturns with
    | write entry hrun hdone =>
      rw [shared_of_write hrun hdone]
      exact ⟨df, h.write (hcalls entry (by simp))⟩
    | flush hrun hdone =>
      obtain ⟨df', f, halone, hstage⟩ := alone_of_done h.sound hrun hdone
      exact ⟨df', h.flush halone hstage⟩
    | reopen hreopen => exact ⟨df, h.reopen hreopen⟩

/-- The bytes of a file in the extent of an index entry are a live record of
the key with a matching checksum, behind the header. -/
structure LiveRecordAt (file : Bytes) (k : Key) (e : IndexEntry) (field : Bytes) : Prop where
  /-- It lies behind the header. -/
  header : 114 ≤ e.offset.toNat
  /-- It is a live record with its checksum. -/
  bytes : (file.drop e.offset.toNat).take (14 + e.keyLen.toNat + e.fieldLen.toNat) =
    layout recordMagicNumber e.keyLen e.fieldLen
      (Crc.checksum (crcInput e.keyLen e.fieldLen k.asBytes field)) k.asBytes field
  /-- The key has the length of the entry. -/
  keyLen : k.len = e.keyLen.toNat
  /-- The field has the length of the entry. -/
  fieldLen : field.length = e.fieldLen.toNat

/-- An entry that names a live record has its bytes. -/
theorem liveRecordAt_of_isAt {k : Key} {e : IndexEntry} {x : Stored} (hx : x ∈ df.liveOf k)
    (hat : x.IsAt k e) : ∃ s ∈ df.slots, s.offset = x.offset ∧
      s.record.size = 14 + e.keyLen.toNat + e.fieldLen.toNat ∧
      s.record.isDead = false ∧ s.record.parts.key = k ∧
      LiveRecordAt df.bytes k e s.record.parts.field := by
  obtain ⟨s, hs, hlive, hkey, hoffset, hfield⟩ := DataFile.mem_live (mem_itemsOf.mp hx)
  have hkeyLen : e.keyLen = s.record.parts.keyLen := by
    rw [Parts.keyLen, hkey, ← hat.keyLen_eq, UInt16.ofNat_toNat]
  have hfieldLen : e.fieldLen = s.record.parts.fieldLen := by
    rw [Parts.fieldLen, hfield, ← hat.fieldLen_eq, UInt32.ofNat_toNat]
  have hsize : s.record.size = 14 + e.keyLen.toNat + e.fieldLen.toNat := by
    rw [Record.size, hkey, hfield, hat.keyLen_eq, hat.fieldLen_eq]
  refine ⟨s, hs, hoffset, hsize, hlive, hkey, ?_, ?_, ?_, ?_⟩
  · rw [hat.offset_eq, ← hoffset]
    exact (bounds_of_mem_slotsFrom hs).1
  · rw [hat.offset_eq, ← hoffset, ← hsize, DataFile.take_drop_of_mem_slots hs, hkeyLen,
      hfieldLen, Record.bytes, hlive, hkey]
    cases hrec : s.record with
    | live parts value used decodes =>
      rw [hrec] at hkey
      change parts.key = k at hkey
      simp only [Record.crc, Record.parts, hkey]
      rfl
    | dead parts crc =>
      rw [hrec] at hlive
      cases hlive
  · rw [hat.keyLen_eq]
  · rw [hfield, hat.fieldLen_eq]

omit [Crc] in
/-- Slots of different records do not overlap. -/
theorem disjoint_of_mem_slots {s t : Slot} (hs : s ∈ df.slots) (ht : t ∈ df.slots)
    (hne : s ≠ t) :
    s.offset + s.record.size ≤ t.offset ∨ t.offset + t.record.size ≤ s.offset := by
  have hapart : df.slots.Pairwise fun s t =>
      s.offset + s.record.size ≤ t.offset ∨ t.offset + t.record.size ≤ s.offset :=
    (slotsFrom_sorted 114 df.records).imp .inl
  have hsymm : Std.Symm fun s t : Slot =>
      s.offset + s.record.size ≤ t.offset ∨ t.offset + t.record.size ≤ s.offset :=
        ⟨fun _ _ => Or.symm⟩
  exact hapart.forall hs ht hne

/-- In every state that a session on a new database reaches, each index entry
names a live record of its key in the data file, with its exact size and a
matching checksum; it is the last live record of the key; and the records of
different keys do not overlap and lie behind the header. -/
theorem index_names_last_live {db₀ : Database} {calls : List Call}
    (hopen : Database.open name ⟨[], [], []⟩ = .ok db₀)
    (hcalls : ∀ entry, .write entry ∈ calls → entry.Encodable)
    (hsession : Session name anyCall db₀ calls db) :
    ∃ df : DataFile, db.file = df.bytes ∧
      (∀ k e, db.state.index.lookup k = some e → (∃ field, LiveRecordAt db.file k e field) ∧
        (df.liveOf k).getLast?.map Stored.offset = some e.offset.toNat) ∧
      ∀ k₁ e₁ k₂ e₂, db.state.index.lookup k₁ = some e₁ →
      db.state.index.lookup k₂ = some e₂ → k₁ ≠ k₂ →
        e₁.offset.toNat + (14 + e₁.keyLen.toNat + e₁.fieldLen.toNat) ≤ e₂.offset.toNat ∨
        e₂.offset.toNat + (14 + e₂.keyLen.toNat + e₂.fieldLen.toNat) ≤
          e₁.offset.toNat := by
  obtain ⟨df, h⟩ := aligned_of_session hopen hcalls hsession
  refine ⟨df, h.file, fun k e hk => ?_, fun k₁ e₁ k₂ e₂ hk₁ hk₂ hne => ?_⟩
  · obtain ⟨x, hx, hat⟩ := h.names k e hk
    obtain ⟨s, hs, hoffset, hsize, hlive, hkey, hrecord⟩ :=
      liveRecordAt_of_isAt (List.mem_of_getLast? hx) hat
    refine ⟨⟨_, h.file ▸ hrecord⟩, ?_⟩
    rw [hx, Option.map_some, hat.offset_eq]
  · obtain ⟨x₁, hx₁, hat₁⟩ := h.names k₁ e₁ hk₁
    obtain ⟨x₂, hx₂, hat₂⟩ := h.names k₂ e₂ hk₂
    obtain ⟨s₁, hs₁, hoffset₁, hsize₁, -, hkey₁, -⟩ :=
      liveRecordAt_of_isAt (List.mem_of_getLast? hx₁) hat₁
    obtain ⟨s₂, hs₂, hoffset₂, hsize₂, -, hkey₂, -⟩ :=
      liveRecordAt_of_isAt (List.mem_of_getLast? hx₂) hat₂
    have hslots : s₁ ≠ s₂ := by
      rintro rfl
      exact hne (hkey₁.symm.trans hkey₂)
    have hdisjoint := disjoint_of_mem_slots hs₁ hs₂ hslots
    rw [hoffset₁, hoffset₂, hsize₁, hsize₂] at hdisjoint
    rw [hat₁.offset_eq, hat₂.offset_eq]
    exact hdisjoint

end

/-- What the flushes of a session have done to a key: the number of its live
records, and whether the index knows it. -/
structure Tally where
  /-- The live records of the key. -/
  records : ℕ
  /-- The index knows the key. -/
  indexed : Bool
  deriving DecidableEq

/-- A flush with the last update that the log makes to the key: a `set` adds a
record, a `delete` takes away the one that the index knows. -/
def Tally.flush (t : Tally) : Option (Option Field) → Tally
  | none => t
  | some (some _) => ⟨t.records + 1, true⟩
  | some none => ⟨if t.indexed then t.records - 1 else t.records, false⟩

/-- One call, with the log entries since the last flush. -/
def tallyCall (k : Key) (s : List WalEntry × Tally) : Call → List WalEntry × Tally
  | .write entry => (s.1 ++ [entry], s.2)
  | .flush => ([], s.2.flush (lastValue k s.1))
  | .reopen => s

/-- The tally of a key when the calls have been made on a new database. -/
def tally (k : Key) (calls : List Call) : List WalEntry × Tally :=
  calls.foldl (tallyCall k) ([], ⟨0, false⟩)

/-- The last call is tallied last. -/
theorem tally_concat (k : Key) (calls : List Call) (call : Call) :
    tally k (calls ++ [call]) = tallyCall k (tally k calls) call := by
  rw [tally, List.foldl_append]
  rfl

section

variable [Crc] {name : String} {df : DataFile} {db : Database}

/-- The tally counts the live records of the key and knows whether the index
has it. -/
structure Tallied (df : DataFile) (db : Database) (k : Key)
    (s : List WalEntry × Tally) : Prop where
  /-- The log has the entries behind the last flush. -/
  entries : db.wal.entries = s.1
  /-- The key has as many live records. -/
  records : (df.liveOf k).length = s.2.records
  /-- The index knows the key as tallied. -/
  indexed : (db.state.index.lookup k).isSome = s.2.indexed

omit [Crc] in
/-- A flush does to a key what its tally says. -/
theorem Tallied.flush {df' : DataFile} {db' : Database} {k : Key} {s : List WalEntry × Tally}
    (h : Tallied df db k s) (hnames : df.NamesLast db.state.index)
    (hflushed : FlushedAt df db df' db'.state.index k) (hwal : db'.wal = ⟨[], []⟩) :
    Tallied df' db' k (tallyCall k s .flush) where
  entries := by
    rw [hwal]
    rfl
  records := by
    rw [tallyCall, ← h.entries, ← map_value_lastEntry]
    cases hflushed with
    | kept hlast hlive =>
      rw [hlast, hlive]
      exact h.records
    | set field x hlast hvalue hlive =>
      rw [hlast, hlive, List.length_append, h.records]
      rfl
    | deleted hlast hlive =>
      rw [hlast, hlive]
      simp only [Option.map_some, WalEntry.value, Tally.flush]
      cases he : db.state.index.lookup k with
      | none =>
        rw [← h.indexed, he]
        exact h.records
      | some e =>
        obtain ⟨x, hx, hat⟩ := hnames k e he
        rw [← h.indexed, he, spared_eq_dropLast hx hat.offset_eq, List.length_dropLast, h.records]
        rfl
  indexed := by
    rw [hflushed.isSome_lookup, flushedIndexed, tallyCall, ← h.entries, ← map_value_lastEntry]
    cases hflushed with
    | kept hlast =>
      rw [hlast]
      exact h.indexed
    | set field x hlast =>
      rw [hlast]
      rfl
    | deleted hlast =>
      rw [hlast]
      rfl

/-- In every session of writes and flushes on a new database, the tally of
each key is right. -/
theorem tallied_of_session {db₀ : Database} {calls : List Call}
    {guard : Database → Call → Prop} (hopen : Database.open name ⟨[], [], []⟩ = .ok db₀)
    (hcalls : ∀ entry, .write entry ∈ calls → entry.Encodable) (hreopen : .reopen ∉ calls)
    (hsession : Session name guard db₀ calls db) :
    ∃ df, Aligned df db ∧ ∀ k, Tallied df db k (tally k calls) := by
  obtain ⟨-, wal, hwal, rfl⟩ := (open_eq_ok_iff_new rfl).mp hopen
  cases hwal
  induction hsession with
  | nil => exact ⟨_, aligned_new name, fun k => ⟨rfl, rfl, rfl⟩⟩
  | snoc hsession hguard hreturns ih =>
    rename_i calls db db' call
    obtain ⟨df, h, htally⟩ := ih (fun entry hentry => hcalls entry (List.mem_append_left _ hentry))
      (fun hmem => hreopen (List.mem_append_left _ hmem))
    simp only [tally_concat]
    cases hreturns with
    | write entry hrun hdone =>
      rw [shared_of_write hrun hdone]
      refine ⟨df, h.write (hcalls entry (by simp)),
        fun k => ⟨?_, (htally k).records, (htally k).indexed⟩⟩
      exact congrArg (· ++ [entry]) (htally k).entries
    | flush hrun hdone =>
      obtain ⟨df', f, halone, hstage⟩ := alone_of_done h.sound hrun hdone
      exact ⟨df', h.flush halone hstage, fun k =>
        (htally k).flush h.names (halone.flushedAt_done hstage k) (halone.wal_done hstage)⟩
    | reopen _ => exact absurd (by simp) hreopen

/-- A key without an index entry has no live records, and neither has the
empty key. -/
def Tally.Clean (t : Tally) (k : Key) : Prop :=
  (t.indexed = false → t.records = 0) ∧ (k.asBytes = [] → t.records = 0)

omit [Crc] in
/-- The index of a data file is the one that names its last live records
exactly when it knows all keys that have live records. -/
theorem eq_index_iff {index : HashMap Key IndexEntry} (h : df.NamesLast index) :
    index = df.index ↔ ∀ k, index.lookup k = none → df.liveOf k = [] := by
  constructor
  · rintro rfl k hk
    rw [DataFile.lookup_index, Option.map_eq_none_iff, List.getLast?_eq_none_iff] at hk
    exact hk
  · intro hall
    apply Finmap.ext_lookup
    intro k
    rw [DataFile.lookup_index]
    cases hk : index.lookup k with
    | none =>
      rw [hall k hk]
      rfl
    | some e =>
      obtain ⟨x, hx, hat⟩ := h k e hk
      rw [hx, hat.eq_entry]
      rfl

omit [Crc] in
/-- No live key is empty exactly when the empty key has no live records. -/
theorem liveKeys_iff : (∀ x ∈ df.live, x.1.asBytes ≠ []) ↔ ∀ k : Key, k.asBytes = [] →
    df.liveOf k = [] := by
  constructor
  · intro h k hk
    by_contra hne
    obtain ⟨x, hx⟩ := List.exists_mem_of_ne_nil _ hne
    exact h (k, x) (mem_itemsOf.mp hx) hk
  · intro h x hx hkey
    have hmem : x.2 ∈ df.liveOf x.1 := mem_itemsOf.mpr hx
    rw [h x.1 hkey] at hmem
    cases hmem

/-- After a flush that has returned, the index file decodes to the index. -/
theorem decodeIndexFile_of_session {db₀ : Database} {calls : List Call}
    {guard : Database → Call → Prop} (hopen : Database.open name ⟨[], [], []⟩ = .ok db₀)
    (hcalls : ∀ entry, .write entry ∈ calls → entry.Encodable)
    (hsession : Session name guard db₀ (calls ++ [.flush]) db) :
    (do let d ← (IndexDecoder.new db.indexFile).decodeIndexFile; d.finish) =
      .ok db.state.index := by
  generalize hall : calls ++ [.flush] = all at hsession
  cases hsession with
  | nil => cases calls <;> cases hall
  | snoc hsession hguard hreturns =>
    obtain ⟨rfl, hlast⟩ := List.append_inj' hall rfl
    cases hlast
    obtain ⟨df, h⟩ := aligned_of_session hopen hcalls hsession
    cases hreturns with
    | flush hrun hdone =>
      obtain ⟨df', f, halone, hstage⟩ := alone_of_done h.sound hrun hdone
      obtain ⟨order, horder, hbytes⟩ := halone.encodes_done hstage
      rw [hbytes]
      exact decodeIndexFile_encodeIndexFile horder (h.flush halone hstage).lengthsMatch

/-- In a session of writes and flushes on a new database that ends with a
flush, the index that is rebuilt from the data file is the saved one exactly
when every key without an index entry has no live record left and the empty
key has none. -/
theorem rebuilt_index_eq_saved_iff {db₀ : Database} {calls : List Call}
    (hopen : Database.open name ⟨[], [], []⟩ = .ok db₀)
    (hcalls : ∀ entry, .write entry ∈ calls → entry.Encodable) (hreopen : .reopen ∉ calls)
    (hsession : Session name anyCall db₀ (calls ++ [.flush]) db) :
    (∃ index, (do let d ← (IndexFromDBDecoder.new db.file).decodeIndexFromFile; d.finish) =
      .ok index ∧
      (do let d ← (IndexDecoder.new db.indexFile).decodeIndexFile; d.finish) = .ok index) ↔
      ∀ k, (tally k (calls ++ [.flush])).2.Clean k := by
  obtain ⟨df, h, htally⟩ := tallied_of_session hopen
    (fun entry hentry => hcalls entry (by simpa using hentry)) (by simpa using hreopen) hsession
  have hrecords : ∀ k, (tally k (calls ++ [.flush])).2.records = 0 ↔ df.liveOf k = [] := by
    intro k
    rw [← (htally k).records, List.length_eq_zero_iff]
  have hindexed : ∀ k, (tally k (calls ++ [.flush])).2.indexed = false ↔
      db.state.index.lookup k = none := by
    intro k
    rw [← (htally k).indexed, Option.isSome_eq_false_iff, Option.isNone_iff_eq_none]
  rw [decodeIndexFile_of_session hopen hcalls hsession, h.file]
  simp only [decodeIndexFromFile_eq_ok_iff, Except.ok.injEq, exists_eq_right', Tally.Clean,
    hrecords, hindexed, forall_and, liveKeys_iff, eq_index_iff h.names]
  exact and_comm

end

open scoped IsoHdlc

/-- A key is set and flushed twice, deleted, flushed and looked up after
reopening: its older record is in the index again. -/
theorem index_names_last_live_flushedTwice :
    let db := (performAll "db" anyCall flushedTwice (Database.new "db" [] ⟨[], []⟩)).get
      flushedTwice_runs
    db.state.index.lookup (.ofText "k") = some ⟨114, 1, 9⟩ ∧
      ∃ df : DataFile, db.file = df.bytes ∧
        (∀ k e, db.state.index.lookup k = some e →
          (∃ field, LiveRecordAt db.file k e field) ∧
          (df.liveOf k).getLast?.map Stored.offset = some e.offset.toNat) ∧
        ∀ k₁ e₁ k₂ e₂, db.state.index.lookup k₁ = some e₁ →
        db.state.index.lookup k₂ = some e₂ → k₁ ≠ k₂ →
          e₁.offset.toNat + (14 + e₁.keyLen.toNat + e₁.fieldLen.toNat) ≤
            e₂.offset.toNat ∨
          e₂.offset.toNat + (14 + e₂.keyLen.toNat + e₂.fieldLen.toNat) ≤
            e₁.offset.toNat := by
  have hvalid : ∀ call ∈ flushedTwice.map Prod.fst, call.Valid := by decide +kernel
  have hsession : Session "db" anyCall _ _ _ :=
    session_of_performAll .nil (Option.some_get flushedTwice_runs).symm
  exact ⟨by decide +kernel, index_names_last_live rfl (fun entry hentry => (hvalid _ hentry).1)
    hsession⟩

/-- The session comes to its end. -/
theorem flushedDelete_saved_runs :
    (performAll "db" anyCall (flushedDelete.take 4)
      (Database.new "db" [] ⟨[], []⟩)).isSome := by
  decide +kernel

/-- In a session that flushes a key and its deletion, both indexes are empty. -/
theorem rebuilt_index_eq_saved_iff_flushedDelete :
    let db := (performAll "db" anyCall (flushedDelete.take 4)
      (Database.new "db" [] ⟨[], []⟩)).get
      flushedDelete_saved_runs
    let calls := (flushedDelete.take 3).map Prod.fst
    (∃ index, (do let d ← (IndexFromDBDecoder.new db.file).decodeIndexFromFile; d.finish) =
      .ok index ∧
      (do let d ← (IndexDecoder.new db.indexFile).decodeIndexFile; d.finish) = .ok index) ↔
      ∀ k, (tally k (calls ++ [.flush])).2.Clean k := by
  have hvalid : ∀ call ∈ (flushedDelete.take 3).map Prod.fst, call.Valid := by decide +kernel
  have hsession : Session "db" anyCall _ _ _ :=
    session_of_performAll .nil (Option.some_get flushedDelete_saved_runs).symm
  exact rebuilt_index_eq_saved_iff rfl (fun entry hentry => (hvalid _ hentry).1)
    (by decide) hsession

/-- The session comes to its end. -/
theorem flushedTwice_saved_runs :
    (performAll "db" anyCall (flushedTwice.take 6) (Database.new "db" [] ⟨[], []⟩)).isSome := by
  decide +kernel

/-- When a key is set and flushed twice before its deletion is flushed, the
rebuilt index has its older record and the saved one is empty. -/
theorem rebuilt_index_has_deleted_key :
    let db := (performAll "db" anyCall (flushedTwice.take 6)
      (Database.new "db" [] ⟨[], []⟩)).get
      flushedTwice_saved_runs
    Database.open "db" ⟨[], [], []⟩ = .ok (Database.new "db" [] ⟨[], []⟩) ∧
      Session "db" anyCall (Database.new "db" [] ⟨[], []⟩) ((flushedTwice.take 6).map Prod.fst)
        db ∧
      (∀ call ∈ (flushedTwice.take 6).map Prod.fst, call.Valid) ∧
      (do let d ← (IndexFromDBDecoder.new db.file).decodeIndexFromFile; d.finish) =
        .ok (Finmap.singleton (.ofText "k") ⟨114, 1, 9⟩) ∧
      (do let d ← (IndexDecoder.new db.indexFile).decodeIndexFile; d.finish) = .ok ∅ :=
  ⟨rfl, session_of_performAll .nil (Option.some_get flushedTwice_saved_runs).symm,
    by decide +kernel, by decide +kernel, by decide +kernel⟩

end Db

end PeachDB
