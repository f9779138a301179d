import PeachDB.WireValues

/-!
# The two scanners of the data file

The data decoder reads and checks every record; the index scan moves over
checksums and fields. On an accepted file without empty live keys they stop at
the same records, and the bytes at an index entry are decoded to the value of
its key. A tombstone over one record leaves out that record for both of them
and keeps every other record where it is.
-/

namespace PeachDB

open LittleEndian Dtypes RecordCodec IndexCodec

/-- `decode_index_from_file` and `finish` on the contents of a data file. -/
def scanFile (file : Bytes) : PDBResult (HashMap Key IndexEntry) := do
  let decoder ← (IndexFromDBDecoder.new file).decodeIndexFromFile
  decoder.finish

/-- What `DBDeleter` writes for a record with the given lengths. -/
def deletedField (keyLen : UInt16) (fieldLen : UInt32) : Bytes :=
  (((DBDeleter.new.setKeyLen keyLen).setFieldLen fieldLen).getDeletedField).finish

/-- The map that a sequence of records stands for. -/
def fieldsOf (slots : List Slot) : HashMap Key Field :=
  insertAll ∅ ((slots.filterMap Slot.stored?).map fun x => (x.1, x.2.value))

/-- The index of a sequence of records. -/
def indexOf (slots : List Slot) : HashMap Key IndexEntry :=
  insertAll ∅ ((slots.filterMap Slot.stored?).map fun x => (x.1, x.2.entry x.1))

/-- A tombstone takes as many bytes as its record. -/
@[simp] theorem length_deletedField (keyLen : UInt16) (fieldLen : UInt32) :
    (deletedField keyLen fieldLen).length = 14 + keyLen.toNat + fieldLen.toNat := by
  simp [deletedField, DBDeleter.finish, DBDeleter.getDeletedField, DBDeleter.write,
    DBDeleter.setKeyLen, DBDeleter.setFieldLen, DBDeleter.new]
  omega

/-- The length of a record by its stored lengths. -/
theorem Record.size_eq (r : Record) :
    14 + r.parts.keyLen.toNat + r.parts.fieldLen.toNat = r.size := by
  rw [Parts.toNat_keyLen, Parts.toNat_fieldLen, size]

namespace DataFile

variable {df : DataFile} {s : Slot}

/-- The slots around a record, before and after it is made a tombstone. -/
theorem slots_around (h : s ∈ df.slots) : ∃ before behind, df.slots = before ++ s :: behind ∧
    (df.tombstone s.offset).slots = before ++ ⟨s.offset, s.record.tombstone⟩ :: behind := by
  obtain ⟨pre, post, hsplit, hoffset, htomb⟩ := records_tombstone h
  refine ⟨slotsFrom 114 pre, slotsFrom (s.offset + s.record.size) post, ?_, ?_⟩
  · rw [slots, hsplit, slotsFrom_append, slotsFrom, ← hoffset]
  · rw [slots, htomb, slotsFrom_append, slotsFrom, ← hoffset, Record.size_tombstone]

/-- A slot lies inside the file. -/
theorem slot_inside [Crc] (h : s ∈ df.slots) : s.offset + s.record.size ≤ df.bytes.length := by
  rw [length_bytes]
  exact (bounds_of_mem_slotsFrom h).2

/-- A file in which the decoder counts no live record of the empty key. -/
theorem ne_nil_of_liveCount [Crc] (h : liveCount df.bytes ⟨[]⟩ = 0) :
    ∀ x ∈ df.live, x.1.asBytes ≠ [] := by
  intro x hx hnil
  rw [liveCount_bytes, List.length_eq_zero_iff] at h
  have hmem : x.2 ∈ df.liveOf ⟨[]⟩ := by
    rw [liveOf, mem_itemsOf, ← hnil]
    exact hx
  rw [h] at hmem
  cases hmem

/-- An index entry is an extent inside the file, and its bytes are the last live
record of the key. -/
theorem decode_at_entry [Crc] (hlen : df.bytes.length < 2 ^ 64) {k : Key} {e : IndexEntry}
    (h : df.index.lookup k = some e) :
    e.offset.toNat + 14 + e.keyLen.toNat + e.fieldLen.toNat ≤ df.bytes.length ∧
      ∃ field, df.fields.lookup k = some field ∧
        ∀ iter : HashMap Key Field → List (Key × Field), (∀ m, IterOrder m (iter m)) →
          decode iter ((df.bytes.drop e.offset.toNat).take
            (14 + e.keyLen.toNat + e.fieldLen.toNat)) =
            .ok (k, field) := by
  rw [lookup_index] at h
  obtain ⟨x, hx, rfl⟩ := Option.map_eq_some_iff.mp h
  have hlive : (k, x) ∈ df.live := mem_itemsOf.mp (List.mem_of_getLast? hx)
  obtain ⟨s, hs, hstored⟩ := List.mem_filterMap.mp hlive
  obtain ⟨value, hvalue, heq⟩ := Option.map_eq_some_iff.mp hstored
  cases heq
  have hinside := slot_inside hs
  have hoffset : (UInt64.ofNat s.offset).toNat = s.offset := by
    rw [UInt64.toNat_ofNat', Nat.mod_eq_of_lt (by omega)]
  have hextent : (UInt64.ofNat s.offset).toNat + 14 + s.record.parts.keyLen.toNat +
      s.record.parts.fieldLen.toNat ≤ df.bytes.length := by
    rw [← s.record.size_eq] at hinside
    omega
  refine ⟨hextent, value, by rw [lookup_fields, hx, Option.map_some], ?_⟩
  intro iter hiter
  change decode iter ((df.bytes.drop (UInt64.ofNat s.offset).toNat).take
    (14 + s.record.parts.keyLen.toNat + s.record.parts.fieldLen.toNat)) = _
  rw [hoffset, s.record.size_eq, take_drop_of_mem_slots hs]
  exact decode_record hiter hvalue

end DataFile

/-- On a file that the data decoder accepts and that has no live record with an
empty key, the index scan succeeds, knows the same keys, and has for each of
them an extent inside the file whose bytes are decoded to the key and its value.
Positions in a buffer have 64 bits. -/
theorem scanners_agree [Crc] {file : Bytes} {fields : HashMap Key Field} {info : DbMeta}
    (hlen : file.length < 2 ^ 64) (hfile : decodeFile file = .ok (fields, info))
    (hempty : liveCount file ⟨[]⟩ = 0) :
    ∃ index, scanFile file = .ok index ∧ (∀ k, k ∈ index ↔ k ∈ fields) ∧
      ∀ k e, index.lookup k = some e →
        e.offset.toNat + 14 + e.keyLen.toNat + e.fieldLen.toNat ≤ file.length ∧
        ∃ field, fields.lookup k = some field ∧
          ∀ iter : HashMap Key Field → List (Key × Field), (∀ m, IterOrder m (iter m)) →
            decode iter ((file.drop e.offset.toNat).take (14 + e.keyLen.toNat + e.fieldLen.toNat)) =
              .ok (k, field) := by
  obtain ⟨df, rfl, rfl, rfl⟩ := decodeDbFile_eq_ok_iff.mp hfile
  refine ⟨df.index, decodeIndexFromFile_bytes (DataFile.ne_nil_of_liveCount hempty), ?_, ?_⟩
  · intro k
    rw [← Finmap.lookup_isSome, ← Finmap.lookup_isSome, DataFile.lookup_index,
      DataFile.lookup_fields, Option.isSome_map, Option.isSome_map]
  · intro k e hk
    exact DataFile.decode_at_entry hlen hk

/-- The deleter's output over a live record keeps the length of the file and
every byte outside the record. Both scanners then return what the sequence of
records without that one stands for, and writing it again changes nothing. -/
theorem tombstone_leaves_out_record [Crc] {file : Bytes} {fields : HashMap Key Field}
    {info : DbMeta} {index : HashMap Key IndexEntry} (hfile : decodeFile file = .ok (fields, info))
    (hscan : scanFile file = .ok index) :
    ∃ df : DataFile, file = df.bytes ∧ fields = fieldsOf df.slots ∧
      index = indexOf df.slots ∧
      ∀ s ∈ df.slots, s.record.isDead = false →
        let keyLen := s.record.parts.keyLen
        let fieldLen := s.record.parts.fieldLen
        let after := overwrite file s.offset (deletedField keyLen fieldLen)
        after.length = file.length ∧
        (∀ i, i < s.offset ∨ s.offset + (14 + keyLen.toNat + fieldLen.toNat) ≤ i →
          after[i]? = file[i]?) ∧
        (∃ before behind, df.slots = before ++ s :: behind ∧
          decodeFile after = .ok (fieldsOf (before ++ behind), info) ∧
          scanFile after = .ok (indexOf (before ++ behind))) ∧
        overwrite after s.offset (deletedField keyLen fieldLen) = after := by
  obtain ⟨df, rfl, rfl, rfl⟩ := decodeDbFile_eq_ok_iff.mp hfile
  obtain ⟨hne, rfl⟩ := decodeIndexFromFile_eq_ok_iff.mp hscan
  refine ⟨df, rfl, rfl, rfl, ?_⟩
  intro s hs _ keyLen fieldLen after
  have hinside : s.offset + (deletedField keyLen fieldLen).length ≤ df.bytes.length := by
    rw [length_deletedField, s.record.size_eq]
    exact DataFile.slot_inside hs
  have hafter : after = (df.tombstone s.offset).bytes := DataFile.overwrite_slot hs
  obtain ⟨before, behind, hslots, htomb⟩ := DataFile.slots_around hs
  have hleft : (df.tombstone s.offset).slots.filterMap Slot.stored? =
      (before ++ behind).filterMap Slot.stored? := by
    rw [htomb, List.filterMap_append, List.filterMap_append, List.filterMap_cons]
    rfl
  have hkeys : ∀ x ∈ (df.tombstone s.offset).live, x.1.asBytes ≠ [] := by
    intro x hx
    rw [DataFile.live_tombstone] at hx
    exact hne x (List.mem_of_mem_filter hx)
  refine ⟨length_overwrite hinside, ?_, ⟨before, behind, hslots, ?_, ?_⟩,
    overwrite_overwrite hinside⟩
  · intro i hi
    rw [← length_deletedField] at hi
    exact getElem?_overwrite hinside hi
  · rw [hafter, decodeFile_bytes, DataFile.fields, DataFile.live, hleft]
    rfl
  · have hindex := decodeIndexFromFile_bytes hkeys
    rw [DataFile.index, DataFile.live, hleft] at hindex
    rw [hafter]
    exact hindex

open scoped IsoHdlc

/-- A file with two records of one key, and one of another. -/
def twoCopies : DataFile where
  header := .ofMeta ⟨1, 3, "db"⟩
  records :=
    [.ofPair (.ofText "a") (.primitive (.integer 7)) (by decide) (by decide),
      .ofPair (.ofText "b") (.raw []) (by decide) (by decide),
      .ofPair (.ofText "a") (.primitive (.integer 8)) (by decide) (by decide)]

/-- There the index has two keys. -/
theorem scanners_agree_twoCopies :
    ∃ index, scanFile twoCopies.bytes = .ok index ∧ ∀ k, k ∈ index ↔
      k ∈ twoCopies.fields := by
  obtain ⟨index, hscan, hkeys, -⟩ := scanners_agree (by rw [DataFile.length_bytes]; decide +kernel)
    (decodeFile_bytes twoCopies) (by decide +kernel)
  exact ⟨index, hscan, hkeys⟩

/-- The later of the two records is left out, and the earlier one counts. -/
theorem tombstone_leaves_out_record_twoCopies :
    ∃ s before behind, twoCopies.slots = before ++ s :: behind ∧ s.offset = 154 ∧
      decodeFile (overwrite twoCopies.bytes s.offset
        (deletedField s.record.parts.keyLen s.record.parts.fieldLen)) =
          .ok (fieldsOf (before ++ behind), twoCopies.header.info) := by
  have hne : ∀ x ∈ twoCopies.live, x.1.asBytes ≠ [] := by decide +kernel
  obtain ⟨df, hbytes, -, -, hslots⟩ :=
    tombstone_leaves_out_record (decodeFile_bytes twoCopies) (decodeIndexFromFile_bytes hne)
  have hsame : df.slots = twoCopies.slots := by
    rw [DataFile.slots, DataFile.slots, DataFile.records_eq_of_bytes_eq hbytes]
  let s : Slot := ⟨154, .ofPair (.ofText "a") (.primitive (.integer 8)) (by decide) (by decide)⟩
  have hs : s ∈ df.slots := by
    rw [hsame]
    exact .tail _ (.tail _ (.head _))
  obtain ⟨-, -, ⟨before, behind, hsplit, hdecode, -⟩, -⟩ := hslots s hs rfl
  exact ⟨s, before, behind, hsame ▸ hsplit, rfl, hdecode⟩

end PeachDB
