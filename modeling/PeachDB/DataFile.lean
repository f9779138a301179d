import PeachDB.IndexCodec

/-!
# Data files as sequences of records

What a `.db` file stands for: a header and whole records, each live or a
tombstone. The decoder accepts exactly the bytes of such files. Appending a
record and writing a tombstone over one act on the sequence of live records
as adding and leaving out one item, and keep every extent in place.
-/

namespace PeachDB

open LittleEndian Dtypes RecordCodec IndexCodec

/-- A whole record. The field bytes of a live record decode to its value. -/
inductive Record
  | live (parts : Parts) (value : Field) (used : ℕ)
      (decodes : fieldFromBytes parts.field = .ok (value, used))
  | dead (parts : Parts) (crc : UInt32)

namespace Record

/-- The lengths, the key and the field bytes of a record. -/
def parts : Record → Parts
  | live parts _ _ _ => parts
  | dead parts _ => parts

/-- The record has been deleted. -/
def isDead : Record → Bool
  | live _ _ _ _ => false
  | dead _ _ => true

/-- The value of a live record. -/
def value? : Record → Option Field
  | live _ value _ _ => some value
  | dead _ _ => none

/-- The stored checksum; the one of a live record is right. -/
def crc [Crc] : Record → UInt32
  | live parts _ _ _ =>
    Crc.checksum (crcInput parts.keyLen parts.fieldLen parts.key.asBytes parts.field)
  | dead _ crc => crc

/-- The record as bytes. -/
def bytes [Crc] (r : Record) : Bytes :=
  layout (magicOf r.isDead) r.parts.keyLen r.parts.fieldLen r.crc r.parts.key.asBytes r.parts.field

/-- The length of the record: 14 bytes before the key and the field. -/
def size (r : Record) : ℕ := 14 + r.parts.key.len + r.parts.field.length

/-- A record takes its size in the file. -/
@[simp] theorem length_bytes [Crc] (r : Record) : r.bytes.length = r.size := by
  simp only [bytes, layout, List.length_append, length_magicOf, length_ofU16, length_ofU32, size,
    Key.len]

/-- The live record of a pair that can be encoded. -/
def ofPair (key : Key) (field : Field) (hkey : key.Encodable) (hfield : field.Encodable) : Record :=
  live ⟨key, bytesFromField field, hkey, hfield.2⟩ field _
    (fieldFromBytes_bytesFromField hfield)

/-- The encoder writes whole records. -/
theorem bytes_ofPair [Crc] (key : Key) (field : Field) (hkey : key.Encodable)
    (hfield : field.Encodable) : (ofPair key field hkey hfield).bytes = encode key field := by
  rw [encode_eq]
  rfl

/-- The tombstone of a record: the same lengths over zero bytes. -/
def tombstone (r : Record) : Record :=
  dead
    { key := ⟨List.replicate r.parts.key.len 0⟩
      field := List.replicate r.parts.field.length 0
      key_lt := by rw [Key.Encodable, Key.len, List.length_replicate]; exact r.parts.key_lt
      field_lt := by rw [List.length_replicate]; exact r.parts.field_lt }
    0

/-- A record keeps its size when it is deleted. -/
@[simp] theorem size_tombstone (r : Record) : r.tombstone.size = r.size := by
  simp only [tombstone, size, parts, Key.len, List.length_replicate]

/-- A tombstone is not alive. -/
@[simp] theorem isDead_tombstone (r : Record) : r.tombstone.isDead = true := rfl

/-- A tombstone has no value. -/
@[simp] theorem value?_tombstone (r : Record) : r.tombstone.value? = none := rfl

/-- The deleter writes the tombstone of any record with its lengths. -/
theorem bytes_tombstone [Crc] (r : Record) :
    r.tombstone.bytes = (((DBDeleter.new.setKeyLen r.parts.keyLen).setFieldLen
      r.parts.fieldLen).getDeletedField).finish := by
  have hkey : r.tombstone.parts.keyLen = r.parts.keyLen := by
    simp only [tombstone, parts, Parts.keyLen, Key.len, List.length_replicate]
  have hfield : r.tombstone.parts.fieldLen = r.parts.fieldLen := by
    simp only [tombstone, parts, Parts.fieldLen, List.length_replicate]
  rw [bytes, hkey, hfield]
  simp [layout, tombstone, parts, isDead, crc, magicOf, DBDeleter.finish, DBDeleter.getDeletedField,
    DBDeleter.write, DBDeleter.setKeyLen, DBDeleter.setFieldLen, DBDeleter.new]
  rfl

end Record

/-- A record together with the offset of its first byte. -/
structure Slot where
  /-- Where the record begins in the file. -/
  offset : ℕ
  /-- The record that stands there. -/
  record : Record

/-- What a live record holds, apart from its key. -/
structure Stored where
  /-- Where the record begins in the file. -/
  offset : ℕ
  /-- The length of the field bytes. -/
  fieldLen : ℕ
  /-- The value that is decoded from them. -/
  value : Field
  deriving DecidableEq

/-- The index entry of a live record. -/
def Stored.entry (key : Key) (x : Stored) : IndexEntry where
  offset := UInt64.ofNat x.offset
  keyLen := UInt16.ofNat key.len
  fieldLen := UInt32.ofNat x.fieldLen

namespace Slot

/-- The live record in a slot. -/
def stored? (s : Slot) : Option (Key × Stored) :=
  s.record.value?.map fun value =>
    (s.record.parts.key, ⟨s.offset, s.record.parts.field.length, value⟩)

/-- The entry covers the slot, and a live record in it has the given key. -/
structure Holds (s : Slot) (k : Key) (e : IndexEntry) : Prop where
  /-- The entry points to the slot. -/
  offset_eq : e.offset.toNat = s.offset
  /-- It has the key length of the record. -/
  keyLen_eq : e.keyLen = s.record.parts.keyLen
  /-- It has the field length of the record. -/
  fieldLen_eq : e.fieldLen = s.record.parts.fieldLen
  /-- The record is one of the key, as long as it is alive. -/
  key_eq : s.record.isDead = false → s.record.parts.key = k

end Slot

/-- The slots of records laid out one after another from `base` on. -/
def slotsFrom (base : ℕ) : List Record → List Slot
  | [] => []
  | r :: rs => ⟨base, r⟩ :: slotsFrom (base + r.size) rs

/-- The length of a sequence of records. -/
def totalSize (rs : List Record) : ℕ := (rs.map Record.size).sum

/-- Records lie one behind another. -/
theorem length_flatMap_bytes [Crc] (rs : List Record) :
    (rs.flatMap Record.bytes).length = totalSize rs := by
  simp only [List.length_flatMap, totalSize, Record.length_bytes]

/-- Records that are appended lie behind the ones before. -/
theorem slotsFrom_append (base : ℕ) (rs ts : List Record) :
    slotsFrom base (rs ++ ts) = slotsFrom base rs ++ slotsFrom (base + totalSize rs) ts := by
  induction rs generalizing base with
  | nil => rfl
  | cons r rs ih =>
    simp only [List.cons_append, slotsFrom, ih, totalSize, List.map_cons, List.sum_cons,
      Nat.add_assoc]

/-- A slot lies inside the sequence. -/
theorem bounds_of_mem_slotsFrom {base : ℕ} {rs : List Record} {s : Slot}
    (h : s ∈ slotsFrom base rs) :
    base ≤ s.offset ∧ s.offset + s.record.size ≤ base + totalSize rs := by
  induction rs generalizing base with
  | nil => cases h
  | cons r rs ih =>
    simp only [slotsFrom, List.mem_cons] at h
    simp only [totalSize, List.map_cons, List.sum_cons]
    rcases h with rfl | h
    · dsimp only
      omega
    · obtain ⟨hle, hend⟩ := ih h
      simp only [totalSize] at hend
      omega

/-- The records before and behind a slot. -/
theorem split_of_mem_slotsFrom {base : ℕ} {rs : List Record} {s : Slot}
    (h : s ∈ slotsFrom base rs) :
    ∃ pre post, rs = pre ++ s.record :: post ∧ s.offset = base + totalSize pre := by
  induction rs generalizing base with
  | nil => cases h
  | cons r rs ih =>
    simp only [slotsFrom, List.mem_cons] at h
    rcases h with rfl | h
    · exact ⟨[], rs, rfl, rfl⟩
    · obtain ⟨pre, post, rfl, hoff⟩ := ih h
      refine ⟨r :: pre, post, rfl, ?_⟩
      simp only [hoff, totalSize, List.map_cons, List.sum_cons, Nat.add_assoc]

/-- No record is empty. -/
theorem Record.size_pos (r : Record) : 0 < r.size := by
  rw [Record.size]
  omega

/-- Slots at one offset are one slot. -/
theorem slot_unique {base : ℕ} {rs : List Record} {s t : Slot} (hs : s ∈ slotsFrom base rs)
    (ht : t ∈ slotsFrom base rs) (h : s.offset = t.offset) : s = t := by
  induction rs generalizing base with
  | nil => cases hs
  | cons r rs ih =>
    have hpos := r.size_pos
    simp only [slotsFrom, List.mem_cons] at hs ht
    rcases hs with rfl | hs <;> rcases ht with rfl | ht
    · rfl
    · have := (bounds_of_mem_slotsFrom ht).1
      dsimp only at h
      omega
    · have := (bounds_of_mem_slotsFrom hs).1
      dsimp only at h
      omega
    · exact ih hs ht

/-- The record in a slot after a tombstone is written at `offset`. -/
def Slot.tombstoneAt (offset : ℕ) (s : Slot) : Record :=
  if s.offset = offset then s.record.tombstone else s.record

/-- A slot keeps its size when it is deleted. -/
theorem Slot.size_tombstoneAt (offset : ℕ) (s : Slot) :
    (s.tombstoneAt offset).size = s.record.size := by
  rw [tombstoneAt]
  split
  · exact s.record.size_tombstone
  · rfl

/-- Tombstones keep all slots in place. -/
theorem slotsFrom_map_tombstoneAt (offset base : ℕ) (rs : List Record) :
    slotsFrom base ((slotsFrom base rs).map (Slot.tombstoneAt offset)) =
      (slotsFrom base rs).map fun s => ⟨s.offset, s.tombstoneAt offset⟩ := by
  induction rs generalizing base with
  | nil => rfl
  | cons r rs ih => simp only [slotsFrom, List.map_cons, Slot.size_tombstoneAt, ih]

/-- Only the slot at the offset changes. -/
theorem map_tombstoneAt_eq {offset base : ℕ} {rs : List Record}
    (h : ∀ s ∈ slotsFrom base rs, s.offset ≠ offset) :
    (slotsFrom base rs).map (Slot.tombstoneAt offset) = rs := by
  induction rs generalizing base with
  | nil => rfl
  | cons r rs ih =>
    simp only [slotsFrom, List.mem_cons, forall_eq_or_imp] at h
    rw [slotsFrom, List.map_cons, ih h.2, Slot.tombstoneAt, if_neg h.1]

/-- The header of a data file. The decoder asks that each of the four section
keys is one of the known ones, in any order, and does not look at the magic
word and the minor version. -/
structure Header where
  /-- The literal of the first section. -/
  headerKey : Bytes
  /-- It is one of the four that the decoder knows. -/
  headerKey_known : DBDecoder.isMetadataKey headerKey = true
  /-- The magic word, which the decoder does not look at. -/
  magic : Bytes
  length_magic : magic.length = 8
  /-- The literal of the version. -/
  versionKey : Bytes
  versionKey_known : DBDecoder.isMetadataKey versionKey = true
  /-- The version. -/
  version : UInt8
  /-- The decimal of the version, which the decoder drops. -/
  versionDecimal : UInt8
  /-- The literal of the record count. -/
  recordCountKey : Bytes
  recordCountKey_known : DBDecoder.isMetadataKey recordCountKey = true
  /-- The record count. -/
  recordCount : UInt64
  /-- The literal of the name. -/
  nameKey : Bytes
  nameKey_known : DBDecoder.isMetadataKey nameKey = true
  /-- The name, filled up with zeros. -/
  name : Bytes
  length_name : name.length = 64

/-- The literals of the header have eight bytes. -/
theorem length_of_isMetadataKey {key : Bytes} (h : DBDecoder.isMetadataKey key = true) :
    key.length = 8 := by
  simp only [DBDecoder.isMetadataKey, Bool.or_eq_true, beq_iff_eq] at h
  rcases h with ((rfl | rfl) | rfl) | rfl <;> rfl

namespace Header

/-- The header up to the record count. -/
def front (h : Header) : Bytes :=
  h.headerKey ++
    (h.magic ++ (h.versionKey ++ ([h.version] ++ ([h.versionDecimal] ++ h.recordCountKey))))

/-- The header behind the record count. -/
def back (h : Header) : Bytes := h.nameKey ++ h.name

/-- The header as bytes. -/
def bytes (h : Header) : Bytes := h.front ++ ofU64 h.recordCount ++ h.back

/-- The part of the header before the count. -/
@[simp] theorem length_front (h : Header) : h.front.length = 34 := by
  simp only [front, List.length_append, length_of_isMetadataKey h.headerKey_known, h.length_magic,
    length_of_isMetadataKey h.versionKey_known, length_of_isMetadataKey h.recordCountKey_known,
    List.length_singleton]

/-- The part of the header behind the count. -/
@[simp] theorem length_back (h : Header) : h.back.length = 72 := by
  rw [back, List.length_append, length_of_isMetadataKey h.nameKey_known, h.length_name]

/-- Every header has the same length. -/
@[simp] theorem length_bytes (h : Header) : h.bytes.length = 114 := by
  simp only [bytes, List.length_append, length_front, length_ofU64, length_back]

/-- What the decoder reports about the header. -/
def info (h : Header) : DbMeta :=
  ⟨h.version, h.recordCount, trimNul (fromUtf8Lossy h.name)⟩

/-- The header that the encoder writes. -/
def ofMeta (info : DbMeta) : Header where
  headerKey := dbHeaderKey
  headerKey_known := rfl
  magic := ofU64 dbHeaderMagic
  length_magic := length_ofU64 _
  versionKey := dbVersionKey
  versionKey_known := rfl
  version := dbVersion
  versionDecimal := dbVersionDecimal
  recordCountKey := dbRecordCountKey
  recordCountKey_known := rfl
  recordCount := info.recordCount
  nameKey := dbNameKey
  nameKey_known := rfl
  name :=
    let copyLen := min (stringBytes info.name).length dbNameLen
    (stringBytes info.name).take copyLen ++ List.replicate (dbNameLen - copyLen) 0
  length_name := by
    simp only [dbNameLen, List.length_append, List.length_take, List.length_replicate]
    omega

/-- The header of a new data file is the one that the encoder writes. -/
theorem bytes_ofMeta (info : DbMeta) :
    (ofMeta info).bytes = (DBEncoder.new.encodeDbHeader info).finish := by
  simp [bytes, front, back, ofMeta, DBEncoder.finish, DBEncoder.encodeDbHeader,
    DBEncoder.encodeDbName, DBEncoder.write, DBEncoder.new]

end Header

/-- A data file: a header and whole records. -/
structure DataFile where
  /-- The first bytes of the file. -/
  header : Header
  /-- The records behind the header, in order. -/
  records : List Record

namespace DataFile

/-- The data file as bytes. -/
def bytes [Crc] (df : DataFile) : Bytes := df.header.bytes ++ df.records.flatMap Record.bytes

/-- The records follow the header. -/
@[simp] theorem length_bytes [Crc] (df : DataFile) :
    df.bytes.length = 114 + totalSize df.records := by
  rw [bytes, List.length_append, Header.length_bytes, length_flatMap_bytes]

/-- A data file has a header and is not empty. -/
theorem bytes_ne_nil [Crc] (df : DataFile) : df.bytes ≠ [] := by
  intro h
  have := congrArg List.length h
  rw [length_bytes, List.length_nil] at this
  omega

/-- The records with their places in the file. -/
def slots (df : DataFile) : List Slot := slotsFrom 114 df.records

/-- The live records in file order. -/
def live (df : DataFile) : List (Key × Stored) := df.slots.filterMap Slot.stored?

/-- The live records of one key in file order. -/
def liveOf (df : DataFile) (k : Key) : List Stored := itemsOf k df.live

/-- The map that the file stands for: the last live record of a key counts. -/
def fields (df : DataFile) : HashMap Key Field :=
  insertAll ∅ (df.live.map fun x => (x.1, x.2.value))

/-- The index of the file: the extents of the last live records. -/
def index (df : DataFile) : HashMap Key IndexEntry :=
  insertAll ∅ (df.live.map fun x => (x.1, x.2.entry x.1))

/-- The value of a key is the one of its last live record. -/
theorem lookup_fields (df : DataFile) (k : Key) :
    df.fields.lookup k = (df.liveOf k).getLast?.map Stored.value := by
  rw [fields, lookup_insertAll, Finmap.lookup_empty, Option.or_none,
    lastOf_map k df.live fun _ x => x.value, lastOf_eq_getLast?, liveOf]

/-- The index entry of a key is the one of its last live record. -/
theorem lookup_index (df : DataFile) (k : Key) :
    df.index.lookup k = (df.liveOf k).getLast?.map (Stored.entry k) := by
  rw [index, lookup_insertAll, Finmap.lookup_empty, Option.or_none,
    lastOf_map k df.live fun a x => x.entry a, lastOf_eq_getLast?, liveOf]

/-- The file after a record is added at its end. -/
def append (df : DataFile) (r : Record) : DataFile := { df with records := df.records ++ [r] }

/-- The file after the record at `offset` is made a tombstone. -/
def tombstone (df : DataFile) (offset : ℕ) : DataFile :=
  { df with records := df.slots.map (Slot.tombstoneAt offset) }

/-- The file after the record count is changed. -/
def setCount (df : DataFile) (count : UInt64) : DataFile :=
  { df with header := { df.header with recordCount := count } }

/-- The entry covers a whole record; a live one has the key. -/
def Extent (df : DataFile) (k : Key) (e : IndexEntry) : Prop := ∃ s ∈ df.slots, s.Holds k e

/-- The bytes at the end of the file are the new record. -/
theorem bytes_append [Crc] (df : DataFile) (r : Record) :
    (df.append r).bytes = df.bytes ++ r.bytes := by
  simp only [append, bytes, List.flatMap_append, List.flatMap_singleton, List.append_assoc]

/-- An append adds one slot. -/
theorem slots_append (df : DataFile) (r : Record) :
    (df.append r).slots = df.slots ++ [⟨114 + totalSize df.records, r⟩] := by
  rw [slots, append, slotsFrom_append]
  rfl

/-- An append adds the record to the live ones, if it is one. -/
theorem live_append (df : DataFile) (r : Record) :
    (df.append r).live = df.live ++ (Slot.stored? ⟨114 + totalSize df.records, r⟩).toList := by
  rw [live, slots_append, List.filterMap_append]
  rfl

/-- The encoder's record is the last live record of its key. -/
theorem liveOf_append [Crc] (df : DataFile) (key k : Key) (field : Field) (hkey : key.Encodable)
    (hfield : field.Encodable) : (df.append (.ofPair key field hkey hfield)).liveOf k =
      if key = k then df.liveOf k ++ [⟨df.bytes.length, (bytesFromField field).length, field⟩]
      else df.liveOf k := by
  rw [liveOf, live_append, itemsOf_append, length_bytes]
  change _ ++ itemsOf k [(key, (⟨_, _, field⟩ : Stored))] = _
  rw [itemsOf_singleton]
  split
  · rfl
  · rw [List.append_nil]
    rfl

/-- A tombstone leaves the slots where they are. -/
theorem slots_tombstone (df : DataFile) (offset : ℕ) :
    (df.tombstone offset).slots = df.slots.map fun s => ⟨s.offset, s.tombstoneAt offset⟩ :=
  slotsFrom_map_tombstoneAt offset 114 df.records

/-- The tombstone replaces one record and keeps all others. -/
theorem records_tombstone {df : DataFile} {s : Slot} (h : s ∈ df.slots) :
    ∃ pre post, df.records = pre ++ s.record :: post ∧ s.offset = 114 + totalSize pre ∧
      (df.tombstone s.offset).records = pre ++ s.record.tombstone :: post := by
  obtain ⟨pre, post, hsplit, hoff⟩ := split_of_mem_slotsFrom h
  refine ⟨pre, post, hsplit, hoff, ?_⟩
  have hpre : ∀ t ∈ slotsFrom 114 pre, t.offset ≠ s.offset := by
    intro t ht
    have := (bounds_of_mem_slotsFrom ht).2
    have := t.record.size_pos
    omega
  have hpost : ∀ t ∈ slotsFrom (114 + totalSize pre + s.record.size) post, t.offset ≠
      s.offset := by
    intro t ht
    have := (bounds_of_mem_slotsFrom ht).1
    have := s.record.size_pos
    omega
  rw [tombstone, slots, hsplit, slotsFrom_append, slotsFrom, List.map_append, List.map_cons,
    map_tombstoneAt_eq hpre, map_tombstoneAt_eq hpost, Slot.tombstoneAt, if_pos hoff.symm]

/-- The deleter's output over a slot is the file with the tombstone. -/
theorem overwrite_slot [Crc] {df : DataFile} {s : Slot} (h : s ∈ df.slots) :
    overwrite df.bytes s.offset (((DBDeleter.new.setKeyLen s.record.parts.keyLen).setFieldLen
      s.record.parts.fieldLen).getDeletedField).finish = (df.tombstone s.offset).bytes := by
  obtain ⟨pre, post, hsplit, hoff, htomb⟩ := records_tombstone h
  have hbefore : df.bytes = (df.header.bytes ++ pre.flatMap Record.bytes) ++ s.record.bytes ++
      post.flatMap Record.bytes := by
    simp only [bytes, hsplit, List.flatMap_append, List.flatMap_cons, List.append_assoc]
  have hafter : (df.tombstone s.offset).bytes = (df.header.bytes ++ pre.flatMap Record.bytes) ++
      s.record.tombstone.bytes ++ post.flatMap Record.bytes := by
    simp only [bytes, htomb, List.flatMap_append, List.flatMap_cons, List.append_assoc]
    rfl
  have hpos : s.offset = (df.header.bytes ++ pre.flatMap Record.bytes).length := by
    rw [List.length_append, Header.length_bytes, length_flatMap_bytes, hoff]
  rw [← Record.bytes_tombstone, hafter, hpos, hbefore, overwrite_append _ _ _ _ (by simp)]

/-- So is its output over the extent of an entry. -/
theorem bytes_tombstone [Crc] {df : DataFile} {k : Key} {e : IndexEntry} (h : df.Extent k e) :
    overwrite df.bytes e.offset.toNat
        (((DBDeleter.new.setKeyLen e.keyLen).setFieldLen e.fieldLen).getDeletedField).finish =
      (df.tombstone e.offset.toNat).bytes := by
  obtain ⟨s, hs, hheld⟩ := h
  rw [hheld.keyLen_eq, hheld.fieldLen_eq, hheld.offset_eq, overwrite_slot hs]

/-- The bytes of a slot of a data file. -/
theorem take_drop_of_mem_slots [Crc] {df : DataFile} {s : Slot} (hs : s ∈ df.slots) :
    (df.bytes.drop s.offset).take s.record.size = s.record.bytes := by
  obtain ⟨pre, post, hsplit, hoffset⟩ := split_of_mem_slotsFrom hs
  have hbytes : df.bytes = (df.header.bytes ++ pre.flatMap Record.bytes) ++
      (s.record.bytes ++ post.flatMap Record.bytes) := by
    simp only [DataFile.bytes, hsplit, List.flatMap_append, List.flatMap_cons, List.append_assoc]
  have hlen : (df.header.bytes ++ pre.flatMap Record.bytes).length = s.offset := by
    rw [List.length_append, Header.length_bytes, length_flatMap_bytes, hoffset]
  rw [hbytes, List.drop_left' hlen, List.take_left' s.record.length_bytes]

/-- A tombstone leaves out the live record at its offset. -/
theorem live_tombstone (df : DataFile) (offset : ℕ) :
    (df.tombstone offset).live = df.live.filter fun x => x.2.offset ≠ offset := by
  rw [live, slots_tombstone, live, List.filterMap_map, List.filter_filterMap]
  refine List.filterMap_congr fun s _ => ?_
  simp only [Function.comp_apply, Slot.stored?, Slot.tombstoneAt]
  split
  · rename_i hoff
    cases s.record.value? <;> simp [Option.filter, hoff]
  · rename_i hoff
    cases s.record.value? <;> simp [Option.filter, hoff]

/-- A tombstone takes the record at its offset away. -/
theorem liveOf_tombstone (df : DataFile) (offset : ℕ) (k : Key) :
    (df.tombstone offset).liveOf k = (df.liveOf k).filter fun x => x.offset ≠ offset := by
  rw [liveOf, live_tombstone, itemsOf, liveOf, itemsOf, List.filterMap_filter,
    List.filter_filterMap]
  refine List.filterMap_congr fun x _ => ?_
  by_cases hoff : x.2.offset = offset <;> by_cases hk : x.1 = k <;> simp [Option.filter, hoff, hk]

/-- A live record stands in a slot. -/
theorem mem_live {df : DataFile} {k : Key} {x : Stored} (h : (k, x) ∈ df.live) :
    ∃ s ∈ df.slots, s.record.isDead = false ∧ s.record.parts.key = k ∧
      s.offset = x.offset ∧
      s.record.parts.field.length = x.fieldLen := by
  obtain ⟨s, hs, hstored⟩ := List.mem_filterMap.mp h
  refine ⟨s, hs, ?_⟩
  obtain ⟨value, hvalue, heq⟩ := Option.map_eq_some_iff.mp hstored
  cases heq
  refine ⟨?_, rfl, rfl, rfl⟩
  cases hr : s.record with
  | live parts value used decodes => rfl
  | dead parts crc =>
    rw [hr] at hvalue
    cases hvalue

/-- Writing over the extent of one key leaves the live records of the other
keys alone. -/
theorem liveOf_tombstone_of_ne {df : DataFile} {key k : Key} {e : IndexEntry} (h : df.Extent key e)
    (hk : k ≠ key) : (df.tombstone e.offset.toNat).liveOf k = df.liveOf k := by
  rw [liveOf_tombstone, List.filter_eq_self]
  intro x hx
  obtain ⟨s, hs, hdead, hkey, hoff, -⟩ := mem_live (mem_itemsOf.mp hx)
  obtain ⟨t, ht, hheld⟩ := h
  refine decide_eq_true fun hsame => hk ?_
  have hst : s = t := slot_unique hs ht (by rw [hoff, hsame, hheld.offset_eq])
  subst hst
  rw [← hkey, hheld.key_eq hdead]

/-- Writing the record count changes the count alone. -/
theorem bytes_setCount [Crc] (df : DataFile) (count : UInt64) :
    overwrite df.bytes 34 (ofU64 count) = (df.setCount count).bytes := by
  have hbefore : df.bytes = df.header.front ++ ofU64 df.header.recordCount ++
      (df.header.back ++ df.records.flatMap Record.bytes) := by
    simp only [bytes, Header.bytes, List.append_assoc]
  rw [hbefore, ← df.header.length_front, overwrite_append _ _ _ _ (by simp)]
  simp only [bytes, setCount, Header.bytes, Header.front, Header.back, List.append_assoc]

/-- The count is no record. -/
@[simp] theorem liveOf_setCount (df : DataFile) (count : UInt64) (k : Key) :
    (df.setCount count).liveOf k = df.liveOf k := rfl

/-- An append moves no record. -/
theorem Extent.append {df : DataFile} {k : Key} {e : IndexEntry} (h : df.Extent k e) (r : Record) :
    (df.append r).Extent k e := by
  obtain ⟨s, hs, hheld⟩ := h
  refine ⟨s, ?_, hheld⟩
  rw [slots_append]
  exact List.mem_append_left _ hs

/-- A tombstone moves no record. -/
theorem Extent.tombstone {df : DataFile} {k : Key} {e : IndexEntry} (h : df.Extent k e)
    (offset : ℕ) :
    (df.tombstone offset).Extent k e := by
  obtain ⟨s, hs, hheld⟩ := h
  refine ⟨⟨s.offset, s.tombstoneAt offset⟩, ?_, hheld.offset_eq, ?_, ?_, ?_⟩
  · rw [slots_tombstone]
    exact List.mem_map_of_mem hs
  · rw [hheld.keyLen_eq]
    simp only [Slot.tombstoneAt]
    split <;> simp [Record.tombstone, Record.parts, Parts.keyLen, Key.len]
  · rw [hheld.fieldLen_eq]
    simp only [Slot.tombstoneAt]
    split <;> simp [Record.tombstone, Record.parts, Parts.fieldLen]
  · intro hlive
    simp only [Slot.tombstoneAt] at hlive ⊢
    split at hlive
    · cases hlive
    · rename_i hoff
      rw [if_neg hoff]
      exact hheld.key_eq hlive

/-- A new count moves no record. -/
theorem Extent.setCount {df : DataFile} {k : Key} {e : IndexEntry} (h : df.Extent k e)
    (count : UInt64) :
    (df.setCount count).Extent k e := h

/-- The entry made for an appended record covers it. -/
theorem extent_append [Crc] (df : DataFile) (key : Key) (field : Field) (hkey : key.Encodable)
    (hfield : field.Encodable) (hfits : df.bytes.length < 2 ^ 64) :
    (df.append (.ofPair key field hkey hfield)).Extent key
      ⟨UInt64.ofNat df.bytes.length, UInt16.ofNat key.len,
        UInt32.ofNat (bytesFromField field).length⟩ := by
  refine ⟨⟨df.bytes.length, .ofPair key field hkey hfield⟩, ?_, ?_, rfl, rfl, fun _ => rfl⟩
  · rw [slots_append, length_bytes]
    simp
  · dsimp only
    rw [UInt64.toNat_ofNat_of_lt' hfits]

end DataFile

end PeachDB
