import PeachDB.RecordCodec

/-!
# The index file codec and the index scan

`IndexEncoder`, `IndexDecoder` and `IndexFromDBDecoder` of `codec.rs`. The
index file is a bare sequence of entries. The scan rebuilds the same map from
the data file, moving over checksums and fields without reading them; unlike
the data decoder it refuses a live record with an empty key.
-/

namespace PeachDB.IndexCodec

open LittleEndian Dtypes RecordCodec

/-- `IndexEntry`: where a record lies and how long its two parts are. -/
structure IndexEntry where
  /-- Where the record begins in the data file. -/
  offset : UInt64
  /-- The length of its key. -/
  keyLen : UInt16
  /-- The length of its field bytes. -/
  fieldLen : UInt32
  deriving DecidableEq

/-- `IndexEncoder`. -/
structure IndexEncoder where
  /-- What has been encoded. -/
  buffer : Bytes

namespace IndexEncoder

/-- `IndexEncoder::new`. -/
def new : IndexEncoder := ⟨[]⟩

/-- Bytes at the end of the buffer. -/
def write (enc : IndexEncoder) (bytes : Bytes) : IndexEncoder := ⟨enc.buffer ++ bytes⟩

/-- `encode_index_entry`; the length written is the one of the entry. -/
def encodeIndexEntry (enc : IndexEncoder) (key : Key) (index : IndexEntry) : IndexEncoder :=
  (((enc.write (ofU16 index.keyLen)).write key.asBytes).write (ofU32 index.fieldLen)).write
    (ofU64 index.offset)

/-- `encode_index_file`, for one iteration order of the map. -/
def encodeIndexFile (enc : IndexEncoder) (index : List (Key × IndexEntry)) : IndexEncoder :=
  index.foldl (fun enc e => enc.encodeIndexEntry e.1 e.2) enc

/-- `IndexEncoder::finish`. -/
def finish (enc : IndexEncoder) : Bytes := enc.buffer

end IndexEncoder

/-- `IndexDecoder`. -/
structure IndexDecoder where
  /-- The bytes that are decoded. -/
  cursor : Cursor
  /-- The entries so far. -/
  index : HashMap Key IndexEntry
  /-- The key that has been read last. -/
  lastIndexKey : Bytes
  /-- The offset that has been read last. -/
  lastIdx : UInt64
  /-- The key length that has been read last. -/
  lastKeyLen : UInt16
  /-- The field length that has been read last. -/
  lastFieldLen : UInt32

namespace IndexDecoder

/-- `IndexDecoder::new`. -/
def new (bytes : Bytes) : IndexDecoder := ⟨⟨bytes, 0⟩, ∅, [], 0, 0, 0⟩

/-- `read_index`. -/
def readIndex (d : IndexDecoder) : PDBResult IndexDecoder := do
  let (bytes, cursor) ← readExact d.cursor 8
  .ok { d with cursor, lastIdx := toU64 bytes }

/-- `read_key_len`. -/
def readKeyLen (d : IndexDecoder) : PDBResult IndexDecoder := do
  let (bytes, cursor) ← readExact d.cursor 2
  .ok { d with cursor, lastKeyLen := toU16 bytes }

/-- `read_key`. -/
def readKey (d : IndexDecoder) : PDBResult IndexDecoder := do
  let (bytes, cursor) ← readExact d.cursor d.lastKeyLen.toNat
  .ok { d with cursor, lastIndexKey := bytes }

/-- `read_field_len`. -/
def readFieldLen (d : IndexDecoder) : PDBResult IndexDecoder := do
  let (bytes, cursor) ← readExact d.cursor 4
  .ok { d with cursor, lastFieldLen := toU32 bytes }

/-- `decode_index_entry`. -/
def decodeIndexEntry (d : IndexDecoder) : PDBResult IndexDecoder := do
  let d ← d.readKeyLen
  let d ← d.readKey
  let d ← d.readFieldLen
  let d ← d.readIndex
  .ok { d with index := d.index.insert ⟨d.lastIndexKey⟩ ⟨d.lastIdx, d.lastKeyLen,
    d.lastFieldLen⟩ }

/-- The condition of the loop: the cursor is not at the end. -/
def more (d : IndexDecoder) : Bool := d.cursor.pos < d.cursor.buf.length

/-- `decode_index_file`. -/
def decodeIndexFile (d : IndexDecoder) : PDBResult IndexDecoder :=
  loop more decodeIndexEntry (d.cursor.buf.length + 1) d

/-- `IndexDecoder::finish`. -/
def finish (d : IndexDecoder) : PDBResult (HashMap Key IndexEntry) := .ok d.index

end IndexDecoder

/-- `IndexFromDBDecoder`. -/
structure IndexFromDBDecoder where
  /-- The bytes that are scanned. -/
  cursor : Cursor
  /-- The entries so far. -/
  index : HashMap Key IndexEntry
  /-- The key length that has been read last. -/
  lastKeyLen : UInt16
  /-- The field length that has been read last. -/
  lastFieldLen : UInt32
  /-- The key that has been read last. -/
  lastKey : Bytes
  /-- Where the last record begins. -/
  lastIndex : UInt64
  /-- The last record has been deleted. -/
  deleted : Bool

namespace IndexFromDBDecoder

/-- `IndexFromDBDecoder::new`. -/
def new (bytes : Bytes) : IndexFromDBDecoder := ⟨⟨bytes, 0⟩, ∅, 0, 0, [], 0, false⟩

/-- `read_magic_number`. -/
def readMagicNumber (d : IndexFromDBDecoder) : PDBResult IndexFromDBDecoder := do
  let (recMagicNumber, cursor) ← readExact d.cursor 4
  if recMagicNumber = [0, 0, 0, 0] then .ok { d with cursor, deleted := true }
  else if recMagicNumber = recordMagicNumber then .ok { d with cursor, deleted := false }
  else failWith .invalidMagicBytes

/-- `read_key_len`. -/
def readKeyLen (d : IndexFromDBDecoder) : PDBResult IndexFromDBDecoder := do
  let (bytes, cursor) ← readExact d.cursor 2
  .ok { d with cursor, lastKeyLen := toU16 bytes }

/-- `read_field_len`. -/
def readFieldLen (d : IndexFromDBDecoder) : PDBResult IndexFromDBDecoder := do
  let (bytes, cursor) ← readExact d.cursor 4
  .ok { d with cursor, lastFieldLen := toU32 bytes }

/-- `skip_crc`. -/
def skipCrc (d : IndexFromDBDecoder) : IndexFromDBDecoder := { d with cursor := d.cursor.advance 4 }

/-- `read_key`. -/
def readKey (d : IndexFromDBDecoder) : PDBResult IndexFromDBDecoder := do
  let (bytes, cursor) ← readExact d.cursor d.lastKeyLen.toNat
  .ok { d with cursor, lastKey := bytes }

/-- The cursor may end up past the end of the buffer. -/
def skipField (d : IndexFromDBDecoder) : IndexFromDBDecoder :=
  { d with cursor := d.cursor.advance d.lastFieldLen.toNat }

/-- `skip_metadata_key`. -/
def skipMetadataKey (d : IndexFromDBDecoder) : IndexFromDBDecoder :=
  { d with cursor := d.cursor.advance 8 }

/-- `decode_db_header`: only the parts that are not skipped must be there. -/
def decodeDbHeader (d : IndexFromDBDecoder) : PDBResult IndexFromDBDecoder := do
  let d := { d with cursor := { d.cursor with pos := 0 } }.skipMetadataKey
  let (_, cursor) ← readExact d.cursor 8
  let d := { d with cursor }.skipMetadataKey
  let (_, cursor) ← readExact d.cursor 1
  let (_, cursor) ← readExact cursor 1
  let d := { d with cursor }.skipMetadataKey
  let (_, cursor) ← readExact d.cursor 8
  let d := { d with cursor }.skipMetadataKey
  .ok { d with cursor := d.cursor.advance 64 }

/-- `set_last_index`. -/
def setLastIndex (d : IndexFromDBDecoder) : IndexFromDBDecoder :=
  { d with lastIndex := UInt64.ofNat d.cursor.pos }

/-- `index_push`. -/
def indexPush (d : IndexFromDBDecoder) : PDBResult IndexFromDBDecoder :=
  if d.deleted then .ok d
  else if d.lastKey = [] then failWith .invalidIndexEntry
  else .ok { d with index := d.index.insert ⟨d.lastKey⟩ ⟨d.lastIndex, d.lastKeyLen,
    d.lastFieldLen⟩ }

/-- One round of the loop of `decode_index_from_file`. -/
def decodeRecord (d : IndexFromDBDecoder) : PDBResult IndexFromDBDecoder := do
  let d ← d.setLastIndex.readMagicNumber
  let d ← d.readKeyLen
  let d ← d.readFieldLen
  let d ← d.skipCrc.readKey
  d.skipField.indexPush

/-- The condition of the loop: the cursor is not at the end. -/
def more (d : IndexFromDBDecoder) : Bool := d.cursor.pos < d.cursor.buf.length

/-- `decode_index_from_file`. -/
def decodeIndexFromFile (d : IndexFromDBDecoder) : PDBResult IndexFromDBDecoder := do
  let d ← d.decodeDbHeader
  loop more decodeRecord (d.cursor.buf.length + 1) d

/-- `IndexFromDBDecoder::finish`. -/
def finish (d : IndexFromDBDecoder) : PDBResult (HashMap Key IndexEntry) := .ok d.index

end IndexFromDBDecoder

/-- The bytes of one index entry. -/
def entryBytes (x : Key × IndexEntry) : Bytes :=
  ofU16 x.2.keyLen ++ (x.1.asBytes ++ (ofU32 x.2.fieldLen ++ ofU64 x.2.offset))

/-- A key with an entry that has its length. -/
abbrev IndexItem := { x : Key × IndexEntry // x.2.keyLen.toNat = x.1.len }

/-- The entries that a map holds all have the lengths of their keys. -/
def LengthsMatch (index : HashMap Key IndexEntry) : Prop :=
  ∀ k e, index.lookup k = some e → e.keyLen.toNat = k.len

/-- An index file is written entry by entry. -/
theorem encodeIndexFile_buffer (enc : IndexEncoder) (index : List (Key × IndexEntry)) :
    (enc.encodeIndexFile index).buffer = enc.buffer ++ index.flatMap entryBytes := by
  induction index generalizing enc with
  | nil => exact (List.append_nil _).symm
  | cons x index ih =>
    have hhead : (enc.encodeIndexEntry x.1 x.2).buffer = enc.buffer ++ entryBytes x := by
      simp [IndexEncoder.encodeIndexEntry, IndexEncoder.write, entryBytes]
    have htail := ih (enc.encodeIndexEntry x.1 x.2)
    rw [hhead, List.append_assoc] at htail
    rw [List.flatMap_cons]
    exact htail

namespace IndexDecoder

/-- The decoder when an entry has been read. -/
def after (d : IndexDecoder) (x : IndexItem) : IndexDecoder where
  cursor := d.cursor.advance (entryBytes x.1).length
  index := d.index.insert x.1.1 x.1.2
  lastIndexKey := x.1.1.asBytes
  lastIdx := x.1.2.offset
  lastKeyLen := x.1.2.keyLen
  lastFieldLen := x.1.2.fieldLen

/-- A key length is read when its two bytes are there. -/
theorem readKeyLen_eq_ok_iff {d t : IndexDecoder} : d.readKeyLen = .ok t ↔
    ∃ n ys, d.cursor.rest = ofU16 n ++ ys ∧
    t = { d with cursor := d.cursor.advance 2, lastKeyLen := n } :=
  readU16_eq_ok_iff (c := d.cursor) fun n cursor =>
    ({ d with cursor, lastKeyLen := n } : IndexDecoder)

/-- A key is read when its bytes are there. -/
theorem readKey_eq_ok_iff {d t : IndexDecoder} : d.readKey = .ok t ↔
    ∃ xs ys, xs.length = d.lastKeyLen.toNat ∧ d.cursor.rest = xs ++ ys ∧
      t = { d with cursor := d.cursor.advance d.lastKeyLen.toNat, lastIndexKey := xs } :=
  readBytes_eq_ok_iff (c := d.cursor) fun xs cursor =>
    ({ d with cursor, lastIndexKey := xs } : IndexDecoder)

/-- A field length is read when its four bytes are there. -/
theorem readFieldLen_eq_ok_iff {d t : IndexDecoder} : d.readFieldLen = .ok t ↔
    ∃ n ys, d.cursor.rest = ofU32 n ++ ys ∧
      t = { d with cursor := d.cursor.advance 4, lastFieldLen := n } :=
  readU32_eq_ok_iff (c := d.cursor) fun n cursor =>
    ({ d with cursor, lastFieldLen := n } : IndexDecoder)

/-- An offset is read when its eight bytes are there. -/
theorem readIndex_eq_ok_iff {d t : IndexDecoder} : d.readIndex = .ok t ↔
    ∃ n ys, d.cursor.rest = ofU64 n ++ ys ∧
    t = { d with cursor := d.cursor.advance 8, lastIdx := n } :=
  readU64_eq_ok_iff (c := d.cursor) fun n cursor => ({ d with cursor, lastIdx := n } : IndexDecoder)

/-- An entry is read exactly when the cursor stands before one. -/
theorem decodeIndexEntry_eq_ok_iff {d t : IndexDecoder} : d.decodeIndexEntry = .ok t ↔
    ∃ x : IndexItem, ∃ ys, d.cursor.rest = entryBytes x.1 ++ ys ∧ t = d.after x := by
  simp only [decodeIndexEntry, bind_eq_ok_iff, readKeyLen_eq_ok_iff, readKey_eq_ok_iff,
    readFieldLen_eq_ok_iff, readIndex_eq_ok_iff]
  constructor
  · rintro ⟨_, ⟨keyLen, ys₁, h₁, rfl⟩, _, ⟨key, ys₂, hkey, h₂, rfl⟩, _, ⟨fieldLen, ys₃, h₃, rfl⟩,
      _, ⟨offset, ys₄, h₄, rfl⟩, ht⟩
    cases ht
    dsimp only at hkey h₂ h₃ h₄
    rw [Cursor.rest_advance_of_append h₁ (length_ofU16 _)] at h₂
    subst h₂
    have h₂ := Cursor.rest_advance_of_append h₁ (length_ofU16 _)
    rw [Cursor.rest_advance_of_append h₂ hkey] at h₃
    subst h₃
    have h₃ := Cursor.rest_advance_of_append h₂ hkey
    rw [Cursor.rest_advance_of_append h₃ (length_ofU32 _)] at h₄
    subst h₄
    refine ⟨⟨(⟨key⟩, ⟨offset, keyLen, fieldLen⟩), hkey.symm⟩, ys₄, ?_, ?_⟩
    · simp only [entryBytes, List.append_assoc, h₁]
    · simp only [after, entryBytes, Cursor.advance_advance, List.length_append, length_ofU16,
        length_ofU32, length_ofU64, hkey]
      rfl
  · rintro ⟨⟨⟨key, entry⟩, hlen⟩, ys, h, rfl⟩
    dsimp only at hlen h
    simp only [entryBytes, List.append_assoc] at h
    have h₂ := Cursor.rest_advance_of_append h (length_ofU16 _)
    have h₃ := Cursor.rest_advance_of_append h₂ hlen.symm
    have h₄ := Cursor.rest_advance_of_append h₃ (length_ofU32 _)
    refine ⟨_, ⟨_, _, h, rfl⟩, _, ⟨_, _, hlen.symm, h₂, rfl⟩, _, ⟨_, _, h₃, rfl⟩,
      _, ⟨_, _, h₄, rfl⟩, ?_⟩
    simp only [after, entryBytes, Cursor.advance_advance, List.length_append, length_ofU16,
      length_ofU32, length_ofU64, hlen]
    rfl

/-- The loop reads the encodings of entries. -/
theorem framed :
    Framed more decodeIndexEntry cursor (fun x : IndexItem => entryBytes x.1) after where
  more_iff d := by rw [more, decide_eq_true_iff, Cursor.pos_lt_iff]
  frame_ne_nil x h := by
    have := congrArg List.length h
    simp [entryBytes] at this
  cursor_after _ _ := rfl
  body_of_rest d x ys h := decodeIndexEntry_eq_ok_iff.mpr ⟨x, ys, h, rfl⟩

/-- The entries are inserted one after another. -/
theorem index_foldl_after (d : IndexDecoder) (xs : List IndexItem) :
    (xs.foldl after d).index = insertAll d.index (xs.map Subtype.val) := by
  induction xs generalizing d with
  | nil => rfl
  | cons x xs ih => exact ih (d.after x)

/-- The index file decoder accepts exactly the sequences of entries whose
length fields are right, and inserts the entries one after another. -/
theorem decodeIndexFile_eq_ok_iff {bytes : Bytes} {index : HashMap Key IndexEntry} :
    (do let d ← (new bytes).decodeIndexFile; d.finish) = .ok index ↔
      ∃ xs : List IndexItem, bytes = xs.flatMap (fun x => entryBytes x.1) ∧
        index = insertAll ∅ (xs.map Subtype.val) := by
  have hrest : (new bytes).cursor.rest = bytes := rfl
  have hfuel : (new bytes).cursor.rest.length ≤ (new bytes).cursor.buf.length + 1 := by
    rw [hrest]
    exact Nat.le_succ _
  rw [bind_eq_ok_iff]
  constructor
  · rintro ⟨d, hd, hfinish⟩
    cases hfinish
    obtain ⟨xs, hxs, rfl⟩ := framed.eq_of_loop_eq_ok
      (fun _ _ h => decodeIndexEntry_eq_ok_iff.mp h) hfuel hd
    exact ⟨xs, by rwa [hrest] at hxs, index_foldl_after _ _⟩
  · rintro ⟨xs, hxs, rfl⟩
    exact ⟨_, framed.loop_eq_ok hfuel (by rw [hrest, hxs]), congrArg _ (index_foldl_after _ _)⟩

end IndexDecoder

/-- A map whose lengths are right is read back from its file, whatever order
the encoder iterated in. -/
theorem decodeIndexFile_encodeIndexFile {index : HashMap Key IndexEntry}
    {order : List (Key × IndexEntry)} (horder : IterOrder index order)
    (hlen : LengthsMatch index) :
    (do
      let d ← (IndexDecoder.new (IndexEncoder.new.encodeIndexFile order).finish).decodeIndexFile
      d.finish) = .ok index := by
  rw [IndexDecoder.decodeIndexFile_eq_ok_iff]
  have hall : ∀ x ∈ order, x.2.keyLen.toNat = x.1.len := fun x hx =>
    hlen _ _ (horder.mem_iff.mp hx)
  lift order to List IndexItem using hall
  refine ⟨order, ?_, horder.insertAll_eq.symm⟩
  rw [IndexEncoder.finish, encodeIndexFile_buffer, List.flatMap_map]
  rfl

/-- The keys of an index file, in the order in which the decoder meets them. -/
def entryKeys (bytes : Bytes) : List Key :=
  let d := IndexDecoder.new bytes
  (loopStates IndexDecoder.more IndexDecoder.decodeIndexEntry (d.cursor.buf.length + 1) d).map
    fun d => ⟨d.lastIndexKey⟩

/-- The decoder meets the keys of all entries. -/
theorem entryKeys_flatMap (xs : List IndexItem) :
    entryKeys (xs.flatMap fun x => entryBytes x.1) = xs.map fun x => x.1.1 := by
  have hlen := IndexDecoder.framed.length_le xs
  exact IndexDecoder.framed.map_loopStates _ _ (fun _ _ => rfl) (Nat.le_succ_of_le hlen) rfl

/-- An index survives its file in every iteration order, and an index file with
distinct keys is what the encoder writes for its index in one of them. -/
theorem index_file_round_trip :
    (∀ (index : HashMap Key IndexEntry) (order : List (Key × IndexEntry)), IterOrder index
      order →
      LengthsMatch index →
      (do
        let d ← (IndexDecoder.new (IndexEncoder.new.encodeIndexFile order).finish).decodeIndexFile
        d.finish) = .ok index) ∧
    ∀ (bytes : Bytes) (index : HashMap Key IndexEntry),
      (do let d ← (IndexDecoder.new bytes).decodeIndexFile; d.finish) = .ok index →
      (entryKeys bytes).Nodup →
      ∃ order, IterOrder index order ∧ (IndexEncoder.new.encodeIndexFile order).finish =
        bytes := by
  refine ⟨fun index order horder hlen => decodeIndexFile_encodeIndexFile horder hlen, ?_⟩
  intro bytes index h hkeys
  obtain ⟨xs, rfl, rfl⟩ := IndexDecoder.decodeIndexFile_eq_ok_iff.mp h
  have hnodup : ((xs.map Subtype.val).map Prod.fst).Nodup := by
    rw [entryKeys_flatMap] at hkeys
    rwa [List.map_map]
  refine ⟨xs.map Subtype.val, IterOrder.of_nodup hnodup, ?_⟩
  rw [IndexEncoder.finish, encodeIndexFile_buffer, List.flatMap_map]
  rfl

/-- A map of two entries, and the file of one entry for the key `a`. -/
theorem index_file_round_trip_entries :
    let order : List (Key × IndexEntry) :=
  [(.ofText "b", ⟨131, 1, 9⟩), (.ofText "", ⟨114, 0, 3⟩)]
    let bytes : Bytes := [1, 0, 0x61, 9, 0, 0, 0, 114, 0, 0, 0, 0, 0, 0, 0]
    (do
      let d ← (IndexDecoder.new (IndexEncoder.new.encodeIndexFile order).finish).decodeIndexFile
      d.finish) = .ok (insertAll ∅ order) ∧
    ∃ order, IterOrder (insertAll ∅ [(Key.ofText "a", (⟨114, 1, 9⟩ : IndexEntry))])
      order ∧
      (IndexEncoder.new.encodeIndexFile order).finish = bytes := by
  intro order bytes
  have hlen : LengthsMatch (insertAll ∅ order) := by
    intro k e hk
    rw [lookup_insertAll, Finmap.lookup_empty, Option.or_none] at hk
    have hall : ∀ x ∈ order, x.2.keyLen.toNat = x.1.len := by decide +kernel
    exact hall _ (mem_of_lastOf hk)
  have hdecode : (do let d ← (IndexDecoder.new bytes).decodeIndexFile; d.finish) =
      .ok (insertAll ∅ [(Key.ofText "a", (⟨114, 1, 9⟩ : IndexEntry))]) :=
    IndexDecoder.decodeIndexFile_eq_ok_iff.mpr
      ⟨[⟨(.ofText "a", ⟨114, 1, 9⟩), by decide +kernel⟩], by decide +kernel, rfl⟩
  exact ⟨index_file_round_trip.1 _ order (IterOrder.of_nodup (by decide +kernel)) hlen,
    index_file_round_trip.2 bytes _ hdecode (by decide +kernel)⟩

/-- Every decoded index file has the lengths of its keys. -/
theorem lengthsMatch_of_decodeIndexFile {bytes : Bytes} {index : HashMap Key IndexEntry}
    (h : (do let d ← (IndexDecoder.new bytes).decodeIndexFile; d.finish) = .ok index) :
    LengthsMatch index := by
  obtain ⟨xs, -, rfl⟩ := IndexDecoder.decodeIndexFile_eq_ok_iff.mp h
  intro k e hk
  rw [lookup_insertAll, Finmap.lookup_empty, Option.or_none] at hk
  obtain ⟨x, -, hx⟩ := List.mem_map.mp (mem_of_lastOf hk)
  have := x.2
  rw [hx] at this
  exact this

namespace IndexFromDBDecoder

/-- A magic number is read when one of the two is there. -/
theorem readMagicNumber_eq_ok_iff {d t : IndexFromDBDecoder} : d.readMagicNumber = .ok t ↔
    ∃ deleted ys, d.cursor.rest = magicOf deleted ++ ys ∧
      t = { d with cursor := d.cursor.advance 4, deleted } :=
  readMagic_eq_ok_iff (c := d.cursor) fun deleted cursor =>
    ({ d with cursor, deleted } : IndexFromDBDecoder)

/-- A key length is read when its two bytes are there. -/
theorem readKeyLen_eq_ok_iff {d t : IndexFromDBDecoder} : d.readKeyLen = .ok t ↔
    ∃ n ys, d.cursor.rest = ofU16 n ++ ys ∧
    t = { d with cursor := d.cursor.advance 2, lastKeyLen := n } :=
  readU16_eq_ok_iff (c := d.cursor) fun n cursor =>
    ({ d with cursor, lastKeyLen := n } : IndexFromDBDecoder)

/-- A field length is read when its four bytes are there. -/
theorem readFieldLen_eq_ok_iff {d t : IndexFromDBDecoder} : d.readFieldLen = .ok t ↔
    ∃ n ys, d.cursor.rest = ofU32 n ++ ys ∧
      t = { d with cursor := d.cursor.advance 4, lastFieldLen := n } :=
  readU32_eq_ok_iff (c := d.cursor) fun n cursor =>
    ({ d with cursor, lastFieldLen := n } : IndexFromDBDecoder)

/-- A key is read when its bytes are there. -/
theorem readKey_eq_ok_iff {d t : IndexFromDBDecoder} : d.readKey = .ok t ↔
    ∃ xs ys, xs.length = d.lastKeyLen.toNat ∧ d.cursor.rest = xs ++ ys ∧
      t = { d with cursor := d.cursor.advance d.lastKeyLen.toNat, lastKey := xs } :=
  readBytes_eq_ok_iff (c := d.cursor) fun xs cursor =>
    ({ d with cursor, lastKey := xs } : IndexFromDBDecoder)

/-- The scan measures the keys that it stores. -/
theorem lengthsMatch_decodeRecord {d t : IndexFromDBDecoder} (hd : LengthsMatch d.index)
    (h : d.decodeRecord = .ok t) : LengthsMatch t.index := by
  simp only [decodeRecord, bind_eq_ok_iff, readMagicNumber_eq_ok_iff, readKeyLen_eq_ok_iff,
    readFieldLen_eq_ok_iff, readKey_eq_ok_iff] at h
  obtain ⟨_, ⟨deleted, _, -, rfl⟩, _, ⟨keyLen, _, -, rfl⟩, _, ⟨fieldLen, _, -, rfl⟩,
    _, ⟨key, _, hkey, -, rfl⟩, hpush⟩ := h
  unfold indexPush at hpush
  split at hpush
  · cases hpush
    exact hd
  · split at hpush
    · cases hpush
    · cases hpush
      intro k e hk
      dsimp only [skipField, skipCrc, setLastIndex] at hk hkey
      rw [lookup_insert_eq] at hk
      split at hk
      · rename_i heq
        cases hk
        rw [heq]
        exact hkey.symm
      · exact hd k e hk

/-- Every scanned index has the lengths of its keys. -/
theorem lengthsMatch_of_decodeIndexFromFile {bytes : Bytes} {index : HashMap Key IndexEntry}
    (h : (do let d ← (new bytes).decodeIndexFromFile; d.finish) = .ok index) :
    LengthsMatch index := by
  simp only [decodeIndexFromFile, bind_eq_ok_iff] at h
  obtain ⟨d, ⟨d₁, hheader, hloop⟩, hfinish⟩ := h
  cases hfinish
  refine loop_invariant (I := fun d => LengthsMatch d.index)
    (fun _ _ => lengthsMatch_decodeRecord) ?_ hloop
  have hempty : d₁.index = ∅ := by
    simp only [decodeDbHeader, bind_eq_ok_iff] at hheader
    obtain ⟨⟨_, _⟩, -, ⟨_, _⟩, -, ⟨_, _⟩, -, ⟨_, _⟩, -, h⟩ := hheader
    cases h
    rfl
  intro k e hk
  rw [hempty, Finmap.lookup_empty] at hk
  cases hk

end IndexFromDBDecoder

end PeachDB.IndexCodec
