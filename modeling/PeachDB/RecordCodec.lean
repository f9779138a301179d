import PeachDB.Dtypes
import PeachDB.UpdateLog

/-!
# The data file encoders and decoder

`DBEncoder`, `DBDecoder` and `DBDeleter` of `codec.rs`. A record is a magic
word, two lengths, a checksum, the key and the field bytes; the checksum is
patched into the buffer after the payload is written. The `crc` crate enters
as a checksum function of which nothing is assumed here; concrete runs use the
algorithm that the program selects.
-/

namespace PeachDB.RecordCodec

open LittleEndian Dtypes

/-- The checksum of the `crc` crate, `CRC_32_ISO_HDLC` in the program. -/
class Crc where
  /-- `Crc::checksum`. -/
  checksum : Bytes → UInt32

namespace IsoHdlc

/-- One bit of CRC-32 with the reflected polynomial. -/
def crcBit (crc : UInt32) : UInt32 :=
  if crc &&& 1 = 1 then (crc >>> 1) ^^^ 0xEDB88320 else crc >>> 1

/-- One byte of CRC-32, lowest bit first. -/
def crcByte (crc : UInt32) (byte : UInt8) : UInt32 :=
  (List.range 8).foldl (fun crc _ => crcBit crc) (crc ^^^ byte.toUInt32)

/-- The algorithm `CRC_32_ISO_HDLC`. -/
scoped instance : Crc where
  checksum bytes := bytes.foldl crcByte 0xFFFFFFFF ^^^ 0xFFFFFFFF

/-- The check value of the algorithm: the checksum of the digits 1 to 9. -/
example : Crc.checksum [0x31, 0x32, 0x33, 0x34, 0x35, 0x36, 0x37, 0x38, 0x39] = 0xCBF43926 := by
  decide +kernel

end IsoHdlc

/-- `DbMeta`. -/
structure DbMeta where
  /-- The version of the format. -/
  version : UInt8
  /-- The number of keys at the last flush. -/
  recordCount : UInt64
  /-- The name of the database. -/
  name : String

/-- `RECORD_MAGIC_NUMBER`, the bytes of `REC` and `0x01`. -/
def recordMagicNumber : Bytes := [0x52, 0x45, 0x43, 0x01]

/-- `CRC_OFFSET`. -/
def crcOffset : ℕ := 4 + 2 + 4

/-- `DB_HEADER_KEY`, the ASCII text `Header--`. -/
def dbHeaderKey : Bytes := [0x48, 0x65, 0x61, 0x64, 0x65, 0x72, 0x2D, 0x2D]

/-- `DB_HEADER_MAGIC`. -/
def dbHeaderMagic : UInt64 := 0x50656163684442

/-- `DB_VERSION_KEY`, the ASCII text `Version-`. -/
def dbVersionKey : Bytes := [0x56, 0x65, 0x72, 0x73, 0x69, 0x6F, 0x6E, 0x2D]

/-- `DB_VERSION`. -/
def dbVersion : UInt8 := 1

/-- `DB_VERSION_DECIMAL`. -/
def dbVersionDecimal : UInt8 := 0

/-- `DB_RECORD_COUNT_KEY`, the ASCII text `RecCount`. -/
def dbRecordCountKey : Bytes := [0x52, 0x65, 0x63, 0x43, 0x6F, 0x75, 0x6E, 0x74]

/-- `DB_NAME_KEY`, the ASCII text `DB Name-`. -/
def dbNameKey : Bytes := [0x44, 0x42, 0x20, 0x4E, 0x61, 0x6D, 0x65, 0x2D]

/-- `DB_NAME_LEN`. -/
def dbNameLen : ℕ := 64

/-- `DBEncoder`: the output and the start of the record being written. -/
structure DBEncoder where
  /-- What has been encoded. -/
  buffer : Bytes
  /-- Where the field bytes of the record begin. -/
  fieldStartPosition : ℕ

namespace DBEncoder

/-- `DBEncoder::new`. -/
def new : DBEncoder := ⟨[], 0⟩

/-- Bytes at the end of the buffer. -/
def write (enc : DBEncoder) (bytes : Bytes) : DBEncoder :=
  { enc with buffer := enc.buffer ++ bytes }

/-- `encode_magic_number`. -/
def encodeMagicNumber (enc : DBEncoder) : DBEncoder :=
  { enc with fieldStartPosition := enc.buffer.length }.write recordMagicNumber

/-- The length is cut to 16 bits. -/
def encodeKeyLenU16 (enc : DBEncoder) (len : ℕ) : DBEncoder :=
  enc.write (ofU16 (UInt16.ofNat len))

/-- The length is cut to 32 bits. -/
def encodeFieldLenU32 (enc : DBEncoder) (len : ℕ) : DBEncoder :=
  enc.write (ofU32 (UInt32.ofNat len))

/-- `encode_key`. -/
def encodeKey (enc : DBEncoder) (key : Key) : DBEncoder := enc.write key.asBytes

/-- `encode_crc_placeholder`. -/
def encodeCrcPlaceholder (enc : DBEncoder) : DBEncoder := enc.write (List.replicate 4 0)

/-- Checksum everything behind the magic word of the current record, with
the placeholder still zero, and patch it in. -/
def encodeCrc [Crc] (enc : DBEncoder) : DBEncoder :=
  let checksum := Crc.checksum (enc.buffer.drop (enc.fieldStartPosition + 4))
  let offset := enc.fieldStartPosition + crcOffset
  { enc with buffer := overwrite enc.buffer offset (ofU32 checksum) }

/-- `encode_db_key_field_pair`. -/
def encodeDbKeyFieldPair [Crc] (enc : DBEncoder) (key : Key) (field : Field) : DBEncoder :=
  let payload := bytesFromField field
  (((((enc.encodeMagicNumber.encodeKeyLenU16 key.len).encodeFieldLenU32
    payload.length).encodeCrcPlaceholder).encodeKey key).write payload).encodeCrc

/-- The name as 64 bytes, cut or padded with zeros. -/
def encodeDbName (enc : DBEncoder) (name : String) : DBEncoder :=
  let nameAsBytes := stringBytes name
  let copyLen := min nameAsBytes.length dbNameLen
  enc.write (nameAsBytes.take copyLen ++ List.replicate (dbNameLen - copyLen) 0)

/-- `encode_db_header`; the version bytes are constants of the program. -/
def encodeDbHeader (enc : DBEncoder) (info : DbMeta) : DBEncoder :=
  ((((((((enc.write dbHeaderKey).write (ofU64 dbHeaderMagic)).write dbVersionKey).write
    [dbVersion]).write [dbVersionDecimal]).write dbRecordCountKey).write
    (ofU64 info.recordCount)).write dbNameKey).encodeDbName info.name

/-- `encode_db_file`, for one iteration order of the map. -/
def encodeDbFile [Crc] (enc : DBEncoder) (fields : List (Key × Field)) (info : DbMeta) :
    DBEncoder :=
  fields.foldl (fun enc e => enc.encodeDbKeyFieldPair e.1 e.2) (enc.encodeDbHeader info)

/-- `DBEncoder::finish`. -/
def finish (enc : DBEncoder) : Bytes := enc.buffer

end DBEncoder

/-- `encode`: one record on its own. -/
def encode [Crc] (key : Key) (field : Field) : Bytes :=
  (DBEncoder.new.encodeDbKeyFieldPair key field).finish

/-- `DBDeleter`. -/
structure DBDeleter where
  /-- What has been encoded. -/
  buffer : Bytes
  /-- The key length of the deleted record. -/
  keyLen : UInt16
  /-- The field length of the deleted record. -/
  fieldLen : UInt32

namespace DBDeleter

/-- `DBDeleter::new`, and the state after `reset`. -/
def new : DBDeleter := ⟨[], 0, 0⟩

/-- `set_key_len`. -/
def setKeyLen (del : DBDeleter) (len : UInt16) : DBDeleter := { del with keyLen := len }

/-- `set_field_len`. -/
def setFieldLen (del : DBDeleter) (len : UInt32) : DBDeleter := { del with fieldLen := len }

/-- Bytes at the end of the buffer. -/
def write (del : DBDeleter) (bytes : Bytes) : DBDeleter :=
  { del with buffer := del.buffer ++ bytes }

/-- `get_deleted_field`: a zero magic word, the lengths, and zeros. -/
def getDeletedField (del : DBDeleter) : DBDeleter :=
  (((((del.write (List.replicate 4 0)).write (ofU16 del.keyLen)).write (ofU32 del.fieldLen)).write
    (List.replicate 4 0)).write (List.replicate del.keyLen.toNat 0)).write
    (List.replicate del.fieldLen.toNat 0)

/-- `DBDeleter::finish`. -/
def finish (del : DBDeleter) : Bytes := del.buffer

end DBDeleter

/-- Number of bytes that `from_utf8_lossy` replaces by one replacement
character when no character starts at the head of `bs`. -/
def invalidPrefixLen (bs : Bytes) : ℕ :=
  let cont (b : UInt8) : Bool := 0x80 ≤ b && b ≤ 0xBF
  let at' (i : ℕ) : UInt8 := bs.getD i 0
  let b := at' 0
  let second : Bool :=
    (b == 0xE0 && 0xA0 ≤ at' 1 && at' 1 ≤ 0xBF) || (0xE1 ≤ b && b ≤ 0xEC && cont (at' 1)) ||
    (b == 0xED && 0x80 ≤ at' 1 && at' 1 ≤ 0x9F) || (0xEE ≤ b && b ≤ 0xEF && cont (at' 1)) ||
    (b == 0xF0 && 0x90 ≤ at' 1 && at' 1 ≤ 0xBF) || (0xF1 ≤ b && b ≤ 0xF3 && cont (at' 1)) ||
    (b == 0xF4 && 0x80 ≤ at' 1 && at' 1 ≤ 0x8F)
  if !second then 1 else if 0xF0 ≤ b && cont (at' 2) then 3 else 2

/-- The replacing branch of `String::from_utf8_lossy`, over `fuel` steps. -/
def lossyChars : ℕ → Bytes → List Char
  | 0, _ => []
  | _ + 1, [] => []
  | fuel + 1, bs =>
    match bs.toByteArray.utf8DecodeChar? 0 with
    | some c => c :: lossyChars fuel (bs.drop c.utf8Size)
    | none => Char.ofNat 0xFFFD :: lossyChars fuel (bs.drop (invalidPrefixLen bs))

/-- `String::from_utf8_lossy`: valid text is returned as it is. -/
def fromUtf8Lossy (bs : Bytes) : String :=
  match String.fromUTF8? bs.toByteArray with
  | some s => s
  | none => String.ofList (lossyChars bs.length bs)

/-- `str::trim_matches(char::from(0))`. -/
def trimNul (s : String) : String :=
  let nul (c : Char) : Bool := c == Char.ofNat 0
  String.ofList ((s.toList.dropWhile nul).reverse.dropWhile nul).reverse

/-- `DBDecoder`; the `last` fields carry the record being read. -/
structure DBDecoder where
  /-- The bytes that are decoded. -/
  cursor : Cursor
  /-- The fields so far. -/
  db : HashMap Key Field
  /-- The header, when it has been read. -/
  info : Option DbMeta
  /-- The last record has been deleted. -/
  deleted : Bool
  /-- The key length that has been read last. -/
  lastKeyLen : UInt16
  /-- The field length that has been read last. -/
  lastFieldLen : UInt32
  /-- The checksum that has been read last. -/
  lastCrc : UInt32
  /-- The key that has been read last. -/
  lastKey : Bytes
  /-- The field bytes that have been read last. -/
  lastField : Bytes

namespace DBDecoder

/-- `DBDecoder::new`. -/
def new (bytes : Bytes) : DBDecoder := ⟨⟨bytes, 0⟩, ∅, none, false, 0, 0, 0, [], []⟩

/-- `read_magic_number`. -/
def readMagicNumber (d : DBDecoder) : PDBResult DBDecoder := do
  let (recMagicNumber, cursor) ← readExact d.cursor 4
  if recMagicNumber = [0, 0, 0, 0] then .ok { d with cursor, deleted := true }
  else if recMagicNumber = recordMagicNumber then .ok { d with cursor, deleted := false }
  else failWith .invalidMagicBytes

/-- `read_key_len`. -/
def readKeyLen (d : DBDecoder) : PDBResult DBDecoder := do
  let (bytes, cursor) ← readExact d.cursor 2
  .ok { d with cursor, lastKeyLen := toU16 bytes }

/-- `read_field_len`. -/
def readFieldLen (d : DBDecoder) : PDBResult DBDecoder := do
  let (bytes, cursor) ← readExact d.cursor 4
  .ok { d with cursor, lastFieldLen := toU32 bytes }

/-- `read_crc`. -/
def readCrc (d : DBDecoder) : PDBResult DBDecoder := do
  let (bytes, cursor) ← readExact d.cursor 4
  .ok { d with cursor, lastCrc := toU32 bytes }

/-- `read_key`. -/
def readKey (d : DBDecoder) : PDBResult DBDecoder := do
  let (bytes, cursor) ← readExact d.cursor d.lastKeyLen.toNat
  .ok { d with cursor, lastKey := bytes }

/-- `read_field`. -/
def readField (d : DBDecoder) : PDBResult DBDecoder := do
  let (bytes, cursor) ← readExact d.cursor d.lastFieldLen.toNat
  .ok { d with cursor, lastField := bytes }

/-- `check_crc`: the checksum input is rebuilt from the pieces read. -/
def checkCrc [Crc] (d : DBDecoder) : PDBResult DBDecoder :=
  let headerForCrc := ofU16 d.lastKeyLen ++ ofU32 d.lastFieldLen ++ List.replicate 4 0 ++
    d.lastKey ++
    d.lastField
  if Crc.checksum headerForCrc ≠ d.lastCrc then failWith (.corruptedRecord .checksumMismatch)
  else .ok d

/-- `decode_db_key_field_pair`; a tombstone is read over and not checked. -/
def decodeDbKeyFieldPair [Crc] (d : DBDecoder) : PDBResult DBDecoder := do
  let d ← d.readMagicNumber
  let d ← d.readKeyLen
  let d ← d.readFieldLen
  let d ← d.readCrc
  let d ← d.readKey
  let d ← d.readField
  if !d.deleted then
    let d ← d.checkCrc
    let (field, _) ← fieldFromBytes d.lastField
    .ok { d with db := d.db.insert ⟨d.lastKey⟩ field }
  else .ok d

/-- `is_metadata_key`: any of the four section keys. -/
def isMetadataKey (key : Bytes) : Bool :=
  key == dbHeaderKey || key == dbVersionKey || key == dbRecordCountKey || key == dbNameKey

/-- `read_metadata_key`. -/
def readMetadataKey (d : DBDecoder) : PDBResult DBDecoder := do
  let (keyBuf, cursor) ← readExact d.cursor 8
  if isMetadataKey keyBuf then .ok { d with cursor } else failWith .invalidMagicBytes

/-- `decode_db_header`; the magic word and the minor version are skipped. -/
def decodeDbHeader (d : DBDecoder) : PDBResult DBDecoder := do
  let d := { d with cursor := { d.cursor with pos := 0 } }
  let d ← d.readMetadataKey
  let (_, cursor) ← readExact d.cursor 8
  let d ← { d with cursor }.readMetadataKey
  let (version, cursor) ← readExact d.cursor 1
  let (_, cursor) ← readExact cursor 1
  let d ← { d with cursor }.readMetadataKey
  let (recordCount, cursor) ← readExact d.cursor 8
  let d ← { d with cursor }.readMetadataKey
  let (dbName, cursor) ← readExact d.cursor 64
  .ok { d with
    cursor
    info := some ⟨version.headD 0, toU64 recordCount, trimNul (fromUtf8Lossy dbName)⟩ }

/-- The loop test shared by all decoders: the cursor is before the end. -/
def more (d : DBDecoder) : Bool := d.cursor.pos < d.cursor.buf.length

/-- `decode_db_file`; every round reads at least one byte, so that the buffer
length is fuel enough. -/
def decodeDbFile [Crc] (d : DBDecoder) : PDBResult DBDecoder := do
  let d ← d.decodeDbHeader
  loop more decodeDbKeyFieldPair (d.cursor.buf.length + 1) d

/-- `finish`. -/
def finish (d : DBDecoder) : PDBResult (HashMap Key Field × DbMeta) :=
  match d.info with
  | some info => .ok (d.db, info)
  | none => failWith .invalidFinishCall

end DBDecoder

/-- `decode`: the first entry of the decoded map, where `iter` gives the order
in which maps are iterated. -/
def decode [Crc] (iter : HashMap Key Field → List (Key × Field)) (bytes : Bytes) :
    PDBResult (Key × Field) := do
  let dec ← (DBDecoder.new bytes).decodeDbKeyFieldPair
  match iter dec.db with
  | (k, v) :: _ => .ok (k, v)
  | [] => failWith .invalidFinishCall

/-- The magic word of a record, zero for a tombstone. -/
def magicOf (deleted : Bool) : Bytes := if deleted then [0, 0, 0, 0] else recordMagicNumber

/-- Both magic numbers have four bytes. -/
@[simp] theorem length_magicOf (deleted : Bool) : (magicOf deleted).length = 4 := by
  cases deleted <;> rfl

/-- Reading one of the two magic words into a state. -/
theorem readMagic_eq_ok_iff {σ : Type} {c : Cursor} (f : Bool → Cursor → σ) {s : σ} :
    (do
      let (magic, cursor) ← readExact c 4
      if magic = [0, 0, 0, 0] then Except.ok (f true cursor)
      else if magic = recordMagicNumber then Except.ok (f false cursor)
      else failWith .invalidMagicBytes : PDBResult σ) = .ok s ↔
      ∃ deleted ys, c.rest = magicOf deleted ++ ys ∧ s = f deleted (c.advance 4) := by
  rw [bind_eq_ok_iff]
  constructor
  · rintro ⟨⟨magic, cursor⟩, hread, h⟩
    obtain ⟨-, rfl, ys, hrest⟩ := readExact_eq_ok_iff.mp hread
    dsimp only at h
    split at h
    · rename_i hzero
      cases h
      exact ⟨true, ys, by rw [hrest, hzero]; rfl, rfl⟩
    · split at h
      · rename_i hmagic
        cases h
        exact ⟨false, ys, by rw [hrest, hmagic]; rfl, rfl⟩
      · cases h
  · rintro ⟨deleted, ys, hrest, rfl⟩
    refine ⟨_, readExact_eq_ok_iff.mpr ⟨length_magicOf deleted, rfl, ys, hrest⟩, ?_⟩
    cases deleted <;> rfl

/-- The checksum input of a record: everything behind the magic word, with
the checksum itself zero. -/
def crcInput (keyLen : UInt16) (fieldLen : UInt32) (key field : Bytes) : Bytes :=
  ofU16 keyLen ++ ofU32 fieldLen ++ List.replicate 4 0 ++ key ++ field

/-- A record with the given parts. -/
def layout (magic : Bytes) (keyLen : UInt16) (fieldLen crc : UInt32) (key field : Bytes) : Bytes :=
  magic ++ ofU16 keyLen ++ ofU32 fieldLen ++ ofU32 crc ++ key ++ field

/-- The record that the encoder writes for a pair. -/
def encodedRecord [Crc] (key : Key) (field : Field) : Bytes :=
  let keyLen := UInt16.ofNat key.len
  let fieldLen := UInt32.ofNat (bytesFromField field).length
  layout recordMagicNumber keyLen fieldLen
    (Crc.checksum (crcInput keyLen fieldLen key.asBytes (bytesFromField field)))
    key.asBytes (bytesFromField field)

/-- The patched checksum lands on the placeholder, wherever in the buffer the
record starts. -/
theorem encodeDbKeyFieldPair_buffer [Crc] (enc : DBEncoder) (key : Key) (field : Field) :
    (enc.encodeDbKeyFieldPair key field).buffer = enc.buffer ++ encodedRecord key field := by
  let keyLen := UInt16.ofNat key.len
  let fieldLen := UInt32.ofNat (bytesFromField field).length
  let front := enc.buffer ++ recordMagicNumber ++ ofU16 keyLen ++ ofU32 fieldLen
  let back := key.asBytes ++ bytesFromField field
  have hfront : front.length = enc.buffer.length + crcOffset := by
    simp [front, recordMagicNumber, crcOffset]
  have hplain : (((((enc.encodeMagicNumber.encodeKeyLenU16 key.len).encodeFieldLenU32
      (bytesFromField field).length).encodeCrcPlaceholder).encodeKey key).write
      (bytesFromField field)) = ⟨front ++ List.replicate 4 0 ++ back, enc.buffer.length⟩ := by
    simp [DBEncoder.encodeMagicNumber, DBEncoder.encodeKeyLenU16, DBEncoder.encodeFieldLenU32,
      DBEncoder.encodeCrcPlaceholder, DBEncoder.encodeKey, DBEncoder.write, front, back, keyLen,
      fieldLen]
  have hinput : (front ++ List.replicate 4 0 ++ back).drop (enc.buffer.length + 4) =
      crcInput keyLen fieldLen key.asBytes (bytesFromField field) := by
    have hsplit : front ++ List.replicate 4 0 ++ back = (enc.buffer ++ recordMagicNumber) ++
        crcInput keyLen fieldLen key.asBytes (bytesFromField field) := by
      simp [front, back, crcInput]
    rw [hsplit, List.drop_left' (by simp [recordMagicNumber])]
  rw [DBEncoder.encodeDbKeyFieldPair, hplain, DBEncoder.encodeCrc]
  dsimp only
  rw [hinput, ← hfront, overwrite_append _ _ _ _ (by simp)]
  simp [encodedRecord, layout, front, back, keyLen, fieldLen]

/-- The encoder writes one record with its checksum in place. -/
theorem encode_eq [Crc] (key : Key) (field : Field) :
    encode key field = encodedRecord key field := by
  rw [encode, DBEncoder.finish, encodeDbKeyFieldPair_buffer]
  rfl

end PeachDB.RecordCodec
