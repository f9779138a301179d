import PeachDB.DataFile

/-!
# Decoding data files

The data decoder succeeds exactly on the bytes of a data file and returns the
map that the file stands for. The index scan succeeds on every data file
without empty live keys and returns the index of the file.
-/

namespace PeachDB

open LittleEndian Dtypes RecordCodec IndexCodec

namespace Header

/-- Where the parts of a header stand in bytes that start with it. -/
structure StandsIn (h : Header) (bytes ys : Bytes) : Prop where
  /-- The first literal is read at the front. -/
  headerKey : ∃ zs, (⟨bytes, 0⟩ : Cursor).rest = h.headerKey ++ zs
  /-- The magic word is read behind it. -/
  magic : ∃ zs, (⟨bytes, 8⟩ : Cursor).rest = h.magic ++ zs
  versionKey : ∃ zs, (⟨bytes, 16⟩ : Cursor).rest = h.versionKey ++ zs
  version : ∃ zs, (⟨bytes, 24⟩ : Cursor).rest = [h.version] ++ zs
  versionDecimal : ∃ zs, (⟨bytes, 25⟩ : Cursor).rest = [h.versionDecimal] ++ zs
  recordCountKey : ∃ zs, (⟨bytes, 26⟩ : Cursor).rest = h.recordCountKey ++ zs
  recordCount : ∃ zs, (⟨bytes, 34⟩ : Cursor).rest = ofU64 h.recordCount ++ zs
  nameKey : ∃ zs, (⟨bytes, 42⟩ : Cursor).rest = h.nameKey ++ zs
  /-- The name is read last, and `ys` stands behind it. -/
  name : (⟨bytes, 50⟩ : Cursor).rest = h.name ++ ys

/-- A header in front of a file can be read. -/
theorem standsIn {bytes ys : Bytes} (h : Header) (hbytes : bytes = h.bytes ++ ys) :
    h.StandsIn bytes ys := by
  have r₀ : (⟨bytes, 0⟩ : Cursor).rest = h.bytes ++ ys := hbytes
  simp only [Header.bytes, front, back, List.append_assoc] at r₀
  have r₁ := Cursor.rest_advance_of_append r₀ (length_of_isMetadataKey h.headerKey_known)
  have r₂ := Cursor.rest_advance_of_append r₁ h.length_magic
  have r₃ := Cursor.rest_advance_of_append r₂ (length_of_isMetadataKey h.versionKey_known)
  have r₄ := Cursor.rest_advance_of_append r₃ (List.length_singleton (a := h.version))
  have r₅ := Cursor.rest_advance_of_append r₄ (List.length_singleton (a := h.versionDecimal))
  have r₆ := Cursor.rest_advance_of_append r₅ (length_of_isMetadataKey h.recordCountKey_known)
  have r₇ := Cursor.rest_advance_of_append r₆ (length_ofU64 _)
  have r₈ := Cursor.rest_advance_of_append r₇ (length_of_isMetadataKey h.nameKey_known)
  exact ⟨⟨_, r₀⟩, ⟨_, r₁⟩, ⟨_, r₂⟩, ⟨_, r₃⟩, ⟨_, r₄⟩, ⟨_, r₅⟩, ⟨_, r₆⟩, ⟨_, r₇⟩, r₈⟩

end Header

namespace RecordCodec.DBDecoder

/-- A magic number is read when one of the two is there. -/
theorem readMagicNumber_eq_ok_iff {d t : DBDecoder} : d.readMagicNumber = .ok t ↔
    ∃ deleted ys, d.cursor.rest = magicOf deleted ++ ys ∧
      t = { d with cursor := d.cursor.advance 4, deleted } :=
  readMagic_eq_ok_iff (c := d.cursor) fun deleted cursor => ({ d with cursor, deleted } : DBDecoder)

/-- A key length is read when its two bytes are there. -/
theorem readKeyLen_eq_ok_iff {d t : DBDecoder} : d.readKeyLen = .ok t ↔
    ∃ n ys, d.cursor.rest = ofU16 n ++ ys ∧
    t = { d with cursor := d.cursor.advance 2, lastKeyLen := n } :=
  readU16_eq_ok_iff (c := d.cursor) fun n cursor => ({ d with cursor, lastKeyLen := n } : DBDecoder)

/-- A field length is read when its four bytes are there. -/
theorem readFieldLen_eq_ok_iff {d t : DBDecoder} : d.readFieldLen = .ok t ↔
    ∃ n ys, d.cursor.rest = ofU32 n ++ ys ∧
      t = { d with cursor := d.cursor.advance 4, lastFieldLen := n } :=
  readU32_eq_ok_iff (c := d.cursor) fun n cursor =>
    ({ d with cursor, lastFieldLen := n } : DBDecoder)

/-- A checksum is read when its four bytes are there. -/
theorem readCrc_eq_ok_iff {d t : DBDecoder} : d.readCrc = .ok t ↔
    ∃ n ys, d.cursor.rest = ofU32 n ++ ys ∧
    t = { d with cursor := d.cursor.advance 4, lastCrc := n } :=
  readU32_eq_ok_iff (c := d.cursor) fun n cursor => ({ d with cursor, lastCrc := n } : DBDecoder)

/-- A key is read when its bytes are there. -/
theorem readKey_eq_ok_iff {d t : DBDecoder} : d.readKey = .ok t ↔
    ∃ xs ys, xs.length = d.lastKeyLen.toNat ∧ d.cursor.rest = xs ++ ys ∧
      t = { d with cursor := d.cursor.advance d.lastKeyLen.toNat, lastKey := xs } :=
  readBytes_eq_ok_iff (c := d.cursor) fun xs cursor =>
    ({ d with cursor, lastKey := xs } : DBDecoder)

/-- Field bytes are read when they are there. -/
theorem readField_eq_ok_iff {d t : DBDecoder} : d.readField = .ok t ↔
    ∃ xs ys, xs.length = d.lastFieldLen.toNat ∧ d.cursor.rest = xs ++ ys ∧
      t = { d with cursor := d.cursor.advance d.lastFieldLen.toNat, lastField := xs } :=
  readBytes_eq_ok_iff (c := d.cursor) fun xs cursor =>
    ({ d with cursor, lastField := xs } : DBDecoder)

/-- The check passes when the checksum is the one of the parts. -/
theorem checkCrc_eq_ok_iff [Crc] {d t : DBDecoder} : d.checkCrc = .ok t ↔
    Crc.checksum (crcInput d.lastKeyLen d.lastFieldLen d.lastKey d.lastField) = d.lastCrc ∧
    t = d := by
  rw [checkCrc]
  constructor
  · intro h
    split at h
    · cases h
    · rename_i hcrc
      cases h
      exact ⟨not_not.mp hcrc, rfl⟩
  · rintro ⟨hcrc, rfl⟩
    exact if_neg (not_not.mpr hcrc)

/-- The decoder when a record has been read. -/
def after [Crc] (d : DBDecoder) (r : Record) : DBDecoder where
  cursor := d.cursor.advance r.bytes.length
  db := (r.value?.map (d.db.insert r.parts.key)).getD d.db
  info := d.info
  deleted := r.isDead
  lastKeyLen := r.parts.keyLen
  lastFieldLen := r.parts.fieldLen
  lastCrc := r.crc
  lastKey := r.parts.key.asBytes
  lastField := r.parts.field

/-- The state of the decoder when the six parts of a record have been read. -/
def partsRead (d : DBDecoder) (deleted : Bool) (parts : Parts) (crc : UInt32) : DBDecoder :=
  { d with
    cursor := d.cursor.advance (14 + parts.key.len + parts.field.length)
    deleted
    lastKeyLen := parts.keyLen
    lastFieldLen := parts.fieldLen
    lastCrc := crc
    lastKey := parts.key.asBytes
    lastField := parts.field }

/-- Reading the six parts, before the checksum is looked at. -/
theorem readParts_eq_ok_iff {d t : DBDecoder} :
    (do
      let d ← d.readMagicNumber
      let d ← d.readKeyLen
      let d ← d.readFieldLen
      let d ← d.readCrc
      let d ← d.readKey
      d.readField : PDBResult DBDecoder) = .ok t ↔
      ∃ deleted parts crc ys, d.cursor.rest =
        layout (magicOf deleted) parts.keyLen parts.fieldLen crc parts.key.asBytes parts.field ++
          ys ∧
        t = d.partsRead deleted parts crc := by
  simp only [bind_eq_ok_iff, readMagicNumber_eq_ok_iff, readKeyLen_eq_ok_iff,
    readFieldLen_eq_ok_iff, readCrc_eq_ok_iff, readKey_eq_ok_iff, readField_eq_ok_iff]
  constructor
  · rintro ⟨_, ⟨deleted, ys₁, h₁, rfl⟩, _, ⟨keyLen, ys₂, h₂, rfl⟩, _, ⟨fieldLen, ys₃, h₃, rfl⟩,
      _, ⟨crc, ys₄, h₄, rfl⟩, _, ⟨key, ys₅, hkey, h₅, rfl⟩, field, ys₆, hfield, h₆, rfl⟩
    dsimp only at h₂ h₃ h₄ h₅ h₆ hkey hfield
    have r₁ := Cursor.rest_advance_of_append h₁ (length_magicOf _)
    rw [r₁] at h₂
    have r₂ := Cursor.rest_advance_of_append (r₁.trans h₂) (length_ofU16 _)
    rw [r₂] at h₃
    have r₃ := Cursor.rest_advance_of_append (r₂.trans h₃) (length_ofU32 _)
    rw [r₃] at h₄
    have r₄ := Cursor.rest_advance_of_append (r₃.trans h₄) (length_ofU32 _)
    rw [r₄] at h₅
    have r₅ := Cursor.rest_advance_of_append (r₄.trans h₅) hkey
    rw [r₅] at h₆
    refine ⟨deleted, .ofLens keyLen fieldLen key field hkey hfield, crc, ys₆, ?_, ?_⟩
    · simp only [h₁, h₂, h₃, h₄, h₅, h₆, layout, Parts.ofLens, Parts.keyLen,
        Parts.fieldLen, Key.len, hkey, hfield, UInt16.ofNat_toNat, UInt32.ofNat_toNat,
        List.append_assoc]
    · simp only [partsRead, Parts.ofLens, Parts.keyLen, Parts.fieldLen, Key.len, hkey, hfield,
        UInt16.ofNat_toNat, UInt32.ofNat_toNat, Cursor.advance_advance]
  · rintro ⟨deleted, parts, crc, ys, h, rfl⟩
    simp only [layout, List.append_assoc] at h
    have r₁ := Cursor.rest_advance_of_append h (length_magicOf _)
    have r₂ := Cursor.rest_advance_of_append r₁ (length_ofU16 _)
    have r₃ := Cursor.rest_advance_of_append r₂ (length_ofU32 _)
    have r₄ := Cursor.rest_advance_of_append r₃ (length_ofU32 _)
    have hkey : parts.key.asBytes.length = parts.keyLen.toNat := parts.toNat_keyLen.symm
    have hfield : parts.field.length = parts.fieldLen.toNat := parts.toNat_fieldLen.symm
    have r₅ := Cursor.rest_advance_of_append r₄ hkey
    refine ⟨_, ⟨_, _, h, rfl⟩, _, ⟨_, _, r₁, rfl⟩, _, ⟨_, _, r₂, rfl⟩, _, ⟨_, _, r₃, rfl⟩, _,
      ⟨_, _, hkey, r₄, rfl⟩, _, _, hfield, r₅, ?_⟩
    simp only [partsRead, Cursor.advance_advance, Parts.toNat_keyLen, Parts.toNat_fieldLen]

/-- First the six parts are read, then the checksum and the field are looked
at. -/
theorem decodeDbKeyFieldPair_eq [Crc] (d : DBDecoder) : d.decodeDbKeyFieldPair = (do
    let d ← (do
      let d ← d.readMagicNumber
      let d ← d.readKeyLen
      let d ← d.readFieldLen
      let d ← d.readCrc
      let d ← d.readKey
      d.readField : PDBResult DBDecoder)
    if !d.deleted then
      let d ← d.checkCrc
      let decoded ← fieldFromBytes d.lastField
      .ok { d with db := d.db.insert ⟨d.lastKey⟩ decoded.1 }
    else .ok d) := by
  simp only [decodeDbKeyFieldPair, bind_assoc]

/-- A record is read exactly when the cursor stands before a whole one. -/
theorem decodeDbKeyFieldPair_eq_ok_iff [Crc] {d t : DBDecoder} : d.decodeDbKeyFieldPair = .ok t ↔
    ∃ (r : Record) (ys : Bytes), d.cursor.rest = r.bytes ++ ys ∧ t = d.after r := by
  rw [decodeDbKeyFieldPair_eq, bind_eq_ok_iff]
  simp only [readParts_eq_ok_iff]
  constructor
  · rintro ⟨_, ⟨deleted, parts, crc, ys, h, rfl⟩, ht⟩
    cases deleted with
    | true =>
      cases ht
      refine ⟨.dead parts crc, ys, h, ?_⟩
      simp only [after, Record.length_bytes]
      rfl
    | false =>
      simp only [partsRead, Bool.not_false, if_true, bind_eq_ok_iff, checkCrc_eq_ok_iff] at ht
      obtain ⟨_, ⟨hcrc, rfl⟩, ⟨value, used⟩, hvalue, ht⟩ := ht
      cases ht
      dsimp only at hcrc hvalue
      refine ⟨.live parts value used hvalue, ys, ?_, ?_⟩
      · rw [h, ← hcrc]
        rfl
      · simp only [after, Record.length_bytes, ← hcrc]
        rfl
  · rintro ⟨r, ys, h, rfl⟩
    refine ⟨_, ⟨r.isDead, r.parts, r.crc, ys, h, rfl⟩, ?_⟩
    cases r with
    | dead parts crc =>
      simp only [after, Record.length_bytes]
      rfl
    | live parts value used decodes =>
      have hdecodes : fieldFromBytes (Record.live parts value used decodes).parts.field =
          .ok (value, used) := decodes
      simp only [partsRead, Record.isDead, Bool.not_false, if_true, bind_eq_ok_iff,
        checkCrc_eq_ok_iff]
      refine ⟨_, ⟨rfl, rfl⟩, _, hdecodes, ?_⟩
      simp only [after, Record.length_bytes]
      rfl

/-- The loop reads records. -/
theorem framed [Crc] : Framed more decodeDbKeyFieldPair cursor Record.bytes after where
  more_iff d := by rw [more, decide_eq_true_iff, Cursor.pos_lt_iff]
  frame_ne_nil r h := by
    have := congrArg List.length h
    rw [Record.length_bytes, Record.size, List.length_nil] at this
    omega
  cursor_after _ _ := rfl
  body_of_rest d r ys h := decodeDbKeyFieldPair_eq_ok_iff.mpr ⟨r, ys, h, rfl⟩

/-- A literal of the header is read when one of the four is there. -/
theorem readMetadataKey_eq_ok_iff {d t : DBDecoder} : d.readMetadataKey = .ok t ↔
    ∃ key ys, isMetadataKey key = true ∧ d.cursor.rest = key ++ ys ∧
      t = { d with cursor := d.cursor.advance 8 } := by
  rw [readMetadataKey, bind_eq_ok_iff]
  constructor
  · rintro ⟨⟨key, cursor⟩, hread, h⟩
    obtain ⟨-, rfl, ys, hrest⟩ := readExact_eq_ok_iff.mp hread
    dsimp only at h
    split at h
    · rename_i hknown
      cases h
      exact ⟨key, ys, hknown, hrest, rfl⟩
    · cases h
  · rintro ⟨key, ys, hknown, hrest, rfl⟩
    refine ⟨_, readExact_eq_ok_iff.mpr ⟨length_of_isMetadataKey hknown, rfl, ys, hrest⟩, ?_⟩
    exact if_pos hknown

/-- The decoder when the header has been read. -/
def afterHeader (bytes : Bytes) (h : Header) : DBDecoder :=
  { new bytes with cursor := ⟨bytes, 114⟩, info := some h.info }

/-- The header is read exactly when the file starts with one. -/
theorem decodeDbHeader_eq_ok_iff {bytes : Bytes} {t : DBDecoder} :
    (new bytes).decodeDbHeader = .ok t ↔
      ∃ (h : Header) (ys : Bytes), bytes = h.bytes ++ ys ∧ t = afterHeader bytes h := by
  have hstart : (Cursor.mk bytes 0).rest = bytes := rfl
  simp only [decodeDbHeader, new, bind_eq_ok_iff, readMetadataKey_eq_ok_iff, Prod.exists,
    readExact_eq_ok_iff]
  constructor
  · rintro ⟨_, ⟨key₁, ys₁, known₁, h₁, rfl⟩, magic, _, ⟨hmagic, rfl, ys₂, h₂⟩,
      _, ⟨key₂, ys₃, known₂, h₃, rfl⟩, version, _, ⟨hversion, rfl, ys₄, h₄⟩,
      decimal, _, ⟨hdecimal, rfl, ys₅, h₅⟩, _, ⟨key₃, ys₆, known₃, h₆, rfl⟩,
      count, _, ⟨hcount, rfl, ys₇, h₇⟩, _, ⟨key₄, ys₈, known₄, h₈, rfl⟩,
      name, _, ⟨hname, rfl, ys₉, h₉⟩, ht⟩
    cases ht
    dsimp only at h₁ h₂ h₃ h₄ h₅ h₆ h₇ h₈ h₉
    rw [hstart] at h₁
    have r₁ := Cursor.rest_advance_of_append (hstart.trans h₁)
      (length_of_isMetadataKey known₁)
    rw [r₁] at h₂
    have r₂ := Cursor.rest_advance_of_append (r₁.trans h₂) hmagic
    rw [r₂] at h₃
    have r₃ := Cursor.rest_advance_of_append (r₂.trans h₃) (length_of_isMetadataKey known₂)
    rw [r₃] at h₄
    have r₄ := Cursor.rest_advance_of_append (r₃.trans h₄) hversion
    rw [r₄] at h₅
    have r₅ := Cursor.rest_advance_of_append (r₄.trans h₅) hdecimal
    rw [r₅] at h₆
    have r₆ := Cursor.rest_advance_of_append (r₅.trans h₆) (length_of_isMetadataKey known₃)
    rw [r₆] at h₇
    have r₇ := Cursor.rest_advance_of_append (r₆.trans h₇) hcount
    rw [r₇] at h₈
    have r₈ := Cursor.rest_advance_of_append (r₇.trans h₈) (length_of_isMetadataKey known₄)
    rw [r₈] at h₉
    obtain ⟨v, rfl⟩ := List.length_eq_one_iff.mp hversion
    obtain ⟨m, rfl⟩ := List.length_eq_one_iff.mp hdecimal
    refine ⟨⟨key₁, known₁, magic, hmagic, key₂, known₂, v, m, key₃, known₃,
      toU64 count, key₄, known₄, name, hname⟩, ys₉, ?_, ?_⟩
    · simp only [Header.bytes, Header.front, Header.back, List.append_assoc, ofU64_toU64 hcount]
      rw [h₁, h₂, h₃, h₄, h₅, h₆, h₇, h₈, h₉]
    · simp only [afterHeader, Header.info, Cursor.advance_advance]
      rfl
  · rintro ⟨h, ys, hbytes, rfl⟩
    obtain ⟨⟨_, h₀⟩, ⟨_, h₁⟩, ⟨_, h₂⟩, ⟨_, h₃⟩, ⟨_, h₄⟩,
      ⟨_, h₅⟩, ⟨_, h₆⟩, ⟨_, h₇⟩, h₈⟩ := h.standsIn hbytes
    refine ⟨_, ⟨_, _, h.headerKey_known, h₀, rfl⟩, _, _, ⟨h.length_magic, rfl, _, h₁⟩,
      _, ⟨_, _, h.versionKey_known, h₂, rfl⟩, _, _, ⟨List.length_singleton, rfl, _, h₃⟩,
      _, _, ⟨List.length_singleton, rfl, _, h₄⟩, _, ⟨_, _, h.recordCountKey_known, h₅, rfl⟩,
      _, _, ⟨length_ofU64 _, rfl, _, h₆⟩, _, ⟨_, _, h.nameKey_known, h₇, rfl⟩,
      _, _, ⟨h.length_name, rfl, _, h₈⟩, ?_⟩
    simp only [afterHeader, Header.info, Cursor.advance_advance, toU64_ofU64]
    rfl

/-- Records leave the header information as it is. -/
theorem info_foldl_after [Crc] (d : DBDecoder) (rs : List Record) :
    (rs.foldl after d).info = d.info := by
  induction rs generalizing d with
  | nil => rfl
  | cons r rs ih => exact ih (d.after r)

/-- Reading records inserts their values in file order. -/
theorem db_foldl_after [Crc] (d : DBDecoder) (rs : List Record) (base : ℕ) :
    (rs.foldl after d).db =
      insertAll d.db (((slotsFrom base rs).filterMap Slot.stored?).map fun x =>
        (x.1, x.2.value)) := by
  induction rs generalizing d base with
  | nil => rfl
  | cons r rs ih =>
    rw [List.foldl_cons, ih (d.after r) (base + r.size), slotsFrom, List.filterMap_cons]
    cases r <;> rfl

/-- The rounds of the record loop start behind the header. -/
theorem decodeDbFile_eq_ok_iff_loop [Crc] {bytes : Bytes} {t : DBDecoder} :
    (new bytes).decodeDbFile = .ok t ↔ ∃ df : DataFile, bytes = df.bytes ∧
      t = df.records.foldl after (afterHeader bytes df.header) := by
  rw [decodeDbFile, bind_eq_ok_iff]
  constructor
  · rintro ⟨_, hheader, hloop⟩
    obtain ⟨h, ys, hbytes, rfl⟩ := decodeDbHeader_eq_ok_iff.mp hheader
    have hrest : (afterHeader bytes h).cursor.rest = ys := by
      change bytes.drop 114 = ys
      rw [hbytes, List.drop_left' h.length_bytes]
    obtain ⟨rs, hrs, rfl⟩ := framed.eq_of_loop_eq_ok
      (fun _ _ h => decodeDbKeyFieldPair_eq_ok_iff.mp h)
      (by rw [Cursor.length_rest]; omega) hloop
    refine ⟨⟨h, rs⟩, ?_, rfl⟩
    rw [hbytes, ← hrest, hrs]
    rfl
  · rintro ⟨df, hbytes, rfl⟩
    refine ⟨_, decodeDbHeader_eq_ok_iff.mpr ⟨df.header, _, hbytes, rfl⟩, ?_⟩
    refine framed.loop_eq_ok (by rw [Cursor.length_rest]; omega) ?_
    change bytes.drop 114 = _
    rw [hbytes, DataFile.bytes, List.drop_left' df.header.length_bytes]

end RecordCodec.DBDecoder

/-- The data decoder accepts exactly the bytes of data files, and returns the
map of the file. -/
theorem decodeDbFile_eq_ok_iff [Crc] {bytes : Bytes} {fields : HashMap Key Field} {info : DbMeta} :
    (do let d ← (DBDecoder.new bytes).decodeDbFile; d.finish) = .ok (fields, info) ↔
      ∃ df : DataFile, bytes = df.bytes ∧ fields = df.fields ∧ info = df.header.info := by
  rw [bind_eq_ok_iff]
  have hfinish : ∀ df : DataFile,
      (df.records.foldl DBDecoder.after (DBDecoder.afterHeader bytes df.header)).finish =
        .ok (df.fields, df.header.info) := by
    intro df
    rw [DBDecoder.finish, DBDecoder.info_foldl_after, DBDecoder.db_foldl_after _ _ 114]
    rfl
  constructor
  · rintro ⟨_, hd, h⟩
    obtain ⟨df, hbytes, rfl⟩ := DBDecoder.decodeDbFile_eq_ok_iff_loop.mp hd
    rw [hfinish] at h
    cases h
    exact ⟨df, hbytes, rfl, rfl⟩
  · rintro ⟨df, hbytes, rfl, rfl⟩
    exact ⟨_, DBDecoder.decodeDbFile_eq_ok_iff_loop.mpr ⟨df, hbytes, rfl⟩, hfinish df⟩

/-- Decoding the bytes of a data file, with the result of `finish`. -/
def decodeFile [Crc] (bytes : Bytes) : PDBResult (HashMap Key Field × DbMeta) := do
  let decoder ← (DBDecoder.new bytes).decodeDbFile
  decoder.finish

/-- The bytes of a data file are decoded to its map. -/
theorem decodeFile_bytes [Crc] (df : DataFile) :
    decodeFile df.bytes = .ok (df.fields, df.header.info) :=
  decodeDbFile_eq_ok_iff.mpr ⟨df, rfl, rfl, rfl⟩

/-- A record is determined by its bytes, whatever follows. -/
theorem Record.eq_of_bytes_append [Crc] {r s : Record} {xs ys : Bytes}
    (h : r.bytes ++ xs = s.bytes ++ ys) : r = s := by
  have hr := DBDecoder.framed.body_of_rest (DBDecoder.new (r.bytes ++ xs)) r xs rfl
  have hs := DBDecoder.framed.body_of_rest (DBDecoder.new (r.bytes ++ xs)) s ys h
  have hafter := Except.ok.inj (hr.symm.trans hs)
  have hdead : r.isDead = s.isDead := congrArg DBDecoder.deleted hafter
  have hcrc : r.crc = s.crc := congrArg DBDecoder.lastCrc hafter
  have hkey : r.parts.key.asBytes = s.parts.key.asBytes := congrArg DBDecoder.lastKey hafter
  have hfield : r.parts.field = s.parts.field := congrArg DBDecoder.lastField hafter
  have hparts : r.parts = s.parts := by
    cases hp : r.parts with
    | mk key field key_lt field_lt =>
      cases hq : s.parts with
      | mk key' field' key_lt' field_lt' =>
        rw [hp, hq] at hkey hfield
        cases key
        cases key'
        cases hkey
        cases hfield
        rfl
  cases r with
  | live parts value used decodes =>
    cases s with
    | live parts' value' used' decodes' =>
      cases hparts
      rw [decodes] at decodes'
      cases decodes'
      rfl
    | dead => cases hdead
  | dead parts crc =>
    cases s with
    | live => cases hdead
    | dead parts' crc' =>
      cases hparts
      cases hcrc
      rfl

/-- The records of a data file are determined by its bytes. -/
theorem DataFile.records_eq_of_bytes_eq [Crc] {df df' : DataFile} (h : df.bytes = df'.bytes) :
    df.records = df'.records := by
  have hrecords := (List.append_inj h (by simp)).2
  generalize df.records = rs at hrecords ⊢
  generalize df'.records = ts at hrecords ⊢
  induction rs generalizing ts with
  | nil =>
    cases ts with
    | nil => rfl
    | cons t ts =>
      rw [List.flatMap_cons, List.flatMap_nil] at hrecords
      exact absurd (List.append_eq_nil_iff.mp hrecords.symm).1 (DBDecoder.framed.frame_ne_nil t)
  | cons r rs ih =>
    cases ts with
    | nil =>
      rw [List.flatMap_cons, List.flatMap_nil] at hrecords
      exact absurd (List.append_eq_nil_iff.mp hrecords).1 (DBDecoder.framed.frame_ne_nil r)
    | cons t ts =>
      rw [List.flatMap_cons, List.flatMap_cons] at hrecords
      obtain rfl := Record.eq_of_bytes_append hrecords
      rw [ih ts (List.append_cancel_left hrecords)]

namespace IndexCodec.IndexFromDBDecoder

/-- Records that the scan can read: a live one has a non-empty key. -/
abbrev Scannable := { r : Record // r.isDead = false → r.parts.key.asBytes ≠ [] }

/-- The scan when a record has been read. -/
def after [Crc] (d : IndexFromDBDecoder) (r : Scannable) : IndexFromDBDecoder where
  cursor := d.cursor.advance r.1.bytes.length
  index :=
    if r.1.isDead then d.index
    else d.index.insert r.1.parts.key ⟨UInt64.ofNat d.cursor.pos, r.1.parts.keyLen,
      r.1.parts.fieldLen⟩
  lastKeyLen := r.1.parts.keyLen
  lastFieldLen := r.1.parts.fieldLen
  lastKey := r.1.parts.key.asBytes
  lastIndex := UInt64.ofNat d.cursor.pos
  deleted := r.1.isDead

/-- The scan when a record has been read over and not yet been indexed. -/
def passed [Crc] (d : IndexFromDBDecoder) (r : Record) : IndexFromDBDecoder where
  cursor := d.cursor.advance r.bytes.length
  index := d.index
  lastKeyLen := r.parts.keyLen
  lastFieldLen := r.parts.fieldLen
  lastKey := r.parts.key.asBytes
  lastIndex := UInt64.ofNat d.cursor.pos
  deleted := r.isDead

/-- A whole record at the cursor is read over before it is indexed. -/
theorem decodeRecord_of_record [Crc] {d : IndexFromDBDecoder} {r : Record} {ys : Bytes}
    (h : d.cursor.rest = r.bytes ++ ys) : d.decodeRecord = (d.passed r).indexPush := by
  simp only [Record.bytes, layout, List.append_assoc] at h
  have r₁ := Cursor.rest_advance_of_append h (length_magicOf _)
  have r₂ := Cursor.rest_advance_of_append r₁ (length_ofU16 _)
  have r₃ := Cursor.rest_advance_of_append r₂ (length_ofU32 _)
  have r₄ := Cursor.rest_advance_of_append r₃ (length_ofU32 _)
  have hkey : r.parts.key.asBytes.length = r.parts.keyLen.toNat := r.parts.toNat_keyLen.symm
  have hmagic := (readMagicNumber_eq_ok_iff (d := d.setLastIndex)).mpr ⟨r.isDead, _, h, rfl⟩
  rw [decodeRecord, hmagic, ok_bind, readKeyLen_eq_ok_iff.mpr ⟨_, _, r₁, rfl⟩, ok_bind,
    readFieldLen_eq_ok_iff.mpr ⟨_, _, r₂, rfl⟩, ok_bind,
    readKey_eq_ok_iff.mpr ⟨_, _, hkey, r₄, rfl⟩, ok_bind]
  simp only [skipField, skipCrc, setLastIndex, passed, Record.length_bytes, Record.size,
    Cursor.advance_advance, Parts.toNat_keyLen, Parts.toNat_fieldLen]

/-- A record that can be scanned is indexed. -/
theorem decodeRecord_of_rest [Crc] {d : IndexFromDBDecoder} {r : Scannable} {ys : Bytes}
    (h : d.cursor.rest = r.1.bytes ++ ys) : d.decodeRecord = .ok (d.after r) := by
  rw [decodeRecord_of_record h, indexPush]
  cases hdead : r.1.isDead with
  | true => simp only [passed, after, hdead, if_true]
  | false =>
    simp only [passed, after, hdead, Bool.false_eq_true, if_false]
    rw [if_neg (r.2 hdead)]

/-- A live record with an empty key is refused. -/
theorem decodeRecord_of_empty_key [Crc] {d : IndexFromDBDecoder} {r : Record} {ys : Bytes}
    (h : d.cursor.rest = r.bytes ++ ys) (hlive : r.isDead = false)
    (hkey : r.parts.key.asBytes = []) :
    d.decodeRecord = failWith .invalidIndexEntry := by
  have hdeleted : (d.passed r).deleted = false := hlive
  have hlast : (d.passed r).lastKey = [] := hkey
  rw [decodeRecord_of_record h, indexPush, hdeleted, hlast]
  rfl

/-- The scan reads records, too. -/
theorem framed [Crc] :
    Framed more decodeRecord cursor (fun r : Scannable => r.1.bytes) after where
  more_iff d := by rw [more, decide_eq_true_iff, Cursor.pos_lt_iff]
  frame_ne_nil r := DBDecoder.framed.frame_ne_nil r.1
  cursor_after _ _ := rfl
  body_of_rest _ _ _ h := decodeRecord_of_rest h

/-- Reading records inserts their extents in file order. -/
theorem index_foldl_after [Crc] (d : IndexFromDBDecoder) (rs : List Scannable) :
    (rs.foldl after d).index = insertAll d.index
      (((slotsFrom d.cursor.pos (rs.map Subtype.val)).filterMap Slot.stored?).map
        fun x => (x.1, x.2.entry x.1)) := by
  induction rs generalizing d with
  | nil => rfl
  | cons r rs ih =>
    obtain ⟨r, hr⟩ := r
    have hpos : (d.after ⟨r, hr⟩).cursor.pos = d.cursor.pos + r.size := by
      rw [← r.length_bytes]
      rfl
    rw [List.foldl_cons, ih (d.after ⟨r, hr⟩), hpos, List.map_cons, slotsFrom,
      List.filterMap_cons]
    cases r <;> rfl

/-- The scan when the header has been read. -/
def afterHeader (bytes : Bytes) : IndexFromDBDecoder :=
  { new bytes with cursor := ⟨bytes, 114⟩ }

/-- The header is moved over without a look at its section keys. -/
theorem decodeDbHeader_of_header {bytes : Bytes} (h : Header) {ys : Bytes}
    (hbytes : bytes = h.bytes ++ ys) : (new bytes).decodeDbHeader = .ok (afterHeader bytes) := by
  obtain ⟨-, ⟨_, hmagic⟩, -, ⟨_, hversion⟩, ⟨_, hdecimal⟩, -, ⟨_, hcount⟩, -,
    -⟩ := h.standsIn hbytes
  simp only [decodeDbHeader, new, skipMetadataKey, bind_eq_ok_iff, Prod.exists, readExact_eq_ok_iff]
  refine ⟨_, _, ⟨h.length_magic, rfl, _, hmagic⟩, _, _, ⟨List.length_singleton, rfl, _, hversion⟩,
    _, _, ⟨List.length_singleton, rfl, _, hdecimal⟩, _, _, ⟨length_ofU64 _, rfl, _, hcount⟩, ?_⟩
  simp only [Cursor.advance_advance]
  rfl

end IndexCodec.IndexFromDBDecoder

/-- The first element of a list that has not a property. -/
theorem exists_first {α : Type} {p : α → Prop} {l : List α} (h : ¬ ∀ x ∈ l, p x) :
    ∃ pre x post, l = pre ++ x :: post ∧ (∀ y ∈ pre, p y) ∧ ¬ p x := by
  induction l with
  | nil => exact absurd (by simp) h
  | cons a l ih =>
    by_cases ha : p a
    · have htail : ¬ ∀ x ∈ l, p x := by
        intro hl
        refine h fun x hx => ?_
        rcases List.mem_cons.mp hx with rfl | hx
        · exact ha
        · exact hl x hx
      obtain ⟨pre, x, post, rfl, hpre, hx⟩ := ih htail
      refine ⟨a :: pre, x, post, rfl, fun y hy => ?_, hx⟩
      rcases List.mem_cons.mp hy with rfl | hy
      · exact ha
      · exact hpre y hy
    · exact ⟨[], a, l, rfl, by simp, ha⟩

/-- The records can be scanned when no live key is empty. -/
theorem DataFile.scannable_iff {df : DataFile} :
    (∀ r ∈ df.records, r.isDead = false → r.parts.key.asBytes ≠ []) ↔
      ∀ x ∈ df.live, x.1.asBytes ≠ [] := by
  constructor
  · intro hscan x hx
    obtain ⟨s, hs, hlive, hkey, -⟩ := mem_live hx
    obtain ⟨pre, post, hsplit, -⟩ := split_of_mem_slotsFrom hs
    rw [← hkey]
    exact hscan s.record (by rw [hsplit]; simp) hlive
  · intro hne r hr hlive
    obtain ⟨pre, post, hsplit⟩ := List.append_of_mem hr
    cases hrec : r with
    | dead parts crc =>
      rw [hrec] at hlive
      cases hlive
    | live parts value used decodes =>
      refine hne (parts.key, ⟨114 + totalSize pre, parts.field.length, value⟩) ?_
      rw [DataFile.live, DataFile.slots, hsplit, slotsFrom_append, slotsFrom, hrec]
      simp [Slot.stored?, Record.value?, Record.parts]

namespace IndexCodec.IndexFromDBDecoder

/-- The scan of a data file stands behind the header when its loop begins. -/
theorem decodeIndexFromFile_bytes_eq [Crc] (df : DataFile) :
    (new df.bytes).decodeIndexFromFile =
      loop more decodeRecord (df.bytes.length + 1) (afterHeader df.bytes) := by
  have hheader : (new df.bytes).decodeDbHeader = .ok (afterHeader df.bytes) :=
    decodeDbHeader_of_header df.header rfl
  rw [decodeIndexFromFile, hheader]
  rfl

/-- Behind the header stand the records. -/
theorem rest_afterHeader [Crc] (df : DataFile) :
    (afterHeader df.bytes).cursor.rest = df.records.flatMap Record.bytes := by
  change df.bytes.drop 114 = _
  rw [DataFile.bytes, List.drop_left' df.header.length_bytes]

/-- The loop has fuel for all records. -/
theorem length_rest_afterHeader [Crc] (df : DataFile) :
    (afterHeader df.bytes).cursor.rest.length ≤ df.bytes.length + 1 :=
  Nat.le_succ_of_le ((Cursor.length_rest _).le.trans (Nat.sub_le _ _))

end IndexCodec.IndexFromDBDecoder

/-- The scan of a data file without empty live keys succeeds and returns the
index of the file. -/
theorem decodeIndexFromFile_bytes [Crc] {df : DataFile}
    (hne : ∀ x ∈ df.live, x.1.asBytes ≠ []) :
    (do let d ← (IndexFromDBDecoder.new df.bytes).decodeIndexFromFile; d.finish) =
      .ok df.index := by
  have hscan := DataFile.scannable_iff.mpr hne
  rw [IndexFromDBDecoder.decodeIndexFromFile_bytes_eq]
  have hrest := IndexFromDBDecoder.rest_afterHeader df
  have hfuel := IndexFromDBDecoder.length_rest_afterHeader df
  obtain ⟨header, records⟩ := df
  lift records to List IndexFromDBDecoder.Scannable using hscan
  rw [List.flatMap_map] at hrest
  refine bind_eq_ok_iff.mpr ⟨_, IndexFromDBDecoder.framed.loop_eq_ok hfuel hrest, ?_⟩
  exact congrArg _ (IndexFromDBDecoder.index_foldl_after _ _)

/-- The scan refuses a data file with an empty live key. -/
theorem decodeIndexFromFile_of_empty_key [Crc] {df : DataFile}
    (h : ¬ ∀ x ∈ df.live, x.1.asBytes ≠ []) :
    (do let d ← (IndexFromDBDecoder.new df.bytes).decodeIndexFromFile; d.finish) =
      failWith .invalidIndexEntry := by
  rw [← DataFile.scannable_iff] at h
  rw [IndexFromDBDecoder.decodeIndexFromFile_bytes_eq]
  have hrest := IndexFromDBDecoder.rest_afterHeader df
  have hfuel := IndexFromDBDecoder.length_rest_afterHeader df
  obtain ⟨pre, r, post, hsplit, hpre, hr⟩ := exists_first h
  rw [Classical.not_imp, not_not] at hr
  lift pre to List IndexFromDBDecoder.Scannable using hpre
  rw [hsplit, List.flatMap_append, List.flatMap_cons, List.flatMap_map] at hrest
  have hafter := (IndexFromDBDecoder.framed.rounds 0 hrest).2
  have hnil : r.bytes ++ post.flatMap Record.bytes ≠ [] := by
    rw [ne_eq, List.append_eq_nil_iff]
    rintro ⟨hr, -⟩
    exact DBDecoder.framed.frame_ne_nil r hr
  rw [IndexFromDBDecoder.framed.loop_eq_error hfuel hrest hnil
    (IndexFromDBDecoder.decodeRecord_of_empty_key hafter hr.1 hr.2)]
  rfl

/-- The scan of a data file succeeds exactly when no live key is empty, and
then returns the index of the file. -/
theorem decodeIndexFromFile_eq_ok_iff [Crc] {df : DataFile} {index : HashMap Key IndexEntry} :
    (do let d ← (IndexFromDBDecoder.new df.bytes).decodeIndexFromFile; d.finish) = .ok index ↔
      (∀ x ∈ df.live, x.1.asBytes ≠ []) ∧ index = df.index := by
  by_cases hne : ∀ x ∈ df.live, x.1.asBytes ≠ []
  · rw [decodeIndexFromFile_bytes hne]
    constructor
    · intro h
      cases h
      exact ⟨hne, rfl⟩
    · rintro ⟨-, rfl⟩
      rfl
  · rw [decodeIndexFromFile_of_empty_key hne]
    constructor
    · intro h
      cases h
    · rintro ⟨hall, -⟩
      exact absurd hall hne

/-- The keys of the live records that a run of the decoder meets. -/
def liveKeys [Crc] : ℕ → DBDecoder → List Key
  | 0, _ => []
  | fuel + 1, d =>
    if d.more then
      match d.decodeDbKeyFieldPair with
      | .ok d => (if d.deleted then [] else [⟨d.lastKey⟩]) ++ liveKeys fuel d
      | .error _ => []
    else []

/-- The number of live records of a key in a file, as the decoder sees it. -/
def liveCount [Crc] (file : Bytes) (k : Key) : ℕ :=
  match (DBDecoder.new file).decodeDbHeader with
  | .ok d => (liveKeys d.cursor.buf.length d).count k
  | .error _ => 0

/-- The keys of the live records, in the order of the file. -/
theorem liveKeys_of_rest [Crc] {d : DBDecoder} {rs : List Record} {fuel : ℕ}
    (hf : rs.length ≤ fuel) (h : d.cursor.rest = rs.flatMap Record.bytes) (base : ℕ) :
    liveKeys fuel d = ((slotsFrom base rs).filterMap Slot.stored?).map Prod.fst := by
  induction rs generalizing d fuel base with
  | nil =>
    have hm : d.more = false := by
      rw [← Bool.not_eq_true, DBDecoder.framed.more_iff, h]
      simp
    cases fuel with
    | zero => rfl
    | succ fuel => rw [liveKeys, hm]; rfl
  | cons r rs ih =>
    cases fuel with
    | zero => cases hf
    | succ fuel =>
      rw [List.flatMap_cons] at h
      have hm : d.more = true := by
        rw [DBDecoder.framed.more_iff, h]
        simp [DBDecoder.framed.frame_ne_nil r]
      have hrest := ih (Nat.le_of_succ_le_succ hf) (DBDecoder.framed.rest_after h) (base + r.size)
      rw [liveKeys, if_pos hm, DBDecoder.framed.body_of_rest d r _ h]
      dsimp only
      rw [hrest, slotsFrom, List.filterMap_cons]
      cases r <;> rfl

/-- Counting live records with the decoder counts those of the data file. -/
theorem liveCount_bytes [Crc] (df : DataFile) (k : Key) :
    liveCount df.bytes k = (df.liveOf k).length := by
  have hheader : (DBDecoder.new df.bytes).decodeDbHeader =
      .ok (DBDecoder.afterHeader df.bytes df.header) :=
    DBDecoder.decodeDbHeader_eq_ok_iff.mpr ⟨df.header, _, rfl, rfl⟩
  have hlen := DBDecoder.framed.length_le df.records
  have hfuel : df.records.length ≤ df.bytes.length := by
    rw [DataFile.bytes, List.length_append]
    omega
  have hrest : (DBDecoder.afterHeader df.bytes df.header).cursor.rest =
      df.records.flatMap Record.bytes := by
    change df.bytes.drop 114 = _
    rw [DataFile.bytes, List.drop_left' df.header.length_bytes]
  have hkeys := liveKeys_of_rest hfuel hrest 114
  rw [liveCount, hheader]
  change (liveKeys df.bytes.length (DBDecoder.afterHeader df.bytes df.header)).count k = _
  rw [hkeys, DataFile.liveOf, itemsOf, DataFile.live, DataFile.slots, List.count_eq_countP,
    List.countP_map, List.length_filterMap_eq_countP]
  refine List.countP_congr fun x _ => ?_
  by_cases hx : x.1 = k <;> simp [hx]

end PeachDB
