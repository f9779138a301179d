import PeachDB.DataFileDecoding

/-!
# The documented data file

The format fixes the four section keys of the header, their order, and the
magic word. The decoder asks of each key only that it is one of the four, and
reads the magic word without a look at it. Hence it accepts every documented
file, and besides these the files whose records are whole behind a header with
known keys.
-/

namespace PeachDB

open LittleEndian Dtypes RecordCodec

/-- The eight bytes of the header from an offset on. -/
def headerWord (file : Bytes) (offset : ℕ) : Bytes := (file.drop offset).take 8

/-- The header that the format describes, at the start of a file. -/
structure DocumentedHeader (file : Bytes) : Prop where
  /-- The header has its whole length. -/
  length : 114 ≤ file.length
  headerKey : headerWord file 0 = dbHeaderKey
  /-- The magic word is the documented one. -/
  magic : headerWord file 8 = ofU64 dbHeaderMagic
  versionKey : headerWord file 16 = dbVersionKey
  recordCountKey : headerWord file 26 = dbRecordCountKey
  nameKey : headerWord file 42 = dbNameKey

/-- The header that the decoder asks for: at each of the four places any of the
section keys. -/
structure KnownHeader (file : Bytes) : Prop where
  /-- The header has its whole length. -/
  length : 114 ≤ file.length
  headerKey : DBDecoder.isMetadataKey (headerWord file 0) = true
  versionKey : DBDecoder.isMetadataKey (headerWord file 16) = true
  recordCountKey : DBDecoder.isMetadataKey (headerWord file 26) = true
  nameKey : DBDecoder.isMetadataKey (headerWord file 42) = true

/-- Zero or more whole records, each live or a tombstone. -/
def WholeRecords [Crc] (bytes : Bytes) : Prop := ∃ rs :
    List Record, bytes = rs.flatMap Record.bytes

/-- The documented format of a data file. -/
def Documented [Crc] (file : Bytes) : Prop := DocumentedHeader file ∧ WholeRecords (file.drop 114)

instance (file : Bytes) : Decidable (DocumentedHeader file) :=
  decidable_of_iff
    (114 ≤ file.length ∧ headerWord file 0 = dbHeaderKey ∧
      headerWord file 8 = ofU64 dbHeaderMagic ∧
      headerWord file 16 = dbVersionKey ∧ headerWord file 26 = dbRecordCountKey ∧
      headerWord file 42 = dbNameKey) (by
    constructor
    · rintro ⟨h, h₁, h₂, h₃, h₄, h₅⟩
      exact ⟨h, h₁, h₂, h₃, h₄, h₅⟩
    · rintro ⟨h, h₁, h₂, h₃, h₄, h₅⟩
      exact ⟨h, h₁, h₂, h₃, h₄, h₅⟩)

instance (file : Bytes) : Decidable (KnownHeader file) :=
  decidable_of_iff
    (114 ≤ file.length ∧ DBDecoder.isMetadataKey (headerWord file 0) = true ∧
      DBDecoder.isMetadataKey (headerWord file 16) = true ∧
      DBDecoder.isMetadataKey (headerWord file 26) = true ∧
      DBDecoder.isMetadataKey (headerWord file 42) = true) (by
    constructor
    · rintro ⟨h, h₁, h₂, h₃, h₄⟩
      exact ⟨h, h₁, h₂, h₃, h₄⟩
    · rintro ⟨h, h₁, h₂, h₃, h₄⟩
      exact ⟨h, h₁, h₂, h₃, h₄⟩)

/-- The documented keys are known. -/
theorem DocumentedHeader.known {file : Bytes} (h : DocumentedHeader file) : KnownHeader file where
  length := h.length
  headerKey := by rw [h.headerKey]; rfl
  versionKey := by rw [h.versionKey]; rfl
  recordCountKey := by rw [h.recordCountKey]; rfl
  nameKey := by rw [h.nameKey]; rfl

/-- A file starts with a header of the decoder exactly when its keys are known. -/
theorem knownHeader_iff {file : Bytes} : KnownHeader file ↔
    ∃ (h : Header) (ys : Bytes), file = h.bytes ++ ys := by
  constructor
  · intro h
    have hlen := h.length
    have hword (n m : ℕ) (hnm : n + m ≤ file.length) : ((file.drop n).take m).length = m := by
      rw [List.length_take, List.length_drop]
      omega
    obtain ⟨version, hversion⟩ := List.length_eq_one_iff.mp (hword 24 1 (by omega))
    obtain ⟨decimal, hdecimal⟩ := List.length_eq_one_iff.mp (hword 25 1 (by omega))
    have hcount := ofU64_toU64 (hword 34 8 (by omega))
    refine ⟨⟨headerWord file 0, h.headerKey, headerWord file 8, hword 8 8 (by omega),
      headerWord file 16, h.versionKey, version, decimal, headerWord file 26, h.recordCountKey,
      toU64 ((file.drop 34).take 8), headerWord file 42, h.nameKey, (file.drop 50).take 64,
      hword 50 64 (by omega)⟩, file.drop 114, ?_⟩
    have hjoin (n m : ℕ) : (file.drop n).take m ++ file.drop (n + m) = file.drop n := by
      rw [← List.drop_drop, List.take_append_drop]
    simp only [Header.bytes, Header.front, Header.back, List.append_assoc, hcount, ← hversion,
      ← hdecimal, headerWord]
    rw [hjoin 50 64, hjoin 42 8, hjoin 34 8, hjoin 26 8, hjoin 25 1, hjoin 24 1, hjoin 16 8,
      hjoin 8 8, hjoin 0 8, List.drop_zero]
  · rintro ⟨h, ys, hfile⟩
    have hparts := h.standsIn hfile
    have hword {n : ℕ} {key : Bytes} (hkey : DBDecoder.isMetadataKey key = true)
        (hrest : ∃ zs, (⟨file, n⟩ : Cursor).rest = key ++ zs) :
        DBDecoder.isMetadataKey (headerWord file n) = true := by
      obtain ⟨zs, hrest⟩ := hrest
      change DBDecoder.isMetadataKey ((⟨file, n⟩ : Cursor).rest.take 8) = true
      rw [hrest, List.take_left' (length_of_isMetadataKey hkey), hkey]
    refine ⟨?_, hword h.headerKey_known hparts.headerKey,
      hword h.versionKey_known hparts.versionKey,
      hword h.recordCountKey_known hparts.recordCountKey, hword h.nameKey_known hparts.nameKey⟩
    rw [hfile, List.length_append, Header.length_bytes]
    omega

/-- The decoder accepts the files with a known header in front of whole
records. -/
theorem decodeFile_ok_iff [Crc] {file : Bytes} :
    (∃ out, decodeFile file = .ok out) ↔ KnownHeader file ∧ WholeRecords (file.drop 114) := by
  constructor
  · rintro ⟨⟨fields, info⟩, hfile⟩
    obtain ⟨df, rfl, -, -⟩ := decodeDbFile_eq_ok_iff.mp hfile
    refine ⟨knownHeader_iff.mpr ⟨df.header, _, rfl⟩, df.records, ?_⟩
    rw [DataFile.bytes, List.drop_left' df.header.length_bytes]
  · rintro ⟨hknown, rs, hrs⟩
    obtain ⟨h, ys, rfl⟩ := knownHeader_iff.mp hknown
    rw [List.drop_left' h.length_bytes] at hrs
    exact ⟨_, by rw [hrs]; exact decodeFile_bytes ⟨h, rs⟩⟩

/-- The decoder accepts a byte string exactly when it is documented, unless
the string has whole records behind a header with known keys that is not the
documented one. -/
theorem accepts_documented_iff [Crc] (file : Bytes) :
    ((∃ out, decodeFile file = .ok out) ↔ Documented file) ↔
      ¬ (KnownHeader file ∧ ¬ DocumentedHeader file ∧ WholeRecords (file.drop 114)) := by
  rw [decodeFile_ok_iff, Documented]
  constructor
  · rintro h ⟨hknown, hheader, hrecords⟩
    exact hheader (h.mp ⟨hknown, hrecords⟩).1
  · intro h
    constructor
    · rintro ⟨hknown, hrecords⟩
      by_contra hne
      exact h ⟨hknown, fun hheader => hne ⟨hheader, hrecords⟩, hrecords⟩
    · rintro ⟨hheader, hrecords⟩
      exact ⟨hheader.known, hrecords⟩

/-- A file without records whose magic word is zero. -/
def zeroMagicFile : Bytes :=
  dbHeaderKey ++ List.replicate 8 0 ++ dbVersionKey ++ [dbVersion, dbVersionDecimal] ++
    dbRecordCountKey ++
    ofU64 0 ++ dbNameKey ++ List.replicate 64 0

open scoped IsoHdlc

/-- The decoder accepts it. -/
theorem zero_magic_accepted :
    ¬ ((∃ out, decodeFile zeroMagicFile = .ok out) ↔ Documented zeroMagicFile) := by
  have hknown : KnownHeader zeroMagicFile := by decide +kernel
  have hheader : ¬ DocumentedHeader zeroMagicFile := by decide +kernel
  have hrecords : WholeRecords (zeroMagicFile.drop 114) := ⟨[], by decide +kernel⟩
  intro h
  exact hheader (h.mp (decodeFile_ok_iff.mpr ⟨hknown, hrecords⟩)).1

end PeachDB
