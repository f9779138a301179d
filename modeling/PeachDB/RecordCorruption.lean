import PeachDB.WireValues

/-!
# Records with one wrong byte

The checksum of a record covers its lengths, its key and its field. A changed
byte of the key, the field or the checksum leaves two words that do not match;
a changed byte of the magic word leaves neither a record nor a tombstone. That
the checksum tells apart two messages which differ in one byte is assumed of
the `crc` crate, and proved of the algorithm that the program selects.
-/

namespace PeachDB

open LittleEndian Dtypes RecordCodec

namespace RecordCodec

/-- A checksum that tells apart two messages which differ in one byte. -/
def Crc.DetectsByte [Crc] : Prop :=
  ∀ (pre post : Bytes) (x y : UInt8), x ≠ y →
    Crc.checksum (pre ++ x :: post) ≠ Crc.checksum (pre ++ y :: post)

namespace IsoHdlc

/-- One bit of CRC-32 on the numbers that the words denote. -/
theorem toNat_crcBit (crc : UInt32) : (crcBit crc).toNat =
    if crc.toNat % 2 = 1 then crc.toNat / 2 ^^^ 0xEDB88320 else crc.toNat / 2 := by
  have hone : crc &&& 1 = 1 ↔ crc.toNat % 2 = 1 := by
    rw [← UInt32.toNat_inj, UInt32.toNat_and]
    change crc.toNat &&& 1 = 1 ↔ _
    rw [Nat.and_one_is_mod]
  have hshift : (crc >>> 1).toNat = crc.toNat / 2 := by
    rw [UInt32.toNat_shiftRight]
    change crc.toNat >>> 1 = _
    rw [Nat.shiftRight_one]
  rw [crcBit]
  by_cases hodd : crc.toNat % 2 = 1
  · rw [if_pos (hone.mpr hodd), if_pos hodd, UInt32.toNat_xor, hshift]
    rfl
  · rw [if_neg (fun h => hodd (hone.mp h)), if_neg hodd, hshift]

/-- The top bit of the polynomial tells an odd word from an even one. -/
theorem xor_polynomial_ne {m n : ℕ} (hm : m < 2 ^ 31) (hn : n < 2 ^ 31) :
    m ^^^ 0xEDB88320 ≠ n := by
  intro h
  have hpoly : m ^^^ n = 0xEDB88320 := by rw [← h, ← Nat.xor_assoc, Nat.xor_self, Nat.zero_xor]
  have hlt : m ^^^ n < 2 ^ 31 := Nat.xor_lt_two_pow hm hn
  omega

/-- A checksum that is shifted has 31 bits. -/
theorem half_lt (crc : UInt32) : crc.toNat / 2 < 2 ^ 31 := by
  have hlt := crc.toNat_lt
  omega

/-- A step of the division can be undone. -/
theorem crcBit_injective : Function.Injective crcBit := by
  intro a b h
  have hnat := congrArg UInt32.toNat h
  rw [toNat_crcBit, toNat_crcBit] at hnat
  apply UInt32.toNat_inj.mp
  split at hnat
  · split at hnat
    · have hhalf := congrArg (· ^^^ 0xEDB88320) hnat
      simp only [Nat.xor_assoc, Nat.xor_self, Nat.xor_zero] at hhalf
      omega
    · exact absurd hnat (xor_polynomial_ne (half_lt a) (half_lt b))
  · split at hnat
    · exact absurd hnat.symm (xor_polynomial_ne (half_lt b) (half_lt a))
    · omega

/-- The eight bit steps of one byte can be undone. -/
theorem bitSteps_injective (steps : List ℕ) :
    Function.Injective fun crc : UInt32 => steps.foldl (fun crc _ => crcBit crc) crc := by
  induction steps with
  | nil => exact fun a b h => h
  | cons n steps ih => exact fun a b h => crcBit_injective (ih h)

/-- Different states stay different behind the same byte. -/
theorem crcByte_left_injective (byte : UInt8) : Function.Injective fun crc => crcByte crc byte := by
  intro a b h
  exact (UInt32.xor_left_inj _).mp (bitSteps_injective _ h)

/-- Different bytes lead to different states. -/
theorem crcByte_right_injective (crc : UInt32) : Function.Injective (crcByte crc) := by
  intro x y h
  have hxor := (UInt32.xor_right_inj _).mp (bitSteps_injective _ h)
  have hnat := congrArg UInt32.toNat hxor
  rw [UInt8.toNat_toUInt32, UInt8.toNat_toUInt32] at hnat
  exact UInt8.toNat_inj.mp hnat

/-- Different states stay different behind the same bytes. -/
theorem bytes_injective (post : Bytes) : Function.Injective fun crc => post.foldl crcByte crc := by
  induction post with
  | nil => exact fun a b h => h
  | cons byte post ih => exact fun a b h => crcByte_left_injective byte (ih h)

/-- The algorithm `CRC_32_ISO_HDLC` detects a changed byte. -/
theorem detectsByte : Crc.DetectsByte := by
  intro pre post x y hne h
  have hfold := (UInt32.xor_left_inj _).mp h
  rw [List.foldl_append, List.foldl_append, List.foldl_cons, List.foldl_cons] at hfold
  exact hne (crcByte_right_injective _ (bytes_injective post hfold))

end IsoHdlc

end RecordCodec

/-- A byte of a list, and what is before and behind it when it is replaced. -/
theorem exists_set_eq {bytes : Bytes} {i : ℕ} (h : i < bytes.length) (v : UInt8) :
    ∃ pre post, bytes = pre ++ bytes[i] :: post ∧ bytes.set i v = pre ++ v :: post := by
  refine ⟨bytes.take i, bytes.drop (i + 1), ?_, ?_⟩
  · rw [← List.drop_eq_getElem_cons h, List.take_append_drop]
  · rw [List.set_eq_take_append_cons_drop, if_pos h]

section

variable [Crc] {iter : HashMap Key Field → List (Key × Field)}

/-- Four bytes that are no magic word end the decoder. -/
theorem decode_of_wrong_magic {magic rest : Bytes} (hlen : magic.length = 4)
    (hzero : magic ≠ [0, 0, 0, 0]) (hrecord : magic ≠ recordMagicNumber) :
    decode iter (magic ++ rest) = failWith .invalidMagicBytes := by
  have hrest : (DBDecoder.new (magic ++ rest)).cursor.rest = magic ++ rest := rfl
  have hmagic : (DBDecoder.new (magic ++ rest)).readMagicNumber = failWith .invalidMagicBytes := by
    rw [DBDecoder.readMagicNumber, readExact_eq_ok_iff.mpr ⟨hlen, rfl, rest, hrest⟩, ok_bind]
    dsimp only
    rw [if_neg hzero, if_neg hrecord]
  rw [decode, DBDecoder.decodeDbKeyFieldPair, hmagic]
  rfl

/-- A record whose checksum does not match is refused before its field is
looked at. -/
theorem decode_of_wrong_crc {parts : Parts} {crc : UInt32}
    (h : Crc.checksum (crcInput parts.keyLen parts.fieldLen parts.key.asBytes parts.field) ≠
      crc) :
    decode iter (layout recordMagicNumber parts.keyLen parts.fieldLen crc parts.key.asBytes
      parts.field) =
      failWith (.corruptedRecord .checksumMismatch) := by
  let bytes := layout recordMagicNumber parts.keyLen parts.fieldLen crc parts.key.asBytes
    parts.field
  have hrest : (DBDecoder.new bytes).cursor.rest =
      layout (magicOf false) parts.keyLen parts.fieldLen crc parts.key.asBytes parts.field ++
        [] := by
    rw [List.append_nil]
    rfl
  have hparts := DBDecoder.readParts_eq_ok_iff.mpr ⟨false, parts, crc, [], hrest, rfl⟩
  have hcheck : ((DBDecoder.new bytes).partsRead false parts crc).checkCrc =
      failWith (.corruptedRecord .checksumMismatch) := if_pos h
  have hpair : (DBDecoder.new bytes).decodeDbKeyFieldPair =
      failWith (.corruptedRecord .checksumMismatch) := by
    rw [DBDecoder.decodeDbKeyFieldPair_eq, hparts, ok_bind]
    change (do
      let d ← ((DBDecoder.new bytes).partsRead false parts crc).checkCrc
      let decoded ← fieldFromBytes d.lastField
      Except.ok { d with db := d.db.insert ⟨d.lastKey⟩ decoded.1 }) = _
    rw [hcheck]
    rfl
  change decode iter bytes = _
  rw [decode, hpair]
  rfl

omit [Crc] in
/-- A magic word with a changed byte is no magic word. -/
theorem set_recordMagicNumber {i : ℕ} {v : UInt8} (hi : i < 4)
    (hv : recordMagicNumber[i]? ≠ some v) :
    recordMagicNumber.set i v ≠ [0, 0, 0, 0] ∧
      recordMagicNumber.set i v ≠ recordMagicNumber := by
  interval_cases i <;> simp_all [recordMagicNumber, eq_comm]

omit [Crc] in
/-- Bytes of the length of a key and a field are those of another key and
field with the same lengths. -/
theorem Dtypes.Parts.exists_of_length (parts : Parts) {tail : Bytes}
    (h : tail.length = parts.key.len + parts.field.length) :
    ∃ p : Parts, p.keyLen = parts.keyLen ∧ p.fieldLen = parts.fieldLen ∧
      p.key.asBytes ++ p.field = tail := by
  have hkey : (tail.take parts.key.len).length = parts.key.len := by
    rw [List.length_take]
    omega
  have hfield : (tail.drop parts.key.len).length = parts.field.length := by
    rw [List.length_drop]
    omega
  refine ⟨⟨⟨tail.take parts.key.len⟩, tail.drop parts.key.len, ?_, ?_⟩, ?_, ?_,
    List.take_append_drop _ _⟩
  · rw [Key.Encodable, Key.len, hkey]
    exact parts.key_lt
  · rw [hfield]
    exact parts.field_lt
  · rw [Parts.keyLen, Key.len, hkey]
    rfl
  · rw [Parts.fieldLen, hfield]
    rfl

omit [Crc] in
/-- The pieces of a record that a changed byte can lie in. -/
theorem layout_eq (magic : Bytes) (keyLen : UInt16) (fieldLen crc : UInt32) (key field : Bytes) :
    layout magic keyLen fieldLen crc key field =
      magic ++ ((ofU16 keyLen ++ ofU32 fieldLen) ++ (ofU32 crc ++ (key ++ field))) := by
  simp only [layout, List.append_assoc]

/-- A changed byte behind the lengths leaves a record of the same lengths whose
checksum does not match. -/
theorem decode_set_of_record (hcrc : Crc.DetectsByte) (parts : Parts) {j : ℕ} {v : UInt8} :
    let crc := Crc.checksum (crcInput parts.keyLen parts.fieldLen parts.key.asBytes parts.field)
    let covered := ofU32 crc ++ (parts.key.asBytes ++ parts.field)
    j < covered.length → covered[j]? ≠ some v →
      decode iter (recordMagicNumber ++ ((ofU16 parts.keyLen ++ ofU32 parts.fieldLen) ++
        covered.set j v)) =
        failWith (.corruptedRecord .checksumMismatch) := by
  intro crc covered hj hv
  by_cases hword : j < 4
  · have hlen : ((ofU32 crc).set j v).length = 4 := by rw [List.length_set, length_ofU32]
    have hset : covered.set j v = ofU32 (toU32 ((ofU32 crc).set j v)) ++
        (parts.key.asBytes ++ parts.field) := by
      rw [ofU32_toU32 hlen, List.set_append_left _ _ (by rwa [length_ofU32])]
    have hne : crc ≠ toU32 ((ofU32 crc).set j v) := by
      intro h
      have hsame : ofU32 crc = (ofU32 crc).set j v := by rw [← ofU32_toU32 hlen, ← h]
      have hget : (ofU32 crc)[j]? = some v := by
        rw [hsame, List.getElem?_set_self (by rwa [length_ofU32])]
      exact hv (by rwa [List.getElem?_append_left (by rwa [length_ofU32])])
    rw [hset, ← layout_eq]
    exact decode_of_wrong_crc hne
  · have hlow : (ofU32 crc).length ≤ j := by
      rw [length_ofU32]
      omega
    rw [List.length_append, length_ofU32] at hj
    have hinside : j - 4 < (parts.key.asBytes ++ parts.field).length := by omega
    have hset : covered.set j v = ofU32 crc ++ (parts.key.asBytes ++ parts.field).set (j - 4)
        v := by
      rw [List.set_append_right _ _ hlow, length_ofU32]
    have hold : (parts.key.asBytes ++ parts.field)[j - 4] ≠ v := by
      intro h
      apply hv
      rw [List.getElem?_append_right hlow, length_ofU32, List.getElem?_eq_getElem hinside, h]
    obtain ⟨pre, post, hbefore, hafter⟩ := exists_set_eq hinside v
    have htail : ((parts.key.asBytes ++ parts.field).set (j - 4) v).length =
        parts.key.len + parts.field.length := by
      rw [List.length_set, List.length_append, Key.len]
    obtain ⟨p, hkeyLen, hfieldLen, hp⟩ := parts.exists_of_length htail
    have hne : Crc.checksum (crcInput p.keyLen p.fieldLen p.key.asBytes p.field) ≠ crc := by
      have hdiffer := hcrc (ofU16 parts.keyLen ++ ofU32 parts.fieldLen ++ List.replicate 4 0 ++ pre)
        post
        v _ hold.symm
      simp only [crc, crcInput, hkeyLen, hfieldLen, List.append_assoc, hp] at hdiffer ⊢
      rw [hafter]
      rwa [← hbefore] at hdiffer
    rw [hset, ← hp, ← hkeyLen, ← hfieldLen, ← layout_eq]
    exact decode_of_wrong_crc hne

/-- A record in which one byte outside the two lengths is changed is refused:
with the magic word when the byte is in it, with the checksum otherwise. -/
theorem changed_byte_detected (hcrc : Crc.DetectsByte) {key : Key} {field : Field}
    (hkey : key.Encodable) (hfield : field.Encodable) {i : ℕ} {v : UInt8}
    (hi : i < (encode key field).length) (hplace : i < 4 ∨ 10 ≤ i)
    (hv : v ≠ (encode key field)[i]) :
    decode iter ((encode key field).set i v) =
      failWith (if i < 4 then .invalidMagicBytes else .corruptedRecord .checksumMismatch) := by
  let parts : Parts := ⟨key, bytesFromField field, hkey, hfield.2⟩
  let crc := Crc.checksum (crcInput parts.keyLen parts.fieldLen parts.key.asBytes parts.field)
  let covered := ofU32 crc ++ (parts.key.asBytes ++ parts.field)
  have hencode : encode key field =
      recordMagicNumber ++ ((ofU16 parts.keyLen ++ ofU32 parts.fieldLen) ++ covered) := by
    rw [encode_eq, encodedRecord, layout_eq]
    rfl
  have hold : (encode key field)[i]? ≠ some v := by
    rw [List.getElem?_eq_getElem hi]
    exact fun h => hv (Option.some.inj h).symm
  rw [hencode] at hold hi ⊢
  have hmagic : recordMagicNumber.length = 4 := rfl
  have hlens : (ofU16 parts.keyLen ++ ofU32 parts.fieldLen).length = 6 := by simp
  by_cases hhead : i < 4
  · rw [if_pos hhead, List.set_append_left _ _ hhead]
    rw [List.getElem?_append_left hhead] at hold
    obtain ⟨hzero, hrecord⟩ := set_recordMagicNumber hhead hold
    exact decode_of_wrong_magic (by rw [List.length_set, hmagic]) hzero hrecord
  · have hbehind : 10 ≤ i := by omega
    rw [List.getElem?_append_right (by omega), List.getElem?_append_right (by omega)] at hold
    rw [List.length_append, List.length_append] at hi
    rw [if_neg hhead, List.set_append_right _ _ (by omega), List.set_append_right _ _ (by omega)]
    have hinside :
        i - recordMagicNumber.length - (ofU16 parts.keyLen ++ ofU32 parts.fieldLen).length <
        covered.length := by omega
    exact decode_set_of_record hcrc parts hinside hold

end

open scoped IsoHdlc

/-- In a record of the program, the second byte of the key. -/
theorem changed_byte_detected_key :
    let bytes := encode (.ofText "key") (.primitive (.boolean true))
    decode (fun m => (IterOrder.exists_of m).choose) (bytes.set 15 0x45) =
      failWith (.corruptedRecord .checksumMismatch) := by
  intro bytes
  exact changed_byte_detected IsoHdlc.detectsByte (by decide +kernel) (by decide +kernel)
    (by decide +kernel) (.inr (by decide)) (by decide +kernel)

end PeachDB
