import Mathlib.Data.Nat.Digits.Lemmas

/-!
# Fixed-width little-endian integers as byte lists

An unsigned integer of `w` bytes is written least significant byte first. The
digit sum of Mathlib is the mathematical reading of such a word; the three
machine widths of the file formats are instances of one pair of functions.
-/

namespace PeachDB.LittleEndian

/-- The low `w` bytes of a natural, least significant first. -/
def toBytes : ℕ → ℕ → List UInt8
  | 0, _ => []
  | w + 1, n => UInt8.ofNat n :: toBytes w (n / 256)

/-- The natural denoted by a little-endian byte word. -/
def toNat (bs : List UInt8) : ℕ := Nat.ofDigits 256 (bs.map UInt8.toNat)

/-- A number of `w` bytes has `w` bytes. -/
@[simp] theorem length_toBytes (w n : ℕ) : (toBytes w n).length = w := by
  induction w generalizing n with
  | zero => rfl
  | succ w ih => simp only [toBytes, List.length_cons, ih]

/-- The first byte counts least. -/
theorem toNat_cons (b : UInt8) (bs : List UInt8) : toNat (b :: bs) = b.toNat + 256 * toNat bs := by
  simp [toNat, Nat.ofDigits_cons]

/-- A word denotes a natural below the power its width allows. -/
theorem toNat_lt (bs : List UInt8) : toNat bs < 256 ^ bs.length := by
  have hd : ∀ d ∈ bs.map UInt8.toNat, d < 256 := by
    intro d hd
    obtain ⟨b, -, rfl⟩ := List.mem_map.mp hd
    exact b.toNat_lt
  simpa [toNat] using Nat.ofDigits_lt_base_pow_length (by omega) hd

/-- Writing keeps exactly the residue that fits the width. -/
theorem toNat_toBytes (w n : ℕ) : toNat (toBytes w n) = n % 256 ^ w := by
  induction w generalizing n with
  | zero => simp [toBytes, toNat, Nat.mod_one]
  | succ w ih =>
    have hsplit : n % (256 * 256 ^ w) = n % 256 + 256 * (n / 256 % 256 ^ w) := Nat.mod_mul
    rw [toBytes, toNat_cons, ih, UInt8.toNat_ofNat', pow_succ' 256 w, hsplit]

/-- Every word is the encoding of the natural it denotes. -/
theorem toBytes_toNat (bs : List UInt8) : toBytes bs.length (toNat bs) = bs := by
  induction bs with
  | nil => rfl
  | cons b bs ih =>
    have hb : b.toNat < 256 := b.toNat_lt
    have hdiv : (b.toNat + 256 * toNat bs) / 256 = toNat bs := by omega
    have hbyte : UInt8.ofNat (b.toNat + 256 * toNat bs) = b := by
      apply UInt8.toNat_inj.mp
      rw [UInt8.toNat_ofNat']
      omega
    rw [List.length_cons, toNat_cons, toBytes, hdiv, ih, hbyte]

/-- `u16::to_le_bytes`. -/
def ofU16 (n : UInt16) : List UInt8 := toBytes 2 n.toNat

/-- `u32::to_le_bytes`. -/
def ofU32 (n : UInt32) : List UInt8 := toBytes 4 n.toNat

/-- `u64::to_le_bytes`. -/
def ofU64 (n : UInt64) : List UInt8 := toBytes 8 n.toNat

/-- `u16::from_le_bytes`, applied to words of two bytes only. -/
def toU16 (bs : List UInt8) : UInt16 := UInt16.ofNat (toNat bs)

/-- `u32::from_le_bytes`, applied to words of four bytes only. -/
def toU32 (bs : List UInt8) : UInt32 := UInt32.ofNat (toNat bs)

/-- `u64::from_le_bytes`, applied to words of eight bytes only. -/
def toU64 (bs : List UInt8) : UInt64 := UInt64.ofNat (toNat bs)

/-- Two bytes. -/
@[simp] theorem length_ofU16 (n : UInt16) : (ofU16 n).length = 2 := length_toBytes 2 _

/-- Four bytes. -/
@[simp] theorem length_ofU32 (n : UInt32) : (ofU32 n).length = 4 := length_toBytes 4 _

/-- Eight bytes. -/
@[simp] theorem length_ofU64 (n : UInt64) : (ofU64 n).length = 8 := length_toBytes 8 _

/-- Two bytes are read back. -/
@[simp] theorem toU16_ofU16 (n : UInt16) : toU16 (ofU16 n) = n := by
  have hn : n.toNat % 256 ^ 2 = n.toNat := Nat.mod_eq_of_lt n.toNat_lt
  rw [toU16, ofU16, toNat_toBytes, hn, UInt16.ofNat_toNat]

/-- Four bytes are read back. -/
@[simp] theorem toU32_ofU32 (n : UInt32) : toU32 (ofU32 n) = n := by
  have hn : n.toNat % 256 ^ 4 = n.toNat := Nat.mod_eq_of_lt n.toNat_lt
  rw [toU32, ofU32, toNat_toBytes, hn, UInt32.ofNat_toNat]

/-- Eight bytes are read back. -/
@[simp] theorem toU64_ofU64 (n : UInt64) : toU64 (ofU64 n) = n := by
  have hn : n.toNat % 256 ^ 8 = n.toNat := Nat.mod_eq_of_lt n.toNat_lt
  rw [toU64, ofU64, toNat_toBytes, hn, UInt64.ofNat_toNat]

/-- Every two bytes are a number. -/
theorem ofU16_toU16 {bs : List UInt8} (h : bs.length = 2) : ofU16 (toU16 bs) = bs := by
  have hlt : toNat bs < 2 ^ 16 := by simpa [h] using toNat_lt bs
  rw [ofU16, toU16, UInt16.toNat_ofNat_of_lt' hlt, ← h, toBytes_toNat]

/-- Every four bytes are a number. -/
theorem ofU32_toU32 {bs : List UInt8} (h : bs.length = 4) : ofU32 (toU32 bs) = bs := by
  have hlt : toNat bs < 2 ^ 32 := by simpa [h] using toNat_lt bs
  rw [ofU32, toU32, UInt32.toNat_ofNat_of_lt' hlt, ← h, toBytes_toNat]

/-- Every eight bytes are a number. -/
theorem ofU64_toU64 {bs : List UInt8} (h : bs.length = 8) : ofU64 (toU64 bs) = bs := by
  have hlt : toNat bs < 2 ^ 64 := by simpa [h] using toNat_lt bs
  rw [ofU64, toU64, UInt64.toNat_ofNat_of_lt' hlt, ← h, toBytes_toNat]

end PeachDB.LittleEndian
