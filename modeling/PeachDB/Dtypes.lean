import PeachDB.ByteCursor
import PeachDB.LittleEndian

/-!
# Keys, fields and their byte encodings

The types of `dtypes.rs` and `error.rs`. A float is its 64 bits. A result of
the program is a value, a returned error or a panic; panics come from slices
and indices that leave the buffer. A field whose array elements all have the
declared scalar type, and whose lengths fit 32 bits, is read back exactly.
-/

namespace PeachDB.Dtypes

open LittleEndian

/-- Failures of file operations. -/
inductive IoError
  /-- A read met the end of the buffer (`failed to fill whole buffer`). -/
  | unexpectedEof
  /-- The operating system refused the operation. -/
  | device
  /-- The file would outgrow the largest offset. -/
  | fileTooLarge
  /-- `std::io::Error::other` around the text of another failure. -/
  | other (inner : IoError)
  deriving DecidableEq

/-- Reasons of `CorruptedRecord` and `InvalidRequestFormat`. -/
inductive Reason
  /-- `Checksum Mismatch`. -/
  | checksumMismatch
  /-- `invalid utf8: …`; the rest of the text is determined by the bytes. -/
  | invalidUtf8 (bytes : Bytes)
  /-- `invalid version`. -/
  | invalidVersion
  /-- `invalid utf8 in error message: …`, likewise. -/
  | invalidUtf8Message (bytes : Bytes)
  deriving DecidableEq

/-- The errors that the program constructs. -/
inductive PeachDbError
  | io (e : IoError)
  | invalidMagicBytes
  | invalidIndexEntry
  | unknownDtype (byte : UInt8)
  | corruptedRecord (reason : Reason)
  | invalidFinishCall
  | bufferTooShort
  | unknownCommand (byte : UInt8)
  | invalidRequestFormat (reason : Reason)
  | dbNameToLong
  | keyNotFound
  deriving DecidableEq

/-- How a call can end without a value. -/
inductive Abort
  /-- The call returned `Err`. -/
  | err (e : PeachDbError)
  /-- The call panicked. -/
  | panic
  /-- The call asked for room for more elements than its buffer has bytes. The
  process aborts where the allocator refuses it; otherwise the call ends so. -/
  | room (count : ℕ) (e : Abort)
  deriving DecidableEq

/-- How a call ends that gets all the room it asks for. -/
@[simp] def Abort.granted : Abort → Abort
  | .err e => .err e
  | .panic => .panic
  | .room _ e => e.granted

/-- How a call ends under an allocator that grants room for some numbers of
elements; none when the process aborts. -/
@[simp] def Abort.under (grants : ℕ → Bool) : Abort → Option Abort
  | .err e => some (.err e)
  | .panic => some .panic
  | .room count e => if grants count then e.under grants else none

/-- `PDBResult`, with panics made explicit. -/
abbrev PDBResult (α : Type) := Except Abort α

instance {α : Type} [DecidableEq α] : DecidableEq (PDBResult α)
  | .ok a, .ok b => decidable_of_iff (a = b) (by simp)
  | .error a, .error b => decidable_of_iff (a = b) (by simp)
  | .ok _, .error _ => isFalse nofun
  | .error _, .ok _ => isFalse nofun

/-- Shorthand for a returned error. -/
abbrev failWith {α : Type} (e : PeachDbError) : PDBResult α := .error (.err e)

/-- The call ends without a value, in one of some ways. -/
def Ends {α : Type} (P : Abort → Prop) (r : PDBResult α) : Prop := ∃ e, r = .error e ∧ P e

/-- The call returns an error when it gets the room it asks for. -/
abbrev Fails {α : Type} (r : PDBResult α) (e : PeachDbError) : Prop :=
  Ends (fun a => a.granted = .err e) r

/-- The call panics when it gets the room it asks for. -/
abbrev Panics {α : Type} (r : PDBResult α) : Prop := Ends (fun a => a.granted = .panic) r

/-- The process aborts in the call. -/
abbrev Aborts {α : Type} (grants : ℕ → Bool) (r : PDBResult α) : Prop :=
  Ends (fun a => a.under grants = none) r

/-- The call ends in another way than with `Err`. -/
def Abort.Escapes (grants : ℕ → Bool) (e : Abort) : Prop :=
  ∀ x, e.under grants ≠ some (.err x)

/-- The call returns `Ok` or `Err` under an allocator. -/
def Returns {α : Type} (grants : ℕ → Bool) (r : PDBResult α) : Prop :=
  ∀ e, r = .error e → ∃ x, e.under grants = some (.err x)

/-- `Read::read_exact` on a cursor, with the error conversion of `?`. -/
def readExact (c : Cursor) (n : ℕ) : PDBResult (Bytes × Cursor) :=
  match c.readExact n with
  | some out => .ok out
  | none => failWith (.io .unexpectedEof)

/-- A call goes on with its value. -/
theorem ok_bind {α β : Type} (a : α) (f : α → PDBResult β) : (Except.ok a >>= f) = f a := rfl

/-- A sequence of two calls succeeds when both do. -/
theorem bind_eq_ok_iff {α β : Type} {x : PDBResult α} {f : α → PDBResult β} {b : β} :
    (x >>= f) = .ok b ↔ ∃ a, x = .ok a ∧ f a = .ok b := by
  cases x with
  | error e =>
    constructor
    · intro h
      cases h
    · rintro ⟨a, h, -⟩
      cases h
  | ok a =>
    constructor
    · exact fun h => ⟨a, rfl, h⟩
    · rintro ⟨_, h, hf⟩
      cases h
      exact hf

section

variable {α β : Type} {P : Abort → Prop} {grants : ℕ → Bool}

/-- A call that returns a value has not ended otherwise. -/
@[simp] theorem not_ends_ok (a : α) : ¬ Ends P (.ok a : PDBResult α) := nofun

/-- How a call ends that has not returned a value. -/
@[simp] theorem ends_error_iff {e : Abort} : Ends P (.error e : PDBResult α) ↔ P e :=
  ⟨fun ⟨_, h, hP⟩ => Except.error.inj h ▸ hP, fun hP => ⟨e, rfl, hP⟩⟩

instance [DecidablePred P] (r : PDBResult α) : Decidable (Ends P r) :=
  match r with
  | .ok a => isFalse (not_ends_ok a)
  | .error e => decidable_of_iff (P e) ends_error_iff.symm

/-- A call that ends without a value has no value. -/
theorem Ends.ne_ok {r : PDBResult α} (h : Ends P r) (a : α) : r ≠ .ok a := by
  rintro rfl
  exact not_ends_ok a h

/-- A sequence of two calls ends in the first of them, or behind its value in
the second. -/
theorem bind_ends_iff {x : PDBResult α} {f : α → PDBResult β} :
    Ends P (x >>= f) ↔ Ends P x ∨ ∃ a, x = .ok a ∧ Ends P (f a) := by
  cases x with
  | error e =>
    refine ⟨fun ⟨e', h, hP⟩ => .inl ⟨e', by cases h; rfl, hP⟩, ?_⟩
    rintro (⟨e', h, hP⟩ | ⟨a, ha, -⟩)
    · exact ⟨e', by cases h; rfl, hP⟩
    · cases ha
  | ok a =>
    refine ⟨fun h => .inr ⟨a, rfl, h⟩, ?_⟩
    rintro (h | ⟨b, hb, h⟩)
    · exact absurd h (not_ends_ok a)
    · cases hb
      exact h

/-- Two calls panic in the first or in the second. -/
theorem bind_panics_iff {x : PDBResult α} {f : α → PDBResult β} :
    Panics (x >>= f) ↔ Panics x ∨ ∃ a, x = .ok a ∧ Panics (f a) :=
  bind_ends_iff

/-- An allocator that grants the room decides nothing else. -/
theorem Abort.eq_granted_of_under {e a : Abort} (h : e.under grants = some a) : a = e.granted := by
  induction e with
  | err e => exact (Option.some.inj h).symm
  | panic => exact (Option.some.inj h).symm
  | room count e ih =>
    rw [Abort.under, Option.ite_none_right_eq_some] at h
    exact ih h.2

/-- An allocator that grants everything. -/
@[simp] theorem Abort.under_true (e : Abort) : e.under (fun _ => true) = some e.granted := by
  induction e with
  | err e => rfl
  | panic => rfl
  | room count e ih => exact ih

/-- In the end there is an error or a panic. -/
theorem Abort.granted_cases (e : Abort) : (∃ x, e.granted = .err x) ∨ e.granted = .panic := by
  induction e with
  | err e => exact .inl ⟨e, rfl⟩
  | panic => exact .inr rfl
  | room count e ih => exact ih

/-- A call returns when it neither panics nor makes the process abort. -/
theorem returns_iff {r : PDBResult α} : Returns grants r ↔
    ¬ Panics r ∧ ¬ Aborts grants r := by
  cases r with
  | ok a => exact iff_of_true nofun ⟨not_ends_ok a, not_ends_ok a⟩
  | error e =>
    rw [Panics, Aborts, ends_error_iff, ends_error_iff]
    constructor
    · intro h
      obtain ⟨x, hx⟩ := h e rfl
      rw [hx, ← Abort.eq_granted_of_under hx]
      exact ⟨nofun, nofun⟩
    · rintro ⟨hpanics, haborts⟩ e' he
      cases he
      obtain ⟨a, ha⟩ := Option.ne_none_iff_exists'.mp haborts
      obtain ⟨x, hx⟩ := e.granted_cases.resolve_right hpanics
      exact ⟨x, by rw [ha, Abort.eq_granted_of_under ha, hx]⟩

/-- A call that does not return is one that ends in another way. -/
theorem returns_iff_not_ends {r : PDBResult α} :
    Returns grants r ↔ ¬ Ends (Abort.Escapes grants) r := by
  constructor
  · rintro h ⟨e, he, hother⟩
    obtain ⟨x, hx⟩ := h e he
    exact hother x hx
  · intro h e he
    by_contra hnone
    exact h ⟨e, he, fun x hx => hnone ⟨x, hx⟩⟩

end

/-- A read succeeds exactly when enough bytes remain. -/
theorem readExact_eq_ok_iff {c c' : Cursor} {n : ℕ} {xs : Bytes} :
    readExact c n = .ok (xs, c') ↔ xs.length = n ∧ c' = c.advance n ∧
      ∃ ys, c.rest = xs ++ ys := by
  unfold readExact
  constructor
  · intro h
    split at h
    · rename_i hread
      cases h
      obtain ⟨hlen, hc, hrest⟩ := Cursor.eq_of_readExact hread
      exact ⟨hlen, hc, _, hrest⟩
    · cases h
  · rintro ⟨hlen, rfl, ys, hrest⟩
    rw [Cursor.readExact_of_rest hrest hlen]

/-- A read fails with the end-of-file error when too few bytes remain. -/
theorem readExact_of_short {c : Cursor} {n : ℕ} (h : c.rest.length < n) :
    readExact c n = failWith (.io .unexpectedEof) := by
  rw [readExact, (Cursor.readExact_eq_none_iff c n).mpr h]

/-- Reading `n` bytes into a state. -/
theorem readBytes_eq_ok_iff {σ : Type} {c : Cursor} {n : ℕ} (f : Bytes → Cursor → σ)
    {s : σ} :
    (do let (bytes, cursor) ← readExact c n; Except.ok (f bytes cursor) : PDBResult σ) =
      .ok s ↔
      ∃ xs ys, xs.length = n ∧ c.rest = xs ++ ys ∧ s = f xs (c.advance n) := by
  rw [bind_eq_ok_iff]
  constructor
  · rintro ⟨⟨xs, c'⟩, hread, h⟩
    cases h
    obtain ⟨hlen, rfl, ys, hrest⟩ := readExact_eq_ok_iff.mp hread
    exact ⟨xs, ys, hlen, hrest, rfl⟩
  · rintro ⟨xs, ys, hlen, hrest, rfl⟩
    exact ⟨_, readExact_eq_ok_iff.mpr ⟨hlen, rfl, ys, hrest⟩, rfl⟩

/-- Reading a 16-bit length into a state. -/
theorem readU16_eq_ok_iff {σ : Type} {c : Cursor} (f : UInt16 → Cursor → σ) {s : σ} :
    (do let (bytes, cursor) ← readExact c 2; Except.ok (f (toU16 bytes) cursor) : PDBResult σ) =
      .ok s ↔
      ∃ n ys, c.rest = ofU16 n ++ ys ∧ s = f n (c.advance 2) := by
  rw [readBytes_eq_ok_iff fun bytes => f (toU16 bytes)]
  constructor
  · rintro ⟨xs, ys, hlen, hrest, rfl⟩
    exact ⟨toU16 xs, ys, by rwa [ofU16_toU16 hlen], rfl⟩
  · rintro ⟨n, ys, hrest, rfl⟩
    exact ⟨ofU16 n, ys, length_ofU16 n, hrest, by rw [toU16_ofU16]⟩

/-- Reading a 32-bit word into a state. -/
theorem readU32_eq_ok_iff {σ : Type} {c : Cursor} (f : UInt32 → Cursor → σ) {s : σ} :
    (do let (bytes, cursor) ← readExact c 4; Except.ok (f (toU32 bytes) cursor) : PDBResult σ) =
      .ok s ↔
      ∃ n ys, c.rest = ofU32 n ++ ys ∧ s = f n (c.advance 4) := by
  rw [readBytes_eq_ok_iff fun bytes => f (toU32 bytes)]
  constructor
  · rintro ⟨xs, ys, hlen, hrest, rfl⟩
    exact ⟨toU32 xs, ys, by rwa [ofU32_toU32 hlen], rfl⟩
  · rintro ⟨n, ys, hrest, rfl⟩
    exact ⟨ofU32 n, ys, length_ofU32 n, hrest, by rw [toU32_ofU32]⟩

/-- Reading a 64-bit word into a state. -/
theorem readU64_eq_ok_iff {σ : Type} {c : Cursor} (f : UInt64 → Cursor → σ) {s : σ} :
    (do let (bytes, cursor) ← readExact c 8; Except.ok (f (toU64 bytes) cursor) : PDBResult σ) =
      .ok s ↔
      ∃ n ys, c.rest = ofU64 n ++ ys ∧ s = f n (c.advance 8) := by
  rw [readBytes_eq_ok_iff fun bytes => f (toU64 bytes)]
  constructor
  · rintro ⟨xs, ys, hlen, hrest, rfl⟩
    exact ⟨toU64 xs, ys, by rwa [ofU64_toU64 hlen], rfl⟩
  · rintro ⟨n, ys, hrest, rfl⟩
    exact ⟨ofU64 n, ys, length_ofU64 n, hrest, by rw [toU64_ofU64]⟩

/-- Element types; the payload of `array` is the byte of its element type. -/
inductive Dtype
  | raw
  | integer
  | float
  | string
  | boolean
  | array (of : UInt8)
  deriving DecidableEq

/-- `Dtype::as_byte`. -/
def Dtype.asByte : Dtype → UInt8
  | .raw => 0x0
  | .integer => 0x1
  | .float => 0x2
  | .string => 0x3
  | .boolean => 0x4
  | .array of => 0x10 ||| of

/-- `TryFrom<u8> for Dtype`; the range of array bytes excludes `0x1F`. -/
def Dtype.tryFrom (b : UInt8) : PDBResult Dtype :=
  if b = 0x00 then .ok .raw
  else if b = 0x01 then .ok .integer
  else if b = 0x02 then .ok .float
  else if b = 0x03 then .ok .string
  else if b = 0x04 then .ok .boolean
  else if 0x10 ≤ b ∧ b < 0x1F then .ok (.array (b &&& 0x0F))
  else failWith (.unknownDtype b)

/-- Scalar values. -/
inductive Primitive
  | integer (n : Int64)
  | float (bits : UInt64)
  | string (s : String)
  | boolean (b : Bool)
  deriving DecidableEq

/-- Keys are byte strings. -/
structure Key where
  /-- `Key::as_bytes`. -/
  asBytes : Bytes
  deriving DecidableEq

/-- `Key::len`. -/
def Key.len (k : Key) : ℕ := k.asBytes.length

/-- Stored values. -/
inductive Field
  | primitive (p : Primitive)
  | raw (bytes : Bytes)
  | array (dtype : Dtype) (elements : List Primitive)
  deriving DecidableEq

/-- The scalar part of `Field::dtype`. -/
def Primitive.dtype : Primitive → Dtype
  | .integer _ => .integer
  | .float _ => .float
  | .string _ => .string
  | .boolean _ => .boolean

/-- `Field::dtype`. -/
def Field.dtype : Field → Dtype
  | .primitive p => p.dtype
  | .array dtype _ => .array dtype.asByte
  | .raw _ => .raw

/-- `String::as_bytes`. -/
def stringBytes (s : String) : Bytes := s.toByteArray.data.toList

/-- The bytes of two texts behind one another. -/
theorem stringBytes_append (s t : String) :
    stringBytes (s ++ t) = stringBytes s ++ stringBytes t := by
  rw [stringBytes, String.toByteArray_append, ByteArray.data_append, Array.toList_append]
  rfl

/-- `From<&str> for Key`. -/
def Key.ofText (s : String) : Key := ⟨stringBytes s⟩

/-- `bytes_from_primitive`; the length of a string is cut to 32 bits. -/
def bytesFromPrimitive : Primitive → Bytes
  | .integer n => ofU64 n.toUInt64
  | .float bits => ofU64 bits
  | .string s => ofU32 (UInt32.ofNat (stringBytes s).length) ++ stringBytes s
  | .boolean b => [if b then 1 else 0]

/-- `primitive_from_bytes`. A boolean indexes its buffer and a string slices
it without a test of the length, so that both can panic. -/
def primitiveFromBytes (dt : Dtype) (buf : Bytes) : PDBResult (Primitive × ℕ) :=
  match dt with
  | .integer =>
    if buf.length < 8 then failWith .bufferTooShort
    else .ok (.integer (toU64 (buf.take 8)).toInt64, 8)
  | .float =>
    if buf.length < 8 then failWith .bufferTooShort
    else .ok (.float (toU64 (buf.take 8)), 8)
  | .boolean =>
    match buf with
    | [] => .error .panic
    | b :: _ => .ok (.boolean (b != 0), 1)
  | .string =>
    if buf.length < 4 then failWith .bufferTooShort
    else
      let len := (toU32 (buf.take 4)).toNat
      if buf.length < 4 + len then .error .panic
      else
        let text := (buf.drop 4).take len
        match String.fromUTF8? text.toByteArray with
        | some s => .ok (.string s, 4 + len)
        | none => failWith (.corruptedRecord (.invalidUtf8 text))
  | .raw => failWith (.unknownDtype dt.asByte)
  | .array _ => failWith (.unknownDtype dt.asByte)

/-- `bytes_from_field`; the element count is cut to 32 bits. -/
def bytesFromField (f : Field) : Bytes :=
  match f with
  | .primitive p => f.dtype.asByte :: bytesFromPrimitive p
  | .raw bytes => f.dtype.asByte :: bytes
  | .array dt elements =>
    (Dtype.array dt.asByte).asByte :: ofU32 (UInt32.ofNat elements.length) ++
      elements.flatMap bytesFromPrimitive

/-- The element loop of `field_from_bytes`: `count` more elements, the next
one at `offset`. -/
def arrayElements (inner : Dtype) (payload : Bytes) :
    ℕ → ℕ → PDBResult (List Primitive × ℕ)
  | 0, offset => .ok ([], offset)
  | count + 1, offset =>
    if payload.length < offset then .error .panic
    else do
      let (p, consumed) ← primitiveFromBytes inner (payload.drop offset)
      let (v, stop) ← arrayElements inner payload count (offset + consumed)
      .ok (p :: v, stop)

/-- `Vec::with_capacity(count)` in front of a call. Room for no more elements
than there are bytes is taken to be granted; the allocator decides on more. -/
def reserve {α : Type} (count bytes : ℕ) (r : PDBResult α) : PDBResult α :=
  r.mapError fun e => if count ≤ bytes then e else .room count e

/-- `field_from_bytes`. The capacity of an array is reserved before its element
type and its length are tested. -/
def fieldFromBytes (buf : Bytes) : PDBResult (Field × ℕ) :=
  match buf with
  | [] => failWith .bufferTooShort
  | tag :: payload => do
    match ← Dtype.tryFrom tag with
    | .raw => .ok (.raw payload, 1 + payload.length)
    | .array inner =>
      if payload.length < 4 then failWith .bufferTooShort
      else
        let count := (toU32 (payload.take 4)).toNat
        reserve count payload.length do
          let innerDt ← Dtype.tryFrom inner
          let (v, offset) ← arrayElements innerDt payload count 4
          .ok (.array innerDt v, 1 + offset)
    | dtype =>
      let (p, c) ← primitiveFromBytes dtype payload
      .ok (.primitive p, 1 + c)

/-- A reservation does not change a value. -/
@[simp] theorem reserve_eq_ok_iff {α : Type} {count bytes : ℕ} {r : PDBResult α} {a : α} :
    reserve count bytes r = .ok a ↔ r = .ok a := by
  cases r with
  | ok b => exact Iff.rfl
  | error e => exact iff_of_false nofun nofun

/-- A reservation changes nothing for a call that gets it. -/
theorem ends_reserve_iff {α : Type} {P : Abort → Prop}
    (hP : ∀ count e, P (.room count e) ↔ P e) {count bytes : ℕ} {r : PDBResult α} :
    Ends P (reserve count bytes r) ↔ Ends P r := by
  cases r with
  | ok a => exact iff_of_false (not_ends_ok a) (not_ends_ok a)
  | error e =>
    refine ends_error_iff.trans (Iff.trans ?_ ends_error_iff.symm)
    split
    · exact Iff.rfl
    · exact hP count e

/-- Types that may be declared for array elements. -/
def Dtype.Flat : Dtype → Prop
  | .array _ => False
  | _ => True

instance (dt : Dtype) : Decidable dt.Flat :=
  match dt with
  | .array _ => isFalse id
  | .raw | .integer | .float | .string | .boolean => isTrue trivial

/-- Every element of an array has the declared scalar type; an empty array
may also be declared raw. -/
def Field.WellTyped : Field → Prop
  | .array dt elements => dt.Flat ∧ ∀ p ∈ elements, p.dtype = dt
  | _ => True

instance (f : Field) : Decidable f.WellTyped :=
  match f with
  | .array dt elements => inferInstanceAs (Decidable (dt.Flat ∧ ∀ p ∈ elements, p.dtype = dt))
  | .primitive _ | .raw _ => isTrue trivial

/-- Keys whose length fits 16 bits. -/
abbrev Key.Encodable (k : Key) : Prop := k.len < 2 ^ 16

/-- Well-typed fields whose encoding has a length that fits 32 bits. -/
abbrev Field.Encodable (f : Field) : Prop := f.WellTyped ∧ (bytesFromField f).length < 2 ^ 32

/-- The length that the encoding of a scalar writes as a 32-bit word. -/
def Primitive.lengths : Primitive → List ℕ
  | .string s => [(stringBytes s).length]
  | .integer _ | .float _ | .boolean _ => []

/-- The lengths that the encoding of a field writes as 32-bit words. -/
def Field.lengths : Field → List ℕ
  | .primitive p => p.lengths
  | .raw _ => []
  | .array _ elements => elements.length :: elements.flatMap Primitive.lengths

/-- A scalar has no array type. -/
theorem Primitive.dtype_flat (p : Primitive) : p.dtype.Flat := by
  cases p <;> trivial

/-- The byte of a scalar type is read back. -/
theorem tryFrom_asByte {dt : Dtype} (h : dt.Flat) : Dtype.tryFrom dt.asByte = .ok dt := by
  cases dt with
  | array of => exact False.elim h
  | raw | integer | float | string | boolean => rfl

/-- The type byte of an array of flat elements names the array, and its low
nibble the element type. -/
theorem tryFrom_asByte_array {dt : Dtype} (h : dt.Flat) :
    Dtype.tryFrom (Dtype.array dt.asByte).asByte = .ok (.array dt.asByte) := by
  cases dt with
  | array of => exact False.elim h
  | raw | integer | float | string | boolean => rfl

/-- The bytes of a text are those of its byte array. -/
theorem stringBytes_toByteArray (s : String) : (stringBytes s).toByteArray = s.toByteArray := by
  apply ByteArray.ext
  rw [List.data_toByteArray, stringBytes, Array.toArray_toList]

/-- Text is read back from its own bytes. -/
theorem fromUTF8?_stringBytes (s : String) :
    String.fromUTF8? (stringBytes s).toByteArray = some s := by
  rw [stringBytes_toByteArray, String.fromUTF8?, dif_pos s.isValidUTF8]
  rfl

/-- A string whose length fits 32 bits is read back, whatever follows. -/
theorem primitiveFromBytes_string_append (s : String) (rest : Bytes)
    (h : (stringBytes s).length < 2 ^ 32) :
    primitiveFromBytes .string (bytesFromPrimitive (.string s) ++ rest) =
      .ok (.string s, (bytesFromPrimitive (.string s)).length) := by
  have hlen : (UInt32.ofNat (stringBytes s).length).toNat = (stringBytes s).length := by
    rw [UInt32.toNat_ofNat', Nat.mod_eq_of_lt (by omega)]
  have htake : (bytesFromPrimitive (.string s) ++ rest).take 4 =
      ofU32 (UInt32.ofNat (stringBytes s).length) := by
    rw [bytesFromPrimitive, List.append_assoc, List.take_left' (length_ofU32 _)]
  have hdrop : (bytesFromPrimitive (.string s) ++ rest).drop 4 = stringBytes s ++ rest := by
    rw [bytesFromPrimitive, List.append_assoc, List.drop_left' (length_ofU32 _)]
  have hlong : ¬ (bytesFromPrimitive (.string s) ++ rest).length < 4 + (stringBytes s).length := by
    simp [bytesFromPrimitive]
  have hhead : ¬ (bytesFromPrimitive (.string s) ++ rest).length < 4 := by omega
  simp only [primitiveFromBytes]
  rw [if_neg hhead, htake, toU32_ofU32, hlen, if_neg hlong, hdrop, List.take_left,
    fromUTF8?_stringBytes]
  simp only [bytesFromPrimitive, List.length_append, length_ofU32]

/-- A scalar is read back from its encoding, whatever follows. -/
theorem primitiveFromBytes_append (p : Primitive) (rest : Bytes)
    (h : ∀ n ∈ p.lengths, n < 2 ^ 32) :
    primitiveFromBytes p.dtype (bytesFromPrimitive p ++ rest) =
      .ok (p, (bytesFromPrimitive p).length) := by
  cases p with
  | integer n =>
    have hlong : ¬ (ofU64 n.toUInt64 ++ rest).length < 8 := by simp
    change primitiveFromBytes .integer (ofU64 n.toUInt64 ++ rest) = .ok (_, (ofU64 _).length)
    rw [primitiveFromBytes, if_neg hlong, List.take_left' (length_ofU64 _), toU64_ofU64,
      length_ofU64, Int64.toInt64_toUInt64]
  | float bits =>
    have hlong : ¬ (ofU64 bits ++ rest).length < 8 := by simp
    change primitiveFromBytes .float (ofU64 bits ++ rest) = .ok (_, (ofU64 _).length)
    rw [primitiveFromBytes, if_neg hlong, List.take_left' (length_ofU64 _), toU64_ofU64,
      length_ofU64]
  | string s => exact primitiveFromBytes_string_append s rest (h _ (List.mem_singleton_self _))
  | boolean b => cases b <;> rfl

/-- The element loop reads back a run of scalars of one type. -/
theorem arrayElements_flatMap {dt : Dtype} (elements : List Primitive) (pre rest : Bytes)
    (hdt : ∀ p ∈ elements, p.dtype = dt)
    (hlen : ∀ n ∈ elements.flatMap Primitive.lengths, n < 2 ^ 32) :
    arrayElements dt (pre ++ elements.flatMap bytesFromPrimitive ++ rest) elements.length
      pre.length =
      .ok (elements, pre.length + (elements.flatMap bytesFromPrimitive).length) := by
  induction elements generalizing pre with
  | nil => rfl
  | cons p elements ih =>
    rw [List.flatMap_cons] at hlen
    have hstart : ¬ (pre ++ (p :: elements).flatMap bytesFromPrimitive ++ rest).length <
        pre.length := by
      simp
    have hdrop : (pre ++ (p :: elements).flatMap bytesFromPrimitive ++ rest).drop pre.length =
        bytesFromPrimitive p ++ (elements.flatMap bytesFromPrimitive ++ rest) := by
      simp
    have hhead := primitiveFromBytes_append p (elements.flatMap bytesFromPrimitive ++ rest)
      fun n hn => hlen n (List.mem_append_left _ hn)
    rw [hdt p (by simp)] at hhead
    have htail := ih (pre ++ bytesFromPrimitive p) (fun q hq => hdt q (by simp [hq]))
      fun n hn => hlen n (List.mem_append_right _ hn)
    have hsame : pre ++ bytesFromPrimitive p ++ elements.flatMap bytesFromPrimitive ++ rest =
        pre ++ (p :: elements).flatMap bytesFromPrimitive ++ rest := by simp
    rw [hsame, List.length_append] at htail
    rw [List.length_cons, arrayElements, if_neg hstart, hdrop, hhead]
    change (do
      let (v, stop) ← arrayElements dt _ elements.length
        (pre.length + (bytesFromPrimitive p).length)
      Except.ok (p :: v, stop)) = _
    rw [htail]
    simp only [List.flatMap_cons, List.length_append, Nat.add_assoc]
    rfl

/-- Each scalar has at least one byte. -/
theorem length_bytesFromPrimitive_pos (p : Primitive) : 0 < (bytesFromPrimitive p).length := by
  cases p <;> simp [bytesFromPrimitive]

/-- Every element takes at least one byte. -/
theorem length_le_flatMap_bytesFromPrimitive (elements : List Primitive) :
    elements.length ≤ (elements.flatMap bytesFromPrimitive).length := by
  induction elements with
  | nil => exact Nat.le_refl _
  | cons p elements ih =>
    have := length_bytesFromPrimitive_pos p
    simp only [List.length_cons, List.flatMap_cons, List.length_append]
    omega

/-- A string is shorter than its encoding. -/
theorem le_of_mem_lengths {p : Primitive} {n : ℕ} (h : n ∈ p.lengths) :
    n ≤ (bytesFromPrimitive p).length := by
  cases p with
  | string s =>
    obtain rfl := List.mem_singleton.mp h
    rw [bytesFromPrimitive, List.length_append]
    omega
  | integer | float | boolean => cases h

/-- No length inside a field is larger than its encoding. -/
theorem length_le_of_mem_lengths {f : Field} {n : ℕ} (h : n ∈ f.lengths) :
    n ≤ (bytesFromField f).length := by
  cases f with
  | primitive p =>
    have hp := le_of_mem_lengths h
    rw [bytesFromField, List.length_cons]
    omega
  | raw bytes => cases h
  | array dt elements =>
    have hcount := length_le_flatMap_bytesFromPrimitive elements
    simp only [bytesFromField, List.length_append, List.length_cons]
    rcases List.mem_cons.mp h with rfl | h
    · omega
    · obtain ⟨p, hp, hn⟩ := List.mem_flatMap.mp h
      have hle := le_of_mem_lengths hn
      have hsum := (List.sublist_flatten_of_mem (List.mem_map_of_mem (f := bytesFromPrimitive)
        hp)).length_le
      rw [← List.flatMap_def] at hsum
      omega

/-- A scalar field is its type byte followed by the scalar. -/
theorem fieldFromBytes_scalar (p : Primitive) (payload : Bytes) :
    fieldFromBytes (p.dtype.asByte :: payload) =
      (primitiveFromBytes p.dtype payload).map fun out => (.primitive out.1, 1 + out.2) := by
  rw [fieldFromBytes, tryFrom_asByte p.dtype_flat]
  cases p <;>
  · simp only [Primitive.dtype, bind, Except.bind]
    cases primitiveFromBytes _ payload <;> rfl

/-- A field that marks its own end is read back, whatever follows. Only raw
bytes reach to the end of the buffer. -/
theorem fieldFromBytes_append {f : Field} (htyped : f.WellTyped)
    (hlen : ∀ n ∈ f.lengths, n < 2 ^ 32) {rest : Bytes} (hrest : f.dtype = .raw → rest = []) :
    fieldFromBytes (bytesFromField f ++ rest) = .ok (f, (bytesFromField f).length) := by
  cases f with
  | primitive p =>
    have hp := primitiveFromBytes_append p rest hlen
    rw [bytesFromField, Field.dtype, List.cons_append, fieldFromBytes_scalar, hp, List.length_cons,
      Nat.add_comm]
    rfl
  | raw bytes =>
    rw [hrest rfl, List.append_nil]
    simp only [bytesFromField, Field.dtype, fieldFromBytes]
    rw [tryFrom_asByte (show Dtype.raw.Flat from trivial), List.length_cons, Nat.add_comm]
    rfl
  | array dt elements =>
    obtain ⟨hflat, hdt⟩ := htyped
    have hto : (UInt32.ofNat elements.length).toNat = elements.length := by
      rw [UInt32.toNat_ofNat_of_lt' (hlen _ List.mem_cons_self)]
    have helems := arrayElements_flatMap elements (ofU32 (UInt32.ofNat elements.length)) rest hdt
      fun n hn => hlen n (List.mem_cons_of_mem _ hn)
    rw [length_ofU32] at helems
    have hlong : ¬ (ofU32 (UInt32.ofNat elements.length) ++
        elements.flatMap bytesFromPrimitive ++ rest).length < 4 := by simp
    simp only [bytesFromField, List.cons_append, fieldFromBytes]
    rw [tryFrom_asByte_array hflat]
    simp only [bind, Except.bind, if_neg hlong]
    rw [List.append_assoc, List.take_left' (length_ofU32 _), toU32_ofU32, hto, tryFrom_asByte hflat,
      ← List.append_assoc]
    simp only [helems, List.length_cons, List.length_append, length_ofU32]
    rw [reserve_eq_ok_iff, Nat.add_comm]

/-- A well-typed field is read back exactly, and all its bytes are used. -/
theorem fieldFromBytes_of_lengths {f : Field} (htyped : f.WellTyped)
    (hlen : ∀ n ∈ f.lengths, n < 2 ^ 32) :
    fieldFromBytes (bytesFromField f) = .ok (f, (bytesFromField f).length) := by
  have hread : fieldFromBytes (bytesFromField f ++ []) = .ok (f, (bytesFromField f).length) :=
    fieldFromBytes_append htyped hlen fun _ => rfl
  rwa [List.append_nil] at hread

/-- In particular when its whole encoding fits 32 bits. -/
theorem fieldFromBytes_bytesFromField {f : Field} (h : f.Encodable) :
    fieldFromBytes (bytesFromField f) = .ok (f, (bytesFromField f).length) :=
  fieldFromBytes_of_lengths h.1 fun _ hn => (length_le_of_mem_lengths hn).trans_lt h.2

/-- A key and the bytes of a field, both of lengths that fit their fields. -/
structure Parts where
  /-- The key. -/
  key : Key
  /-- The bytes of the field. -/
  field : Bytes
  /-- The key length has 16 bits. -/
  key_lt : key.Encodable
  /-- The field length has 32 bits. -/
  field_lt : field.length < 2 ^ 32

namespace Parts

/-- The key length as stored. -/
def keyLen (p : Parts) : UInt16 := UInt16.ofNat p.key.len

/-- The field length as stored. -/
def fieldLen (p : Parts) : UInt32 := UInt32.ofNat p.field.length

/-- The key length is not cut. -/
@[simp] theorem toNat_keyLen (p : Parts) : p.keyLen.toNat = p.key.len := by
  rw [keyLen, UInt16.toNat_ofNat_of_lt' p.key_lt]

/-- The field length is not cut. -/
@[simp] theorem toNat_fieldLen (p : Parts) : p.fieldLen.toNat = p.field.length := by
  rw [fieldLen, UInt32.toNat_ofNat_of_lt' p.field_lt]

/-- Parts of the sizes that two length fields give. -/
def ofLens (keyLen : UInt16) (fieldLen : UInt32) (key field : Bytes)
    (hkey : key.length = keyLen.toNat) (hfield : field.length = fieldLen.toNat) : Parts where
  key := ⟨key⟩
  field := field
  key_lt := hkey.trans_lt keyLen.toNat_lt
  field_lt := hfield.trans_lt fieldLen.toNat_lt

end Parts

end PeachDB.Dtypes
