import PeachDB.Dtypes

/-!
# What field decoding accepts and where it panics

Every field that `field_from_bytes` returns is well typed, and its own
encoding is as long as the bytes that were used, so that no length of it is
cut when it is written again and the codec is exact in both directions.
Booleans and strings are read without a test of the remaining length; the
buffers on which the decoder panics are those in which one of them is declared
past the end.
-/

namespace PeachDB.Dtypes

open LittleEndian

/-- Bytes that are valid text are the bytes of that text. -/
theorem stringBytes_of_fromUTF8? {text : Bytes} {s : String}
    (h : String.fromUTF8? text.toByteArray = some s) : stringBytes s = text := by
  rw [String.fromUTF8?] at h
  split at h
  · next hvalid =>
    have hs : s.toByteArray = text.toByteArray := by
      cases h
      rfl
    rw [stringBytes, hs, List.data_toByteArray]
  · cases h

/-- A declared string length fits behind the length itself. -/
theorem length_take_drop {buf : Bytes} {n : ℕ} (h : 4 + n ≤ buf.length) :
    ((buf.drop 4).take n).length = n := by
  rw [List.length_take, List.length_drop]
  omega

/-- A decoded scalar has the declared type, and its own encoding is as long as
the bytes used. -/
theorem primitiveFromBytes_eq_ok {dt : Dtype} {buf : Bytes} {p : Primitive} {n : ℕ}
    (h : primitiveFromBytes dt buf = .ok (p, n)) :
    p.dtype = dt ∧ n = (bytesFromPrimitive p).length ∧ n ≤ buf.length := by
  cases dt with
  | integer =>
    rw [primitiveFromBytes] at h
    split at h
    · cases h
    · cases h
      exact ⟨rfl, (length_ofU64 _).symm, by omega⟩
  | float =>
    rw [primitiveFromBytes] at h
    split at h
    · cases h
    · cases h
      exact ⟨rfl, (length_ofU64 _).symm, by omega⟩
  | boolean =>
    cases buf with
    | nil => cases h
    | cons b buf =>
      cases h
      exact ⟨rfl, rfl, by simp⟩
  | string =>
    simp only [primitiveFromBytes] at h
    split at h
    · cases h
    · split at h
      · cases h
      · next hlong =>
        split at h
        · next s htext =>
          cases h
          have hlen : (stringBytes s).length = (toU32 (buf.take 4)).toNat := by
            rw [stringBytes_of_fromUTF8? htext, length_take_drop (by omega)]
          refine ⟨rfl, ?_, by omega⟩
          rw [bytesFromPrimitive, List.length_append, length_ofU32, hlen]
        · cases h
  | raw => cases h
  | array of => cases h

/-- Decoded elements are as many as declared, all of the declared type, and
lie inside the payload. -/
theorem arrayElements_eq_ok {inner : Dtype} {payload : Bytes} {count offset stop : ℕ}
    {v : List Primitive} (h : arrayElements inner payload count offset = .ok (v, stop)) :
    v.length = count ∧ (∀ p ∈ v, p.dtype = inner) ∧
      stop = offset + (v.flatMap bytesFromPrimitive).length ∧
      (offset ≤ payload.length → stop ≤ payload.length) := by
  induction count generalizing offset v with
  | zero =>
    cases h
    exact ⟨rfl, by simp, by simp, id⟩
  | succ count ih =>
    rw [arrayElements] at h
    split at h
    · cases h
    · obtain ⟨⟨p, consumed⟩, hp, h⟩ := bind_eq_ok_iff.mp h
      obtain ⟨⟨rest, stop'⟩, hrest, h⟩ := bind_eq_ok_iff.mp h
      cases h
      obtain ⟨hdtype, hconsumed, hinside⟩ := primitiveFromBytes_eq_ok hp
      obtain ⟨hcount, hdtypes, hstop, hbound⟩ := ih hrest
      rw [List.length_drop] at hinside
      refine ⟨by rw [List.length_cons, hcount], ?_, ?_, fun _ => hbound (by omega)⟩
      · intro q hq
        rcases List.mem_cons.mp hq with rfl | hq
        · exact hdtype
        · exact hdtypes q hq
      · rw [List.flatMap_cons, List.length_append]
        omega

/-- The byte of an array type names its element type in the low nibble. -/
theorem tryFrom_eq_array {tag of : UInt8} (h : Dtype.tryFrom tag = .ok (.array of)) :
    (0x10 ≤ tag ∧ tag < 0x1F) ∧ of = tag &&& 0x0F := by
  rw [Dtype.tryFrom] at h
  repeat' split at h
  all_goals cases h
  next harray => exact ⟨harray, rfl⟩

/-- The bytes of the array types are their high and their low nibble. -/
theorem asByte_nibbles {tag : UInt8} (hlow : 0x10 ≤ tag) (hhigh : tag < 0x1F) :
    0x10 ||| (tag &&& 0x0F) = tag := by
  have hnibble : ∀ k : Fin 15, 16 ||| ((16 + k.val) &&& 15) = 16 + k.val := by decide
  rw [UInt8.le_iff_toNat_le] at hlow
  rw [UInt8.lt_iff_toNat_lt] at hhigh
  change 16 ≤ tag.toNat at hlow
  change tag.toNat < 31 at hhigh
  have htag := hnibble ⟨tag.toNat - 16, by omega⟩
  simp only [Nat.add_sub_cancel' hlow] at htag
  apply UInt8.toNat_inj.mp
  rw [UInt8.toNat_or, UInt8.toNat_and]
  exact htag

/-- A type byte that is accepted is the byte of its type. -/
theorem asByte_of_tryFrom {tag : UInt8} {dt : Dtype} (h : Dtype.tryFrom tag = .ok dt) :
    dt.asByte = tag := by
  cases dt with
  | array of =>
    obtain ⟨⟨hlow, hhigh⟩, rfl⟩ := tryFrom_eq_array h
    exact asByte_nibbles hlow hhigh
  | raw | integer | float | string | boolean =>
    rw [Dtype.tryFrom] at h
    repeat' split at h
    all_goals cases h
    all_goals exact Eq.symm ‹tag = _›

/-- An unknown type byte is an error that is returned. -/
theorem tryFrom_not_ends {P : Abort → Prop} (hP : ∀ x, ¬ P (.err x)) (tag : UInt8) :
    ¬ Ends P (Dtype.tryFrom tag) := by
  rw [Dtype.tryFrom]
  repeat' split
  all_goals first | exact not_ends_ok _ | exact fun h => hP _ (ends_error_iff.mp h)

/-- The low nibble of a type byte is never the byte of an array type. -/
theorem tryFrom_flat {tag : UInt8} {dt : Dtype} (h : Dtype.tryFrom (tag &&& 0x0F) = .ok dt) :
    dt.Flat := by
  cases dt with
  | array of =>
    have hle : tag.toNat &&& 15 ≤ 15 := Nat.and_le_right
    have hge := (tryFrom_eq_array h).1.1
    rw [UInt8.le_iff_toNat_le, UInt8.toNat_and] at hge
    change 16 ≤ tag.toNat &&& 15 at hge
    omega
  | raw | integer | float | string | boolean => trivial

/-- What `field_from_bytes` accepts, and the bytes that it uses. -/
inductive Accepted : Bytes → Field → ℕ → Prop
  /-- Raw bytes are taken as they are. -/
  | raw (tag : UInt8) (payload : Bytes) :
      Accepted (tag :: payload) (.raw payload) (1 + payload.length)
  /-- A scalar is read by its type. -/
  | scalar (tag : UInt8) {payload : Bytes} {dt : Dtype} {p : Primitive} {c : ℕ}
      (hp : primitiveFromBytes dt payload = .ok (p, c)) :
      Accepted (tag :: payload) (.primitive p) (1 + c)
  /-- The elements of an array are read one by one. -/
  | array {tag : UInt8} {payload : Bytes} {dt : Dtype} {v : List Primitive} {stop : ℕ}
      (hflat : dt.Flat) (hlong : 4 ≤ payload.length)
      (hv : arrayElements dt payload (toU32 (payload.take 4)).toNat 4 = .ok (v, stop)) :
      Accepted (tag :: payload) (.array dt v) (1 + stop)

/-- What the decoder returns has been accepted. -/
theorem accepted_of_fieldFromBytes {buf : Bytes} {f : Field} {n : ℕ}
    (h : fieldFromBytes buf = .ok (f, n)) :
    Accepted buf f n := by
  cases buf with
  | nil => cases h
  | cons tag payload =>
    obtain ⟨dt, hdt, h⟩ := bind_eq_ok_iff.mp h
    have hscalar :
        (primitiveFromBytes dt payload >>= fun out => .ok (.primitive out.1, 1 + out.2)) =
        .ok (f, n) → Accepted (tag :: payload) f n := by
      intro h
      obtain ⟨⟨p, c⟩, hp, h⟩ := bind_eq_ok_iff.mp h
      cases h
      exact .scalar tag hp
    cases dt with
    | raw =>
      cases h
      exact .raw tag payload
    | integer => exact hscalar h
    | float => exact hscalar h
    | string => exact hscalar h
    | boolean => exact hscalar h
    | array inner =>
      simp only at h
      split at h
      · cases h
      · next hlong =>
        obtain ⟨innerDt, hinner, h⟩ := bind_eq_ok_iff.mp (reserve_eq_ok_iff.mp h)
        obtain ⟨⟨v, stop⟩, hv, h⟩ := bind_eq_ok_iff.mp h
        cases h
        rw [(tryFrom_eq_array hdt).2] at hinner
        exact .array (tryFrom_flat hinner) (by omega) hv

/-- A field is well typed when it has been decoded, and its own encoding is as
long as the bytes used, all of which are in the buffer. -/
theorem fieldFromBytes_eq_ok {buf : Bytes} {f : Field} {n : ℕ}
    (h : fieldFromBytes buf = .ok (f, n)) :
    f.WellTyped ∧ n = (bytesFromField f).length ∧ n ≤ buf.length := by
  cases accepted_of_fieldFromBytes h with
  | raw tag payload =>
    have hlen : 1 + payload.length = (tag :: payload).length := by
      rw [List.length_cons, Nat.add_comm]
    exact ⟨trivial, hlen, hlen.le⟩
  | @scalar tag payload dt p c hp =>
    obtain ⟨-, hlen, hinside⟩ := primitiveFromBytes_eq_ok hp
    refine ⟨trivial, ?_, by rw [List.length_cons]; omega⟩
    rw [bytesFromField, List.length_cons, hlen, Nat.add_comm]
  | array hflat hlong hv =>
    obtain ⟨-, hdtypes, hstop, hinside⟩ := arrayElements_eq_ok hv
    have hbound := hinside hlong
    refine ⟨⟨hflat, hdtypes⟩, ?_, by rw [List.length_cons]; omega⟩
    simp only [bytesFromField, List.length_cons, List.length_append, length_ofU32, List.cons_append]
    omega

/-- Whatever is decoded from a buffer whose length fits 32 bits can be encoded
again. -/
theorem encodable_of_fieldFromBytes {buf : Bytes} {f : Field} {n : ℕ}
    (h : fieldFromBytes buf = .ok (f, n)) (hlen : buf.length < 2 ^ 32) : f.Encodable := by
  obtain ⟨htyped, hn, hinside⟩ := fieldFromBytes_eq_ok h
  exact ⟨htyped, by omega⟩

/-- Reading bytes returns. -/
theorem readExact_not_ends {P : Abort → Prop} (hP : ∀ x, ¬ P (.err x)) (c : Cursor) (n : ℕ) :
    ¬ Ends P (readExact c n) := by
  rw [readExact]
  split
  · exact not_ends_ok _
  · exact fun h => hP _ (ends_error_iff.mp h)

/-- A boolean or a string that reaches past the end of the buffer. -/
def Dtype.Overruns (dt : Dtype) (buf : Bytes) : Prop :=
  match dt with
  | .boolean => buf = []
  | .string => 4 ≤ buf.length ∧ buf.length < 4 + (toU32 (buf.take 4)).toNat
  | .raw | .integer | .float | .array _ => False

/-- A run of `count` booleans or strings that reaches past the end of the
buffer. Of a string the length must still be there. -/
def Dtype.ElementsOverrun (dt : Dtype) (count : ℕ) (buf : Bytes) : Prop :=
  match dt with
  | .boolean => buf.length < count
  | .string => ∃ (texts : List String) (rest : Bytes), texts.length < count ∧
      (∀ s ∈ texts, (stringBytes s).length < 2 ^ 32) ∧
      buf = texts.flatMap (fun s => bytesFromPrimitive (.string s)) ++ rest ∧
      Dtype.string.Overruns rest
  | .raw | .integer | .float | .array _ => False

/-- Field bytes in which a boolean or a string reaches past the end. -/
inductive Overruns : Bytes → Prop
  /-- A scalar behind its type. -/
  | scalar (dt : Dtype) (payload : Bytes) (h : dt.Overruns payload) :
      Overruns (dt.asByte :: payload)
  /-- An element behind the ones that can be read. -/
  | array (dt : Dtype) (count : UInt32) (payload : Bytes)
      (h : dt.ElementsOverrun count.toNat payload) :
      Overruns ((Dtype.array dt.asByte).asByte :: (ofU32 count ++ payload))

/-- A scalar that is decoded does not panic exactly when it stays inside. -/
theorem primitiveFromBytes_panics_iff {dt : Dtype} {buf : Bytes} :
    Panics (primitiveFromBytes dt buf) ↔ dt.Overruns buf := by
  cases dt with
  | integer =>
    rw [primitiveFromBytes]
    split <;> simp [Dtype.Overruns]
  | float =>
    rw [primitiveFromBytes]
    split <;> simp [Dtype.Overruns]
  | boolean => cases buf <;> simp [primitiveFromBytes, Dtype.Overruns]
  | string =>
    simp only [primitiveFromBytes, Dtype.Overruns]
    split
    · exact iff_of_false (by simp) (by omega)
    · split
      · exact iff_of_true (by simp) (by omega)
      · split
        · exact iff_of_false (by simp) (by omega)
        · exact iff_of_false (by simp) (by omega)
  | raw => simp [primitiveFromBytes, Dtype.Overruns]
  | array of => simp [primitiveFromBytes, Dtype.Overruns]

/-- The element loop panics at the first element or behind it. -/
theorem arrayElements_succ_panics_iff {inner : Dtype} {payload : Bytes} {count offset : ℕ}
    (hoffset : offset ≤ payload.length) :
    Panics (arrayElements inner payload (count + 1) offset) ↔
      inner.Overruns (payload.drop offset) ∨
        ∃ p consumed, primitiveFromBytes inner (payload.drop offset) = .ok (p, consumed) ∧
          Panics (arrayElements inner payload count (offset + consumed)) := by
  rw [arrayElements, if_neg (Nat.not_lt.mpr hoffset), bind_panics_iff,
    primitiveFromBytes_panics_iff]
  constructor
  · rintro (h | ⟨⟨p, consumed⟩, hp, h⟩)
    · exact .inl h
    · rcases bind_panics_iff.mp h with h | ⟨out, -, hout⟩
      · exact .inr ⟨p, consumed, hp, h⟩
      · exact absurd hout (not_ends_ok _)
  · rintro (h | ⟨p, consumed, hp, h⟩)
    · exact .inl h
    · exact .inr ⟨(p, consumed), hp, bind_panics_iff.mpr (.inl h)⟩

/-- A string that is decoded stands at the head of the buffer. -/
theorem eq_of_primitiveFromBytes_string {buf : Bytes} {p : Primitive} {n : ℕ}
    (h : primitiveFromBytes .string buf = .ok (p, n)) :
    ∃ s, (stringBytes s).length < 2 ^ 32 ∧ p = .string s ∧
      buf = bytesFromPrimitive (.string s) ++ buf.drop n := by
  simp only [primitiveFromBytes] at h
  split at h
  · cases h
  · next hhead =>
    split at h
    · cases h
    · next hlong =>
      split at h
      · next s htext =>
        cases h
        have htake : (buf.take 4).length = 4 := by
          rw [List.length_take]
          omega
        have hs := stringBytes_of_fromUTF8? htext
        have hlen : (stringBytes s).length = (toU32 (buf.take 4)).toNat := by
          rw [hs, length_take_drop (by omega)]
        refine ⟨s, hlen ▸ (toU32 (buf.take 4)).toNat_lt, rfl, ?_⟩
        rw [bytesFromPrimitive, hlen, UInt32.ofNat_toNat, ofU32_toU32 htake, hs, List.append_assoc,
          ← List.drop_drop, List.take_append_drop, List.take_append_drop]
      · cases h

/-- The loop over booleans panics exactly when the declared ones are more than
the bytes left. -/
theorem arrayElements_boolean_panics_iff {payload : Bytes} {count offset : ℕ}
    (hoffset : offset ≤ payload.length) :
    Panics (arrayElements .boolean payload count offset) ↔
      Dtype.boolean.ElementsOverrun count (payload.drop offset) := by
  induction count generalizing offset with
  | zero => simp [arrayElements, Dtype.ElementsOverrun]
  | succ count ih =>
    rw [arrayElements_succ_panics_iff hoffset]
    simp only [Dtype.Overruns, Dtype.ElementsOverrun, List.length_drop] at ih ⊢
    constructor
    · rintro (h | ⟨p, consumed, hp, h⟩)
      · have hnil := List.drop_eq_nil_iff.mp h
        omega
      · obtain ⟨-, hconsumed, hinside⟩ := primitiveFromBytes_eq_ok hp
        rw [List.length_drop] at hinside
        cases hdrop : payload.drop offset with
        | nil =>
          have hnil := List.drop_eq_nil_iff.mp hdrop
          omega
        | cons b rest =>
          rw [hdrop] at hp
          cases hp
          have hnext : offset + 1 ≤ payload.length := by omega
          have hrest := (ih hnext).mp h
          omega
    · intro h
      cases hdrop : payload.drop offset with
      | nil => exact .inl rfl
      | cons b rest =>
        have hlen := congrArg List.length hdrop
        rw [List.length_drop, List.length_cons] at hlen
        exact .inr ⟨.boolean (b != 0), 1, rfl, (ih (by omega)).mpr (by omega)⟩

/-- The loop over strings panics exactly when fewer whole strings than declared
are followed by one that reaches past the end. -/
theorem arrayElements_string_panics_iff {payload : Bytes} {count offset : ℕ}
    (hoffset : offset ≤ payload.length) :
    Panics (arrayElements .string payload count offset) ↔
      Dtype.string.ElementsOverrun count (payload.drop offset) := by
  induction count generalizing offset with
  | zero => simp [arrayElements, Dtype.ElementsOverrun]
  | succ count ih =>
    rw [arrayElements_succ_panics_iff hoffset]
    constructor
    · rintro (h | ⟨p, consumed, hp, h⟩)
      · exact ⟨[], payload.drop offset, by simp, by simp, rfl, h⟩
      · obtain ⟨-, -, hinside⟩ := primitiveFromBytes_eq_ok hp
        obtain ⟨s, hs, -, hbuf⟩ := eq_of_primitiveFromBytes_string hp
        rw [List.length_drop] at hinside
        obtain ⟨texts, rest, hcount, htexts, hrest, hover⟩ := (ih (by omega)).mp h
        refine ⟨s :: texts, rest, by rw [List.length_cons]; omega, ?_, ?_, hover⟩
        · intro t ht
          rcases List.mem_cons.mp ht with rfl | ht
          · exact hs
          · exact htexts t ht
        · rw [List.flatMap_cons, List.append_assoc, ← hrest, ← List.drop_drop]
          exact hbuf
    · rintro ⟨texts, rest, hcount, htexts, hbuf, hover⟩
      cases texts with
      | nil =>
        rw [List.flatMap_nil, List.nil_append] at hbuf
        exact .inl (hbuf ▸ hover)
      | cons s texts =>
        rw [List.flatMap_cons, List.append_assoc] at hbuf
        have hlen := congrArg List.length hbuf
        rw [List.length_drop, List.length_append] at hlen
        have hread : primitiveFromBytes .string (payload.drop offset) =
            .ok (.string s, (bytesFromPrimitive (.string s)).length) := by
          rw [hbuf]
          exact primitiveFromBytes_string_append s _ (htexts s (by simp))
        refine .inr ⟨_, _, hread, (ih (by omega)).mpr ?_⟩
        refine ⟨texts, rest, by rw [List.length_cons] at hcount; omega,
          fun t ht => htexts t (by simp [ht]), ?_, hover⟩
        rw [← List.drop_drop, hbuf, List.drop_left]

/-- The loop over numbers does not panic. -/
theorem arrayElements_not_panics {inner : Dtype} (hinner : ∀ buf, ¬ inner.Overruns buf)
    {payload : Bytes} {count offset : ℕ} (hoffset : offset ≤ payload.length) :
    ¬ Panics (arrayElements inner payload count offset) := by
  induction count generalizing offset with
  | zero => simp [arrayElements]
  | succ count ih =>
    intro h
    rcases (arrayElements_succ_panics_iff hoffset).mp h with h | ⟨p, consumed, hp, h⟩
    · exact hinner _ h
    · have hinside := (primitiveFromBytes_eq_ok hp).2.2
      rw [List.length_drop] at hinside
      exact ih (by omega) h

/-- The element loop panics exactly when its elements overrun the buffer. -/
theorem arrayElements_panics_iff {inner : Dtype} {payload : Bytes} {count offset : ℕ}
    (hoffset : offset ≤ payload.length) :
    Panics (arrayElements inner payload count offset) ↔
      inner.ElementsOverrun count (payload.drop offset) := by
  cases inner with
  | boolean => exact arrayElements_boolean_panics_iff hoffset
  | string => exact arrayElements_string_panics_iff hoffset
  | raw => exact iff_of_false (arrayElements_not_panics (fun _ => id) hoffset) id
  | integer => exact iff_of_false (arrayElements_not_panics (fun _ => id) hoffset) id
  | float => exact iff_of_false (arrayElements_not_panics (fun _ => id) hoffset) id
  | array of => exact iff_of_false (arrayElements_not_panics (fun _ => id) hoffset) id

/-- A scalar field is read as its scalar. -/
theorem fieldFromBytes_of_scalar {tag : UInt8} {dt : Dtype} {payload : Bytes}
    (htag : Dtype.tryFrom tag = .ok dt) (hdt : dt.Flat) (hraw : dt ≠ .raw) :
    fieldFromBytes (tag :: payload) =
      (primitiveFromBytes dt payload >>= fun out => .ok (.primitive out.1, 1 + out.2)) := by
  rw [fieldFromBytes, htag]
  cases dt with
  | array of => exact hdt.elim
  | raw => exact absurd rfl hraw
  | integer | float | string | boolean => rfl

/-- A scalar field panics when its scalar does. -/
theorem fieldFromBytes_scalar_panics_iff {tag : UInt8} {dt : Dtype} {payload : Bytes}
    (htag : Dtype.tryFrom tag = .ok dt) (hdt : dt.Flat) (hraw : dt ≠ .raw) :
    Panics (fieldFromBytes (tag :: payload)) ↔ dt.Overruns payload := by
  rw [fieldFromBytes_of_scalar htag hdt hraw, bind_panics_iff, primitiveFromBytes_panics_iff]
  constructor
  · rintro (h | ⟨out, -, hout⟩)
    · exact h
    · exact absurd hout (not_ends_ok _)
  · exact .inl

/-- An array reserves its capacity and reads its elements. -/
theorem fieldFromBytes_array {tag of : UInt8} {payload : Bytes}
    (htag : Dtype.tryFrom tag = .ok (.array of)) (hlong : 4 ≤ payload.length) :
    fieldFromBytes (tag :: payload) = reserve (toU32 (payload.take 4)).toNat payload.length
      (Dtype.tryFrom of >>= fun inner =>
        arrayElements inner payload (toU32 (payload.take 4)).toNat 4 >>= fun out =>
          .ok (.array inner out.1, 1 + out.2)) := by
  rw [fieldFromBytes, htag]
  exact if_neg (Nat.not_lt.mpr hlong)

/-- An array without its count is refused. -/
theorem fieldFromBytes_array_short {tag of : UInt8} {payload : Bytes}
    (htag : Dtype.tryFrom tag = .ok (.array of)) (hshort : payload.length < 4) :
    fieldFromBytes (tag :: payload) = failWith .bufferTooShort := by
  rw [fieldFromBytes, htag]
  exact if_pos hshort

/-- An array panics when its elements overrun what follows the count. -/
theorem fieldFromBytes_array_panics_iff {tag of : UInt8} {payload : Bytes}
    (htag : Dtype.tryFrom tag = .ok (.array of)) :
    Panics (fieldFromBytes (tag :: payload)) ↔
      ∃ inner, Dtype.tryFrom of = .ok inner ∧ 4 ≤ payload.length ∧
        inner.ElementsOverrun (toU32 (payload.take 4)).toNat (payload.drop 4) := by
  rcases Nat.lt_or_ge payload.length 4 with hshort | hlong
  · rw [fieldFromBytes_array_short htag hshort]
    refine iff_of_false (by simp) ?_
    rintro ⟨inner, -, hlong, -⟩
    omega
  · rw [fieldFromBytes_array htag hlong, Panics, ends_reserve_iff fun _ _ => Iff.rfl,
      bind_ends_iff]
    constructor
    · rintro (h | ⟨inner, hinner, h⟩)
      · exact absurd h (tryFrom_not_ends (by simp) of)
      · rcases bind_ends_iff.mp h with h | ⟨out, -, hout⟩
        · exact ⟨inner, hinner, hlong, (arrayElements_panics_iff hlong).mp h⟩
        · exact absurd hout (not_ends_ok _)
    · rintro ⟨inner, hinner, -, h⟩
      exact .inr ⟨inner, hinner,
        bind_ends_iff.mpr (.inl ((arrayElements_panics_iff hlong).mpr h))⟩

/-- Decoding a field panics exactly on the buffers that overrun. -/
theorem fieldFromBytes_panics_iff {buf : Bytes} : Panics (fieldFromBytes buf) ↔ Overruns buf := by
  constructor
  · intro h
    cases buf with
    | nil => exact absurd h (by simp [fieldFromBytes])
    | cons tag payload =>
      cases hdt : Dtype.tryFrom tag with
      | error e =>
        rw [fieldFromBytes, hdt] at h
        exact absurd (ends_error_iff.mpr (ends_error_iff.mp h))
          (hdt ▸ tryFrom_not_ends (by simp) tag)
      | ok dt =>
        have htag := asByte_of_tryFrom hdt
        cases dt with
        | array of =>
          obtain ⟨inner, hinner, hlong, hover⟩ := (fieldFromBytes_array_panics_iff hdt).mp h
          have htake : (payload.take 4).length = 4 := by
            rw [List.length_take]
            omega
          have hparts : payload = ofU32 (toU32 (payload.take 4)) ++ payload.drop 4 := by
            rw [ofU32_toU32 htake, List.take_append_drop]
          rw [← htag, ← asByte_of_tryFrom hinner, hparts]
          exact .array inner _ _ hover
        | raw =>
          rw [fieldFromBytes, hdt] at h
          exact absurd h (not_ends_ok _)
        | integer | float | string | boolean =>
          rw [← htag]
          exact .scalar _ _ ((fieldFromBytes_scalar_panics_iff hdt trivial (by simp)).mp h)
  · intro h
    cases h with
    | scalar dt payload h =>
      have hscalar (hflat : dt.Flat) (hraw : dt ≠ .raw) :
          Panics (fieldFromBytes (dt.asByte :: payload)) :=
        (fieldFromBytes_scalar_panics_iff (tryFrom_asByte hflat) hflat hraw).mpr h
      cases dt with
      | boolean | string => exact hscalar trivial (by simp)
      | raw | integer | float | array => exact h.elim
    | array dt count payload h =>
      have hflat : dt.Flat := by
        cases dt with
        | array of => exact h
        | raw | integer | float | boolean | string => trivial
      refine (fieldFromBytes_array_panics_iff (tryFrom_asByte_array hflat)).mpr
        ⟨dt, tryFrom_asByte hflat, by simp, ?_⟩
      rw [List.take_left' (length_ofU32 count), List.drop_left' (length_ofU32 count), toU32_ofU32]
      exact h

/-- Field bytes that declare more elements than they are long, and more than
the allocator grants room for. -/
inductive Starves (grants : ℕ → Bool) : Bytes → Prop
  | intro {tag : UInt8} (count : UInt32) (payload : Bytes) (htag : 0x10 ≤ tag ∧ tag < 0x1F)
      (hcount : 4 + payload.length < count.toNat) (hrefused : grants count.toNat = false) :
      Starves grants (tag :: (ofU32 count ++ payload))

/-- A scalar asks for no room. -/
theorem primitiveFromBytes_not_aborts (grants : ℕ → Bool) (dt : Dtype) (buf : Bytes) :
    ¬ Aborts grants (primitiveFromBytes dt buf) := by
  rw [primitiveFromBytes.eq_def]
  split
  · split <;> simp
  · split <;> simp
  · split <;> simp
  · dsimp only
    split
    · simp
    · split
      · simp
      · split <;> simp
  · simp
  · simp

/-- The element loop asks for no room. -/
theorem arrayElements_not_aborts (grants : ℕ → Bool) (inner : Dtype) (payload : Bytes)
    (count offset : ℕ) :
    ¬ Aborts grants (arrayElements inner payload count offset) := by
  induction count generalizing offset with
  | zero => exact not_ends_ok _
  | succ count ih =>
    intro h
    rw [arrayElements] at h
    split at h
    · exact absurd h (by simp)
    · rcases bind_ends_iff.mp h with h | ⟨⟨p, consumed⟩, -, h⟩
      · exact primitiveFromBytes_not_aborts grants _ _ h
      · rcases bind_ends_iff.mp h with h | ⟨out, -, h⟩
        · exact ih _ h
        · exact not_ends_ok _ h

/-- The capacity of an array makes the process abort when it is refused. -/
theorem fieldFromBytes_array_aborts_iff {grants : ℕ → Bool} {tag of : UInt8} {payload : Bytes}
    (htag : Dtype.tryFrom tag = .ok (.array of)) (hlong : 4 ≤ payload.length) :
    Aborts grants (fieldFromBytes (tag :: payload)) ↔
      payload.length < (toU32 (payload.take 4)).toNat ∧
      grants (toU32 (payload.take 4)).toNat = false := by
  rw [fieldFromBytes_array htag hlong]
  cases helements : (Dtype.tryFrom of >>= fun inner =>
      arrayElements inner payload (toU32 (payload.take 4)).toNat 4 >>= fun out =>
        Except.ok (.array inner out.1, 1 + out.2) : PDBResult (Field × ℕ)) with
  | ok out =>
    -- every element has a byte, so that the room is there
    refine iff_of_false (not_ends_ok _) ?_
    rintro ⟨hcount, -⟩
    obtain ⟨inner, -, h⟩ := bind_eq_ok_iff.mp helements
    obtain ⟨⟨v, stop⟩, hv, -⟩ := bind_eq_ok_iff.mp h
    obtain ⟨hlength, -, hstop, hinside⟩ := arrayElements_eq_ok hv
    have hbytes := length_le_flatMap_bytesFromPrimitive v
    have hend := hinside hlong
    omega
  | error e =>
    have hquiet : ∀ grants, ¬ e.under grants = none := by
      intro grants he
      have hends : Aborts grants (Except.error e : PDBResult (Field × ℕ)) :=
        ends_error_iff.mpr he
      rw [← helements] at hends
      rcases bind_ends_iff.mp hends with h | ⟨inner, -, h⟩
      · exact tryFrom_not_ends (by simp) of h
      · rcases bind_ends_iff.mp h with h | ⟨out, -, h⟩
        · exact arrayElements_not_aborts grants _ _ _ _ h
        · exact not_ends_ok _ h
    rw [reserve, Except.mapError, Aborts, ends_error_iff]
    by_cases hroom : (toU32 (payload.take 4)).toNat ≤ payload.length
    · rw [if_pos hroom]
      exact iff_of_false (hquiet grants) fun h => absurd h.1 (Nat.not_lt.mpr hroom)
    · rw [if_neg hroom, Abort.under, ite_eq_right_iff]
      refine ⟨fun h => ⟨Nat.lt_of_not_le hroom, ?_⟩, fun h hgrants => ?_⟩
      · cases hgrants : grants (toU32 (payload.take 4)).toNat with
        | false => rfl
        | true => exact absurd (h hgrants) (hquiet grants)
      · rw [h.2] at hgrants
        cases hgrants

/-- The process aborts in decoding a field exactly on the buffers that starve. -/
theorem fieldFromBytes_aborts_iff {grants : ℕ → Bool} {buf : Bytes} :
    Aborts grants (fieldFromBytes buf) ↔ Starves grants buf := by
  constructor
  · intro h
    cases buf with
    | nil => exact absurd h (by simp [fieldFromBytes])
    | cons tag payload =>
      cases hdt : Dtype.tryFrom tag with
      | error e =>
        rw [fieldFromBytes, hdt] at h
        exact absurd (ends_error_iff.mpr (ends_error_iff.mp h))
          (hdt ▸ tryFrom_not_ends (by simp) tag)
      | ok dt =>
        cases dt with
        | array of =>
          rcases Nat.lt_or_ge payload.length 4 with hshort | hlong
          · rw [fieldFromBytes_array_short hdt hshort] at h
            exact absurd h (by simp)
          · obtain ⟨hcount, hrefused⟩ := (fieldFromBytes_array_aborts_iff hdt hlong).mp h
            have htake : (payload.take 4).length = 4 := by
              rw [List.length_take]
              omega
            have hparts : payload = ofU32 (toU32 (payload.take 4)) ++ payload.drop 4 := by
              rw [ofU32_toU32 htake, List.take_append_drop]
            have hstarves :
                Starves grants (tag :: (ofU32 (toU32 (payload.take 4)) ++ payload.drop 4)) := by
              refine .intro _ _ (tryFrom_eq_array hdt).1 ?_ hrefused
              rw [List.length_drop]
              omega
            rwa [← hparts] at hstarves
        | raw =>
          rw [fieldFromBytes, hdt] at h
          exact absurd h (not_ends_ok _)
        | integer | float | string | boolean =>
          rw [fieldFromBytes_of_scalar hdt trivial (by simp)] at h
          rcases bind_ends_iff.mp h with h | ⟨out, -, hout⟩
          · exact absurd h (primitiveFromBytes_not_aborts grants _ _)
          · exact absurd hout (not_ends_ok _)
  · intro h
    cases h with
    | @intro tag count payload htag hcount hrefused =>
      have hdt : Dtype.tryFrom tag = .ok (.array (tag &&& 0x0F)) := by
        rw [Dtype.tryFrom]
        have hlow : ∀ b : UInt8, b < 0x10 → tag ≠ b := by
          rintro b hb rfl
          exact absurd hb (UInt8.not_lt.mpr htag.1)
        rw [if_neg (hlow 0x00 (by decide)), if_neg (hlow 0x01 (by decide)),
          if_neg (hlow 0x02 (by decide)), if_neg (hlow 0x03 (by decide)),
          if_neg (hlow 0x04 (by decide)), if_pos htag]
      refine (fieldFromBytes_array_aborts_iff hdt (by simp)).mpr ?_
      rw [List.take_left' (length_ofU32 count), toU32_ofU32, List.length_append, length_ofU32]
      exact ⟨hcount, hrefused⟩

/-- The lengths of a decoded scalar come from 32-bit words. -/
theorem lengths_lt_of_primitiveFromBytes {dt : Dtype} {buf : Bytes} {p : Primitive} {m : ℕ}
    (h : primitiveFromBytes dt buf = .ok (p, m)) : ∀ n ∈ p.lengths, n < 2 ^ 32 := by
  intro n hn
  cases p with
  | string s =>
    have hdt : Dtype.string = dt := (primitiveFromBytes_eq_ok h).1
    subst hdt
    obtain ⟨t, ht, hs, -⟩ := eq_of_primitiveFromBytes_string h
    cases hs
    rwa [List.mem_singleton.mp hn]
  | integer | float | boolean => cases hn

/-- So do the lengths of all elements read by the element loop. -/
theorem lengths_lt_of_arrayElements {inner : Dtype} {payload : Bytes} {count offset stop : ℕ}
    {v : List Primitive} (h : arrayElements inner payload count offset = .ok (v, stop)) :
    ∀ n ∈ v.flatMap Primitive.lengths, n < 2 ^ 32 := by
  induction count generalizing offset v with
  | zero =>
    cases h
    intro n hn
    cases hn
  | succ count ih =>
    rw [arrayElements] at h
    split at h
    · cases h
    · obtain ⟨⟨p, consumed⟩, hp, h⟩ := bind_eq_ok_iff.mp h
      obtain ⟨⟨rest, stop'⟩, hrest, h⟩ := bind_eq_ok_iff.mp h
      cases h
      intro n hn
      rw [List.flatMap_cons] at hn
      rcases List.mem_append.mp hn with hn | hn
      · exact lengths_lt_of_primitiveFromBytes hp n hn
      · exact ih hrest n hn

/-- The lengths of a decoded field fit 32 bits, however long the buffer is. -/
theorem lengths_lt_of_fieldFromBytes {buf : Bytes} {f : Field} {m : ℕ}
    (h : fieldFromBytes buf = .ok (f, m)) : ∀ n ∈ f.lengths, n < 2 ^ 32 := by
  cases accepted_of_fieldFromBytes h with
  | raw tag payload =>
    intro n hn
    cases hn
  | scalar tag hp => exact lengths_lt_of_primitiveFromBytes hp
  | array hflat hlong hv =>
    intro n hn
    rcases List.mem_cons.mp hn with rfl | hn
    · rw [(arrayElements_eq_ok hv).1]
      exact UInt32.toNat_lt _
    · exact lengths_lt_of_arrayElements hv n hn

/-- A field is read back from its encoding, with anything behind it when it is
not raw, provided that its lengths fit 32 bits. What is decoded from any buffer
is such a field, its own encoding has the length that was used, and the field
is decoded from that again. -/
theorem field_codec_exact :
    (∀ f : Field, f.WellTyped → (∀ n ∈ f.lengths, n < 2 ^ 32) →
      fieldFromBytes (bytesFromField f) = .ok (f, (bytesFromField f).length) ∧
      (f.dtype ≠ .raw → ∀ rest : Bytes,
        fieldFromBytes (bytesFromField f ++ rest) = .ok (f, (bytesFromField f).length))) ∧
    (∀ (buf : Bytes) (f : Field) (n : ℕ), fieldFromBytes buf = .ok (f, n) →
      n ≤ buf.length ∧ (bytesFromField f).length = n ∧
      fieldFromBytes (bytesFromField f) = .ok (f, n)) := by
  constructor
  · intro f htyped hlen
    exact ⟨fieldFromBytes_of_lengths htyped hlen,
      fun hraw rest => fieldFromBytes_append htyped hlen fun h => absurd h hraw⟩
  · intro buf f n h
    obtain ⟨htyped, hn, hinside⟩ := fieldFromBytes_eq_ok h
    have hread := fieldFromBytes_of_lengths htyped (lengths_lt_of_fieldFromBytes h)
    rw [← hn] at hread
    exact ⟨hinside, hn.symm, hread⟩

/-- An array of two strings with a byte behind it, and a boolean that is stored
as another byte than it is written with. -/
theorem field_codec_exact_strings :
    fieldFromBytes (bytesFromField (.array .string [.string "a", .string ""]) ++ [0xFF]) =
        .ok (.array .string [.string "a", .string ""], 14) ∧
      (bytesFromField (.primitive (.boolean true))).length = 2 := by
  have harray := (field_codec_exact.1 (.array .string [.string "a", .string ""]) (by decide)
    (by decide +kernel)).2 (by decide) [0xFF]
  have hboolean := field_codec_exact.2 [0x04, 0x07, 0xAA] (.primitive (.boolean true)) 2 rfl
  exact ⟨harray, hboolean.2.1⟩

end PeachDB.Dtypes
