import PeachDB.FieldDecoding

/-!
# The wire protocol

`protocol.rs`. Lengths on the wire are big-endian. A request is a version, a
command, a key and a field; a response is a status and a payload behind its
length. The decoder takes bytes behind a request and fields that are not in
canonical form, so that it accepts more than the encoder writes.
-/

namespace PeachDB.Protocol

open LittleEndian Dtypes

/-- `u16::to_be_bytes`. -/
def beU16 (n : UInt16) : Bytes := (ofU16 n).reverse

/-- `u32::to_be_bytes`. -/
def beU32 (n : UInt32) : Bytes := (ofU32 n).reverse

/-- `u16::from_be_bytes`, applied to words of two bytes only. -/
def fromBeU16 (bs : Bytes) : UInt16 := toU16 bs.reverse

/-- `u32::from_be_bytes`, applied to words of four bytes only. -/
def fromBeU32 (bs : Bytes) : UInt32 := toU32 bs.reverse

/-- Two bytes. -/
@[simp] theorem length_beU16 (n : UInt16) : (beU16 n).length = 2 := by
  rw [beU16, List.length_reverse, length_ofU16]

/-- Four bytes. -/
@[simp] theorem length_beU32 (n : UInt32) : (beU32 n).length = 4 := by
  rw [beU32, List.length_reverse, length_ofU32]

/-- Two bytes are read back. -/
@[simp] theorem fromBeU16_beU16 (n : UInt16) : fromBeU16 (beU16 n) = n := by
  rw [fromBeU16, beU16, List.reverse_reverse, toU16_ofU16]

/-- Four bytes are read back. -/
@[simp] theorem fromBeU32_beU32 (n : UInt32) : fromBeU32 (beU32 n) = n := by
  rw [fromBeU32, beU32, List.reverse_reverse, toU32_ofU32]

/-- Every two bytes are a number. -/
theorem beU16_fromBeU16 {bs : Bytes} (h : bs.length = 2) : beU16 (fromBeU16 bs) = bs := by
  rw [beU16, fromBeU16, ofU16_toU16 (by rw [List.length_reverse, h]), List.reverse_reverse]

/-- Every four bytes are a number. -/
theorem beU32_fromBeU32 {bs : Bytes} (h : bs.length = 4) : beU32 (fromBeU32 bs) = bs := by
  rw [beU32, fromBeU32, ofU32_toU32 (by rw [List.length_reverse, h]), List.reverse_reverse]

/-- `Command`. -/
inductive Command
  | ping
  | get
  | set
  | del
  | keys
  deriving DecidableEq

/-- `TryFrom<u8> for Command`. -/
def Command.tryFrom (b : UInt8) : PDBResult Command :=
  if b = 0x01 then .ok .ping
  else if b = 0x02 then .ok .get
  else if b = 0x03 then .ok .set
  else if b = 0x04 then .ok .del
  else if b = 0x05 then .ok .keys
  else failWith (.unknownCommand b)

/-- `From<Command> for u8`. -/
def Command.toByte : Command → UInt8
  | .ping => 0x01
  | .get => 0x02
  | .set => 0x03
  | .del => 0x04
  | .keys => 0x05

/-- `Request`. -/
inductive Request
  | ping
  | get (key : Key)
  | set (key : Key) (field : Field)
  | del (key : Key)
  | keys
  deriving DecidableEq

/-- `Status`. -/
inductive Status
  | ok
  | notFound
  | typeError
  | serverError
  | invalidRequest
  | keys
  deriving DecidableEq

/-- `TryFrom<u8> for Status`. -/
def Status.tryFrom (b : UInt8) : PDBResult Status :=
  if b = 0x00 then .ok .ok
  else if b = 0x01 then .ok .notFound
  else if b = 0x02 then .ok .typeError
  else if b = 0x03 then .ok .serverError
  else if b = 0x04 then .ok .invalidRequest
  else if b = 0x05 then .ok .keys
  else failWith (.unknownCommand b)

/-- `From<Status> for u8`. -/
def Status.toByte : Status → UInt8
  | .ok => 0x00
  | .notFound => 0x01
  | .typeError => 0x02
  | .serverError => 0x03
  | .invalidRequest => 0x04
  | .keys => 0x05

/-- `Response`. -/
inductive Response
  | ok (field : Option Field)
  | notFound
  | typeError
  | serverError (msg : String)
  | invalidRequest
  | keys (keys : List Key)
  deriving DecidableEq

/-- `ProtocolEncoder`. -/
structure ProtocolEncoder where
  /-- What has been encoded. -/
  buffer : Bytes

namespace ProtocolEncoder

/-- `ProtocolEncoder::new`. -/
def new : ProtocolEncoder := ⟨[]⟩

/-- Bytes at the end of the buffer. -/
def write (enc : ProtocolEncoder) (bytes : Bytes) : ProtocolEncoder := ⟨enc.buffer ++ bytes⟩

/-- `encode_u8`. -/
def encodeU8 (enc : ProtocolEncoder) (val : UInt8) : ProtocolEncoder := enc.write [val]

/-- `encode_u16_be`. -/
def encodeU16Be (enc : ProtocolEncoder) (val : UInt16) : ProtocolEncoder := enc.write (beU16 val)

/-- `encode_u32_be`. -/
def encodeU32Be (enc : ProtocolEncoder) (val : UInt32) : ProtocolEncoder := enc.write (beU32 val)

/-- The length is cut to 16 bits. -/
def encodeKey (enc : ProtocolEncoder) (key : Key) : ProtocolEncoder :=
  (enc.encodeU16Be (UInt16.ofNat key.len)).write key.asBytes

/-- The length is cut to 32 bits. -/
def encodeField (enc : ProtocolEncoder) (field : Field) : ProtocolEncoder :=
  let bytes := bytesFromField field
  (enc.encodeU32Be (UInt32.ofNat bytes.length)).write bytes

/-- `encode_request`; the first byte is the version. -/
def encodeRequest (enc : ProtocolEncoder) (req : Request) : ProtocolEncoder :=
  let enc := enc.encodeU8 0x01
  match req with
  | .ping => enc.encodeU8 Command.ping.toByte
  | .keys => enc.encodeU8 Command.keys.toByte
  | .get key => (enc.encodeU8 Command.get.toByte).encodeKey key
  | .del key => (enc.encodeU8 Command.del.toByte).encodeKey key
  | .set key field => ((enc.encodeU8 Command.set.toByte).encodeKey key).encodeField field

/-- `encode_response`. -/
def encodeResponse (enc : ProtocolEncoder) : Response → ProtocolEncoder
  | .ok none => (enc.encodeU8 Status.ok.toByte).encodeU32Be 0
  | .ok (some field) =>
    let bytes := bytesFromField field
    ((enc.encodeU8 Status.ok.toByte).encodeU32Be (UInt32.ofNat bytes.length)).write bytes
  | .notFound => (enc.encodeU8 Status.notFound.toByte).encodeU32Be 0
  | .typeError => (enc.encodeU8 Status.typeError.toByte).encodeU32Be 0
  | .invalidRequest => (enc.encodeU8 Status.invalidRequest.toByte).encodeU32Be 0
  | .serverError msg =>
    let msgBytes := stringBytes msg
    ((enc.encodeU8 Status.serverError.toByte).encodeU32Be (UInt32.ofNat msgBytes.length)).write
      msgBytes
  | .keys keys =>
    let payload := keys.flatMap fun key => beU16 (UInt16.ofNat key.len) ++ key.asBytes
    ((enc.encodeU8 Status.keys.toByte).encodeU32Be (UInt32.ofNat payload.length)).write payload

/-- `ProtocolEncoder::finish`. -/
def finish (enc : ProtocolEncoder) : Bytes := enc.buffer

/-- The message behind its length; the length is cut to 32 bits. -/
def frame (enc : ProtocolEncoder) : Bytes :=
  let msgLen := UInt32.ofNat enc.buffer.length
  beU32 msgLen ++ enc.buffer

end ProtocolEncoder

/-- `ProtocolDecoder`. -/
structure ProtocolDecoder where
  /-- The message that is decoded. -/
  cursor : Cursor

namespace ProtocolDecoder

/-- `ProtocolDecoder::new`. -/
def new (bytes : Bytes) : ProtocolDecoder := ⟨⟨bytes, 0⟩⟩

/-- `read_u8`. -/
def readU8 (d : ProtocolDecoder) : PDBResult (UInt8 × ProtocolDecoder) := do
  let (bytes, cursor) ← readExact d.cursor 1
  .ok (bytes.headD 0, ⟨cursor⟩)

/-- `read_u16_be`. -/
def readU16Be (d : ProtocolDecoder) : PDBResult (UInt16 × ProtocolDecoder) := do
  let (bytes, cursor) ← readExact d.cursor 2
  .ok (fromBeU16 bytes, ⟨cursor⟩)

/-- `read_u32_be`. -/
def readU32Be (d : ProtocolDecoder) : PDBResult (UInt32 × ProtocolDecoder) := do
  let (bytes, cursor) ← readExact d.cursor 4
  .ok (fromBeU32 bytes, ⟨cursor⟩)

/-- `read_key`. -/
def readKey (d : ProtocolDecoder) : PDBResult (Key × ProtocolDecoder) := do
  let (len, d) ← d.readU16Be
  let (buf, cursor) ← readExact d.cursor len.toNat
  .ok (⟨buf⟩, ⟨cursor⟩)

/-- `read_field`. -/
def readField (d : ProtocolDecoder) : PDBResult (Field × ProtocolDecoder) := do
  let (len, d) ← d.readU32Be
  let (buf, cursor) ← readExact d.cursor len.toNat
  let (field, _) ← fieldFromBytes buf
  .ok (field, ⟨cursor⟩)

/-- `decode_request`; bytes behind the request are ignored. -/
def decodeRequest (d : ProtocolDecoder) : PDBResult Request := do
  let (version, d) ← d.readU8
  if version ≠ 0x01 then failWith (.invalidRequestFormat .invalidVersion)
  else
    let (cmd, d) ← d.readU8
    match ← Command.tryFrom cmd with
    | .ping => .ok .ping
    | .keys => .ok .keys
    | .get => do
      let (key, _) ← d.readKey
      .ok (.get key)
    | .del => do
      let (key, _) ← d.readKey
      .ok (.del key)
    | .set => do
      let (key, d) ← d.readKey
      let (field, _) ← d.readField
      .ok (.set key field)

/-- One round of the loop over the payload of a `Keys` response. -/
def pushKey (s : ProtocolDecoder × List Key) : PDBResult (ProtocolDecoder × List Key) := do
  let (key, d) ← s.1.readKey
  .ok (d, s.2 ++ [key])

/-- The loop over the payload runs while bytes remain. -/
def moreKeys (s : ProtocolDecoder × List Key) : Bool := s.1.cursor.pos < s.1.cursor.buf.length

/-- `decode_response`. -/
def decodeResponse (d : ProtocolDecoder) : PDBResult Response := do
  let (byte, d) ← d.readU8
  let status ← Status.tryFrom byte
  let (payloadLen, d) ← d.readU32Be
  let (payload, _) ← readExact d.cursor payloadLen.toNat
  match status with
  | .ok =>
    if payload = [] then .ok (.ok none)
    else do
      let (field, _) ← fieldFromBytes payload
      .ok (.ok (some field))
  | .notFound => .ok .notFound
  | .typeError => .ok .typeError
  | .invalidRequest => .ok .invalidRequest
  | .serverError =>
    match String.fromUTF8? payload.toByteArray with
    | some msg => .ok (.serverError msg)
    | none => failWith (.invalidRequestFormat (.invalidUtf8Message payload))
  | .keys => do
    let (_, keys) ← loop moreKeys pushKey (payload.length + 1) (new payload, [])
    .ok (.keys keys)

/-- A byte is read when it is there. -/
theorem readU8_eq_ok_iff {d t : ProtocolDecoder} {b : UInt8} : d.readU8 = .ok (b, t) ↔
    ∃ ys, d.cursor.rest = b :: ys ∧ t = ⟨d.cursor.advance 1⟩ := by
  rw [readU8, readBytes_eq_ok_iff fun bytes cursor =>
    (bytes.headD 0, (⟨cursor⟩ : ProtocolDecoder))]
  constructor
  · rintro ⟨xs, ys, hlen, hrest, hout⟩
    obtain ⟨x, rfl⟩ := List.length_eq_one_iff.mp hlen
    cases hout
    exact ⟨ys, hrest, rfl⟩
  · rintro ⟨ys, hrest, rfl⟩
    exact ⟨[b], ys, rfl, hrest, rfl⟩

/-- A length of 16 bits is read when its bytes are there. -/
theorem readU16Be_eq_ok_iff {d t : ProtocolDecoder} {n : UInt16} : d.readU16Be = .ok (n, t) ↔
    ∃ ys, d.cursor.rest = beU16 n ++ ys ∧ t = ⟨d.cursor.advance 2⟩ := by
  rw [readU16Be, readBytes_eq_ok_iff fun bytes cursor =>
    (fromBeU16 bytes, (⟨cursor⟩ : ProtocolDecoder))]
  constructor
  · rintro ⟨xs, ys, hlen, hrest, hout⟩
    cases hout
    exact ⟨ys, by rw [beU16_fromBeU16 hlen, hrest], rfl⟩
  · rintro ⟨ys, hrest, rfl⟩
    exact ⟨beU16 n, ys, length_beU16 n, hrest, by rw [fromBeU16_beU16]⟩

/-- A length of 32 bits is read when its bytes are there. -/
theorem readU32Be_eq_ok_iff {d t : ProtocolDecoder} {n : UInt32} : d.readU32Be = .ok (n, t) ↔
    ∃ ys, d.cursor.rest = beU32 n ++ ys ∧ t = ⟨d.cursor.advance 4⟩ := by
  rw [readU32Be, readBytes_eq_ok_iff fun bytes cursor =>
    (fromBeU32 bytes, (⟨cursor⟩ : ProtocolDecoder))]
  constructor
  · rintro ⟨xs, ys, hlen, hrest, hout⟩
    cases hout
    exact ⟨ys, by rw [beU32_fromBeU32 hlen, hrest], rfl⟩
  · rintro ⟨ys, hrest, rfl⟩
    exact ⟨beU32 n, ys, length_beU32 n, hrest, by rw [fromBeU32_beU32]⟩

/-- A key is read exactly when a whole one stands behind its length. -/
theorem readKey_eq_ok_iff {d t : ProtocolDecoder} {key : Key} : d.readKey = .ok (key, t) ↔
    key.Encodable ∧ ∃ ys, d.cursor.rest = beU16 (UInt16.ofNat key.len) ++
      (key.asBytes ++ ys) ∧
      t = ⟨d.cursor.advance (2 + key.len)⟩ := by
  rw [readKey, bind_eq_ok_iff]
  constructor
  · rintro ⟨⟨n, d'⟩, hlen, h⟩
    obtain ⟨ys, hrest, rfl⟩ := readU16Be_eq_ok_iff.mp hlen
    obtain ⟨⟨buf, cursor⟩, hread, h⟩ := bind_eq_ok_iff.mp h
    cases h
    obtain ⟨hbuf, rfl, zs, hys⟩ := readExact_eq_ok_iff.mp hread
    rw [Cursor.rest_advance_of_append hrest (length_beU16 n)] at hys
    refine ⟨hbuf.trans_lt n.toNat_lt, zs, ?_, ?_⟩
    · rw [hrest, hys, Key.len, hbuf, UInt16.ofNat_toNat]
    · rw [Cursor.advance_advance, Key.len, hbuf]
  · rintro ⟨hkey, ys, hrest, rfl⟩
    have hn : (UInt16.ofNat key.len).toNat = key.len := by
      rw [UInt16.toNat_ofNat_of_lt' hkey]
    refine ⟨_, readU16Be_eq_ok_iff.mpr ⟨_, hrest, rfl⟩, bind_eq_ok_iff.mpr
      ⟨(key.asBytes, d.cursor.advance (2 + key.len)), readExact_eq_ok_iff.mpr ⟨hn.symm, ?_, ys,
        ?_⟩, rfl⟩⟩
    · rw [Cursor.advance_advance, hn]
    · exact Cursor.rest_advance_of_append hrest (length_beU16 _)

variable {Q : Abort → Prop}

/-- Reading a key returns. -/
theorem readKey_not_ends (hQ : ∀ x, ¬ Q (.err x)) (d : ProtocolDecoder) :
    ¬ Ends Q d.readKey := by
  intro h
  rcases bind_ends_iff.mp h with h | ⟨out, -, h⟩
  · rcases bind_ends_iff.mp h with h | ⟨out, -, h⟩
    · exact readExact_not_ends hQ _ _ h
    · exact not_ends_ok _ h
  · rcases bind_ends_iff.mp h with h | ⟨out, -, h⟩
    · exact readExact_not_ends hQ _ _ h
    · exact not_ends_ok _ h

/-- Field bytes that stand whole behind their length. -/
def FieldAt (c : Cursor) (bytes : Bytes) : Prop :=
  bytes.length < 2 ^ 32 ∧ ∃ ys, c.rest = beU32 (UInt32.ofNat bytes.length) ++ (bytes ++ ys)

/-- The bytes of a field are read when they stand whole behind their length. -/
theorem fieldAt_iff {c : Cursor} {bytes : Bytes} : FieldAt c bytes ↔
    ∃ n d, (⟨c⟩ : ProtocolDecoder).readU32Be = .ok (n, d) ∧
      readExact d.cursor n.toNat = .ok (bytes, c.advance (4 + bytes.length)) := by
  constructor
  · rintro ⟨hlen, ys, hrest⟩
    have hn : (UInt32.ofNat bytes.length).toNat = bytes.length := by
      rw [UInt32.toNat_ofNat_of_lt' hlen]
    refine ⟨_, _, readU32Be_eq_ok_iff.mpr ⟨_, hrest, rfl⟩,
      readExact_eq_ok_iff.mpr ⟨hn.symm, ?_, ys, ?_⟩⟩
    · rw [Cursor.advance_advance, hn]
    · exact Cursor.rest_advance_of_append hrest (length_beU32 _)
  · rintro ⟨n, d, hn, hread⟩
    obtain ⟨ys, hrest, rfl⟩ := readU32Be_eq_ok_iff.mp hn
    obtain ⟨hlen, -, zs, hys⟩ := readExact_eq_ok_iff.mp hread
    rw [Cursor.rest_advance_of_append hrest (length_beU32 n)] at hys
    exact ⟨hlen.trans_lt n.toNat_lt, zs, by rw [hrest, hys, hlen, UInt32.ofNat_toNat]⟩

/-- A field is read exactly when its bytes are there and decode. -/
theorem readField_eq_ok_iff {d t : ProtocolDecoder} {field : Field} :
    d.readField = .ok (field, t) ↔
    ∃ bytes used, FieldAt d.cursor bytes ∧ fieldFromBytes bytes = .ok (field, used) ∧
      t = ⟨d.cursor.advance (4 + bytes.length)⟩ := by
  rw [readField, bind_eq_ok_iff]
  constructor
  · rintro ⟨⟨n, d'⟩, hn, h⟩
    obtain ⟨⟨bytes, cursor⟩, hread, h⟩ := bind_eq_ok_iff.mp h
    obtain ⟨⟨f, used⟩, hfield, h⟩ := bind_eq_ok_iff.mp h
    cases h
    obtain ⟨ys, hrest, rfl⟩ := readU32Be_eq_ok_iff.mp hn
    obtain ⟨hlen, rfl, -⟩ := readExact_eq_ok_iff.mp hread
    rw [← hlen, Cursor.advance_advance] at hread
    refine ⟨bytes, used, fieldAt_iff.mpr ⟨n, _, hn, ?_⟩, hfield, ?_⟩
    · rw [← hlen]
      exact hread
    · rw [Cursor.advance_advance, hlen]
  · rintro ⟨bytes, used, hbytes, hfield, rfl⟩
    obtain ⟨n, d', hn, hread⟩ := fieldAt_iff.mp hbytes
    exact ⟨_, hn, bind_eq_ok_iff.mpr ⟨_, hread, bind_eq_ok_iff.mpr ⟨_, hfield, rfl⟩⟩⟩

/-- Reading a field does not return exactly when its bytes are there and are
not decoded to a result. -/
theorem readField_ends_iff (hQ : ∀ x, ¬ Q (.err x)) {d : ProtocolDecoder} :
    Ends Q d.readField ↔
    ∃ bytes, FieldAt d.cursor bytes ∧ Ends Q (fieldFromBytes bytes) := by
  rw [readField, bind_ends_iff]
  constructor
  · rintro (h | ⟨⟨n, d'⟩, hn, h⟩)
    · rcases bind_ends_iff.mp h with h | ⟨out, -, h⟩
      · exact absurd h (readExact_not_ends hQ _ _)
      · exact absurd h (not_ends_ok _)
    · rcases bind_ends_iff.mp h with h | ⟨⟨bytes, cursor⟩, hread, h⟩
      · exact absurd h (readExact_not_ends hQ _ _)
      · rcases bind_ends_iff.mp h with hfield | ⟨out, -, h⟩
        · obtain ⟨ys, hrest, rfl⟩ := readU32Be_eq_ok_iff.mp hn
          obtain ⟨hlen, rfl, -⟩ := readExact_eq_ok_iff.mp hread
          refine ⟨bytes, fieldAt_iff.mpr ⟨n, _, hn, ?_⟩, hfield⟩
          rw [Cursor.advance_advance] at hread
          rw [hlen]
          exact hread
        · exact absurd h (not_ends_ok _)
  · rintro ⟨bytes, hbytes, hfield⟩
    obtain ⟨n, d', hn, hread⟩ := fieldAt_iff.mp hbytes
    exact .inr ⟨_, hn, bind_ends_iff.mpr (.inr ⟨_, hread, bind_ends_iff.mpr (.inl hfield)⟩)⟩

/-- The head of a `Set` request and what follows it. -/
theorem decodeRequest_set_head (rest : Bytes) :
    (new (0x01 :: Command.set.toByte :: rest)).decodeRequest = (do
      let (key, d) ← (⟨⟨0x01 :: Command.set.toByte :: rest, 2⟩⟩ : ProtocolDecoder).readKey
      let (field, _) ← d.readField
      .ok (.set key field)) :=
  rfl

/-- Reading a byte returns. -/
theorem readU8_not_ends (hQ : ∀ x, ¬ Q (.err x)) (d : ProtocolDecoder) : ¬ Ends Q d.readU8 := by
  intro h
  rcases bind_ends_iff.mp h with h | ⟨out, -, h⟩
  · exact readExact_not_ends hQ _ _ h
  · exact not_ends_ok _ h

/-- A command has one byte. -/
theorem commandTryFrom_eq_ok {b : UInt8} {c : Command} (h : Command.tryFrom b = .ok c) :
    b = c.toByte := by
  rw [Command.tryFrom] at h
  repeat' split at h
  all_goals cases h
  all_goals assumption

/-- An unknown command is an error that is returned. -/
theorem commandTryFrom_not_ends (hQ : ∀ x, ¬ Q (.err x)) (b : UInt8) :
    ¬ Ends Q (Command.tryFrom b) := by
  rw [Command.tryFrom]
  repeat' split
  all_goals first | exact not_ends_ok _ | exact fun h => hQ _ (ends_error_iff.mp h)

/-- A result that is returned and is no `Set` request. -/
def NoSet (Q : Abort → Prop) (r : PDBResult Request) : Prop :=
  ¬ Ends Q r ∧ ∀ key field, r ≠ .ok (.set key field)

/-- A call that returns, and behind it no `Set` request. -/
theorem NoSet.bind {α : Type} {x : PDBResult α} {f : α → PDBResult Request} (hx : ¬ Ends Q x)
    (hf : ∀ a, x = .ok a → NoSet Q (f a)) : NoSet Q (x >>= f) := by
  constructor
  · intro h
    rcases bind_ends_iff.mp h with h | ⟨a, ha, h⟩
    · exact hx h
    · exact (hf a ha).1 h
  · intro key field h
    obtain ⟨a, ha, h⟩ := bind_eq_ok_iff.mp h
    exact (hf a ha).2 key field h

/-- A request with another head is read without a look at a field. -/
theorem decodeRequest_other (hQ : ∀ x, ¬ Q (.err x)) {body : Bytes}
    (h : ∀ rest, body ≠ 0x01 :: Command.set.toByte :: rest) :
    NoSet Q (new body).decodeRequest := by
  have hrefused : ∀ e : PeachDbError, NoSet Q (failWith e) := fun e =>
    ⟨fun h => hQ e (ends_error_iff.mp h), by simp⟩
  have hread : ∀ req : Request, (∀ key field, req ≠ .set key field) → NoSet Q (.ok req) :=
    fun req hreq =>
    ⟨not_ends_ok req, fun key field heq => hreq key field (Except.ok.inj heq)⟩
  apply NoSet.bind (readU8_not_ends hQ _)
  rintro ⟨version, d⟩ hversion
  obtain ⟨ys, hbody, rfl⟩ := readU8_eq_ok_iff.mp hversion
  dsimp only
  split
  · exact hrefused _
  · next hone =>
    rw [not_not] at hone
    apply NoSet.bind (readU8_not_ends hQ _)
    rintro ⟨cmd, d⟩ hcmd
    obtain ⟨zs, hrest, rfl⟩ := readU8_eq_ok_iff.mp hcmd
    rw [Cursor.rest_advance, hbody, List.drop_one, List.tail_cons] at hrest
    apply NoSet.bind (commandTryFrom_not_ends hQ cmd)
    intro c hc
    cases c with
    | ping => exact hread _ (by simp)
    | keys => exact hread _ (by simp)
    | get => exact NoSet.bind (readKey_not_ends hQ _) fun out _ => hread _ (by simp)
    | del => exact NoSet.bind (readKey_not_ends hQ _) fun out _ => hread _ (by simp)
    | set =>
      have hhead : body = 0x01 :: Command.set.toByte :: zs := by
        rw [← hone, ← commandTryFrom_eq_ok hc, ← hrest]
        exact hbody
      exact absurd hhead (h zs)

/-- A `Set` request up to the end of its field. -/
def setMessage (p : Parts) : Bytes :=
  [0x01, Command.set.toByte] ++ (beU16 p.keyLen ++ (p.key.asBytes ++ (beU32 p.fieldLen ++ p.field)))

/-- A key and the bytes of a field stand behind the head of a request. -/
theorem exists_parts_iff {body : Bytes} {P : Parts → Prop} :
    (∃ p ys, body = setMessage p ++ ys ∧ P p) ↔
      ∃ rest, body = 0x01 :: Command.set.toByte :: rest ∧
      ∃ key d bytes, (⟨⟨body, 2⟩⟩ : ProtocolDecoder).readKey = .ok (key, d) ∧
      FieldAt d.cursor bytes ∧
        ∃ (hkey : key.Encodable) (hfield : bytes.length < 2 ^ 32), P ⟨key, bytes, hkey,
          hfield⟩ := by
  constructor
  · rintro ⟨p, ys, rfl, hp⟩
    have hrest : (⟨setMessage p ++ ys, 2⟩ : Cursor).rest =
        beU16 (UInt16.ofNat p.key.len) ++
          (p.key.asBytes ++ (beU32 p.fieldLen ++ (p.field ++ ys))) := by
      simp [setMessage, Cursor.rest, Parts.keyLen]
    refine ⟨_, rfl, p.key, _, p.field, readKey_eq_ok_iff.mpr ⟨p.key_lt, _, hrest, rfl⟩,
      ⟨p.field_lt, ys, ?_⟩, p.key_lt, p.field_lt, hp⟩
    rw [← List.append_assoc] at hrest
    exact Cursor.rest_advance_of_append hrest (by simp [Key.len])
  · rintro ⟨rest, rfl, key, d, bytes, hread, ⟨-, ys, hys⟩, hkey, hfield, hp⟩
    obtain ⟨-, zs, hrest, rfl⟩ := readKey_eq_ok_iff.mp hread
    rw [← List.append_assoc] at hrest
    have hsplit : rest = (beU16 (UInt16.ofNat key.len) ++ key.asBytes) ++ zs := hrest
    have hzs : zs = beU32 (UInt32.ofNat bytes.length) ++ (bytes ++ ys) := by
      rw [← hys]
      exact (Cursor.rest_advance_of_append hrest (by simp [Key.len])).symm
    refine ⟨⟨key, bytes, hkey, hfield⟩, ys, ?_, hp⟩
    rw [hsplit, hzs]
    simp [setMessage, Parts.keyLen, Parts.fieldLen]

/-- A body is accepted as a `Set` request exactly when it starts with one whose
field bytes decode. -/
theorem decodeRequest_eq_set_iff {body : Bytes} {key : Key} {field : Field} :
    (new body).decodeRequest = .ok (.set key field) ↔
      ∃ p ys, body = setMessage p ++ ys ∧ p.key = key ∧
      ∃ used, fieldFromBytes p.field = .ok (field, used) := by
  rw [exists_parts_iff]
  by_cases hhead : ∃ rest, body = 0x01 :: Command.set.toByte :: rest
  · obtain ⟨rest, rfl⟩ := hhead
    rw [decodeRequest_set_head, bind_eq_ok_iff]
    constructor
    · rintro ⟨⟨k, d⟩, hk, h⟩
      obtain ⟨⟨f, d'⟩, hf, h⟩ := bind_eq_ok_iff.mp h
      cases h
      obtain ⟨bytes, used, hbytes, hdecode, -⟩ := readField_eq_ok_iff.mp hf
      exact ⟨rest, rfl, key, d, bytes, hk, hbytes, (readKey_eq_ok_iff.mp hk).1, hbytes.1, rfl,
        used, hdecode⟩
    · rintro ⟨-, -, k, d, bytes, hk, hbytes, hkey, hfield, rfl, used, hdecode⟩
      exact ⟨_, hk,
        bind_eq_ok_iff.mpr ⟨_, readField_eq_ok_iff.mpr ⟨bytes, used, hbytes, hdecode, rfl⟩,
          rfl⟩⟩
  · rw [not_exists] at hhead
    exact iff_of_false ((decodeRequest_other (Q := fun _ => False) (fun _ => id) hhead).2 key field)
      fun ⟨rest, hbody, _⟩ => hhead rest hbody

/-- Decoding a request does not return exactly on a `Set` request whose field
bytes are not decoded to a result. -/
theorem decodeRequest_ends_iff (hQ : ∀ x, ¬ Q (.err x)) {body : Bytes} :
    Ends Q (new body).decodeRequest ↔
    ∃ p ys, body = setMessage p ++ ys ∧ Ends Q (fieldFromBytes p.field) := by
  rw [exists_parts_iff]
  by_cases hhead : ∃ rest, body = 0x01 :: Command.set.toByte :: rest
  · obtain ⟨rest, rfl⟩ := hhead
    rw [decodeRequest_set_head, bind_ends_iff]
    constructor
    · rintro (h | ⟨⟨k, d⟩, hk, h⟩)
      · exact absurd h (readKey_not_ends hQ _)
      · rcases bind_ends_iff.mp h with h | ⟨out, -, h⟩
        · obtain ⟨bytes, hbytes, hfield⟩ := (readField_ends_iff hQ).mp h
          exact ⟨rest, rfl, k, d, bytes, hk, hbytes, (readKey_eq_ok_iff.mp hk).1, hbytes.1, hfield⟩
        · exact absurd h (not_ends_ok _)
    · rintro ⟨-, -, k, d, bytes, hk, hbytes, hkey, hlength, hfield⟩
      exact .inr ⟨_, hk,
        bind_ends_iff.mpr (.inl ((readField_ends_iff hQ).mpr ⟨bytes, hbytes, hfield⟩))⟩
  · rw [not_exists] at hhead
    exact iff_of_false (decodeRequest_other hQ hhead).1 fun ⟨rest, hbody, _⟩ => hhead rest hbody

end ProtocolDecoder

end PeachDB.Protocol
