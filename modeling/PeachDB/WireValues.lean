import PeachDB.DataFileDecoding
import PeachDB.Protocol
import PeachDB.WriteAheadLog

/-!
# Values that come in over the wire

What the request decoder returns can be encoded: the fields it accepts are in
the image of the field decoder, and their lengths were measured on the wire.
Hence a client cannot store a key or a field that the log, the data file or
the protocol itself would cut.
-/

namespace PeachDB

open LittleEndian Dtypes RecordCodec WriteAheadLog Protocol

/-- A map with one entry is iterated in one order. -/
theorem iterOrder_insert_empty {K V : Type*} [DecidableEq K] {k : K} {v : V} {l : List (K × V)}
    (h : IterOrder ((∅ : HashMap K V).insert k v) l) : l = [(k, v)] := by
  have hmem (x : K × V) : x ∈ l ↔ x = (k, v) := by
    rw [h.mem_iff, lookup_insert_eq]
    split
    · next hk => simp [Prod.ext_iff, hk, eq_comm]
    · next hk => simp [Prod.ext_iff, hk]
  have hnodup := h.nodup
  cases l with
  | nil => exact absurd ((hmem (k, v)).mpr rfl) (by simp)
  | cons x rest =>
    obtain rfl := (hmem x).mp (by simp)
    cases rest with
    | nil => rfl
    | cons y rest =>
      obtain rfl := (hmem y).mp (by simp)
      simp at hnodup

/-- The bytes of a live record are decoded to its key and its value. -/
theorem decode_record [Crc] {iter : HashMap Key Field → List (Key × Field)}
    (hiter : ∀ m, IterOrder m (iter m)) {r : Record} {value : Field}
    (hvalue : r.value? = some value) :
    decode iter r.bytes = .ok (r.parts.key, value) := by
  have hrest : (DBDecoder.new r.bytes).cursor.rest = r.bytes ++ [] := (List.append_nil _).symm
  have hread := DBDecoder.decodeDbKeyFieldPair_eq_ok_iff.mpr ⟨_, _, hrest, rfl⟩
  have hdb : ((DBDecoder.new r.bytes).after r).db = (∅ : HashMap Key Field).insert r.parts.key
      value := by
    rw [DBDecoder.after, hvalue]
    rfl
  have horder := iterOrder_insert_empty (hiter ((∅ : HashMap Key Field).insert r.parts.key value))
  simp only [decode, hread, ok_bind, hdb, horder]

/-- A record that can be encoded is decoded to its key and its field. -/
theorem decode_encode [Crc] {iter : HashMap Key Field → List (Key × Field)}
    (hiter : ∀ m, IterOrder m (iter m)) {key : Key} {field : Field} (hkey : key.Encodable)
    (hfield : field.Encodable) : decode iter (encode key field) = .ok (key, field) := by
  rw [← Record.bytes_ofPair key field hkey hfield]
  exact decode_record hiter rfl

namespace Protocol

/-- The bytes of an encoded `Set` request. -/
theorem encodeRequest_set_finish (key : Key) (field : Field) (hkey : key.Encodable)
    (hfield : field.Encodable) : (ProtocolEncoder.new.encodeRequest (.set key field)).finish =
      ProtocolDecoder.setMessage ⟨key, bytesFromField field, hkey, hfield.2⟩ := by
  simp [ProtocolEncoder.encodeRequest, ProtocolEncoder.encodeKey, ProtocolEncoder.encodeField,
    ProtocolEncoder.encodeU8, ProtocolEncoder.encodeU16Be, ProtocolEncoder.encodeU32Be,
    ProtocolEncoder.write, ProtocolEncoder.new, ProtocolEncoder.finish, ProtocolDecoder.setMessage,
    Parts.keyLen, Parts.fieldLen]

/-- The length of a request to set a field. -/
theorem length_setMessage (p : Parts) :
    (ProtocolDecoder.setMessage p).length = 8 + p.key.len + p.field.length := by
  simp only [ProtocolDecoder.setMessage, List.length_append, List.length_cons, List.length_nil,
    length_beU16, length_beU32, Key.len]
  omega

/-- A `Set` request that is decoded from a body can be encoded, and its field
is no longer than the field bytes of the body. -/
theorem encodable_of_decodeRequest {body : Bytes} {key : Key} {field : Field}
    (h : (ProtocolDecoder.new body).decodeRequest = .ok (.set key field)) :
    key.Encodable ∧ field.Encodable ∧
      8 + key.len + (bytesFromField field).length ≤ body.length := by
  obtain ⟨p, ys, rfl, rfl, used, hdecode⟩ := ProtocolDecoder.decodeRequest_eq_set_iff.mp h
  obtain ⟨-, hused, hinside⟩ := fieldFromBytes_eq_ok hdecode
  refine ⟨p.key_lt, encodable_of_fieldFromBytes hdecode p.field_lt, ?_⟩
  rw [List.length_append, length_setMessage]
  omega

/-- Every key and field that the protocol decoder accepts is recovered from
the log, from a record of the data file and from the protocol encoding, which
is no longer than the body it came in. None of the lengths that the three
encoders write for it is cut. -/
theorem wire_value_survives [Crc] {body : Bytes} {key : Key} {field : Field}
    (hdecode : (ProtocolDecoder.new body).decodeRequest = .ok (.set key field)) :
    (Wal.open (walBytes (.set key field)) = .ok ⟨walBytes (.set key field),
      [.set key field]⟩) ∧
    (∀ iter : HashMap Key Field → List (Key × Field), (∀ m, IterOrder m (iter m)) →
      decode iter (encode key field) = .ok (key, field)) ∧
    ((ProtocolEncoder.new.encodeRequest (.set key field)).finish.length ≤ body.length ∧
      (ProtocolDecoder.new
        (ProtocolEncoder.new.encodeRequest (.set key field)).finish).decodeRequest =
        .ok (.set key field)) ∧
    key.len < 2 ^ 16 ∧ ∀ n ∈ (bytesFromField field).length :: field.lengths, n < 2 ^ 32 := by
  obtain ⟨hkey, hfield, hbody⟩ := encodable_of_decodeRequest hdecode
  have hentry : (WalEntry.set key field).Encodable := by
    refine ⟨hkey, ?_⟩
    intro f hf
    cases hf
    exact hfield
  refine ⟨?_, fun iter hiter => decode_encode hiter hkey hfield, ⟨?_, ?_⟩, hkey, ?_⟩
  · have hentries : ∀ e ∈ [WalEntry.set key field], e.Encodable := by simpa using hentry
    have hopen := open_flatMap hentries
    simpa using hopen
  · rw [encodeRequest_set_finish key field hkey hfield, length_setMessage]
    exact hbody
  · rw [encodeRequest_set_finish key field hkey hfield, ProtocolDecoder.decodeRequest_eq_set_iff]
    exact ⟨_, [], (List.append_nil _).symm, rfl, _, fieldFromBytes_bytesFromField hfield⟩
  · intro n hn
    rcases List.mem_cons.mp hn with rfl | hn
    · exact hfield.2
    · exact (length_le_of_mem_lengths hn).trans_lt hfield.2

end Protocol

open scoped IsoHdlc

/-- A request with a boolean that is not in canonical form and a byte behind
its end. -/
theorem Protocol.wire_value_survives_noncanonical :
    let body : Bytes := [0x01, 0x03, 0x00, 0x01, 0x6B, 0x00, 0x00, 0x00, 0x02, 0x04, 0x07, 0xFF]
    let field : Field := .primitive (.boolean true)
    (ProtocolDecoder.new body).decodeRequest = .ok (.set ⟨[0x6B]⟩ field) ∧
      Wal.open (walBytes (.set ⟨[0x6B]⟩ field)) =
        .ok ⟨walBytes (.set ⟨[0x6B]⟩ field), [.set ⟨[0x6B]⟩ field]⟩ ∧
      (ProtocolEncoder.new.encodeRequest (.set ⟨[0x6B]⟩ field)).finish.length ≤
        body.length := by
  intro body field
  have hdecode : (ProtocolDecoder.new body).decodeRequest = .ok (.set ⟨[0x6B]⟩ field) := by
    decide +kernel
  have hsurvives := Protocol.wire_value_survives hdecode
  exact ⟨hdecode, hsurvives.1, hsurvives.2.2.1.1⟩

end PeachDB
