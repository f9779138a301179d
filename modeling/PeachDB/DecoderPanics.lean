import PeachDB.ConnectionLoop

/-!
# Panics of the decoders

The decoders of requests, responses, logs and data files panic exactly when
they reach field bytes in which a boolean or a string is declared past their
end, and the process aborts in them exactly when they reach an array that
declares more elements than the allocator grants room for. A request that is
refused otherwise is answered, and the connection reads on.
-/

namespace PeachDB

open LittleEndian Dtypes RecordCodec FileHandler WriteAheadLog Interleaving Db Protocol
  ProtocolDecoder Server

namespace Protocol

/-- A status has one byte. -/
theorem statusTryFrom_eq_ok {b : UInt8} {s : Status} (h : Status.tryFrom b = .ok s) :
    b = s.toByte := by
  unfold Status.tryFrom at h
  split_ifs at h with h₀ h₁ h₂ h₃ h₄ h₅ <;> cases h <;> assumption

variable {Q : Abort → Prop}

/-- An unknown status is an error that is returned. -/
theorem statusTryFrom_not_ends (hQ : ∀ x, ¬ Q (.err x)) (b : UInt8) :
    ¬ Ends Q (Status.tryFrom b) := by
  rw [Status.tryFrom]
  repeat' split
  all_goals first | exact not_ends_ok _ | exact fun h => hQ _ (ends_error_iff.mp h)

namespace ProtocolDecoder

/-- Reading a length returns. -/
theorem readU32Be_not_ends (hQ : ∀ x, ¬ Q (.err x)) (d : ProtocolDecoder) :
    ¬ Ends Q d.readU32Be := by
  intro h
  rcases bind_ends_iff.mp h with h | ⟨out, -, h⟩
  · exact readExact_not_ends hQ _ _ h
  · exact not_ends_ok _ h

/-- Reading the keys of a payload returns. -/
theorem pushKey_not_ends (hQ : ∀ x, ¬ Q (.err x)) (s : ProtocolDecoder × List Key) :
    ¬ Ends Q (pushKey s) := by
  intro h
  rcases bind_ends_iff.mp h with h | ⟨out, -, h⟩
  · exact readKey_not_ends hQ _ h
  · exact not_ends_ok _ h

/-- A response of which the payload is decoded as a field is the `Ok` one. -/
theorem decodeResponse_ends (hQ : ∀ x, ¬ Q (.err x)) {bytes : Bytes}
    (h : Ends Q (new bytes).decodeResponse) :
    ∃ payload ys, payload.length < 2 ^ 32 ∧
      bytes = Status.ok.toByte :: (beU32 (UInt32.ofNat payload.length) ++ (payload ++ ys)) ∧
      Ends Q (fieldFromBytes payload) := by
  have hstart : (new bytes).cursor.rest = bytes := rfl
  have hrefused : ∀ e : PeachDbError, ¬ Ends Q (failWith e : PDBResult Response) := fun e h =>
    hQ e (ends_error_iff.mp h)
  rcases bind_ends_iff.mp h with h | ⟨⟨byte, d⟩, hbyte, h⟩
  · exact absurd h (readU8_not_ends hQ _)
  obtain ⟨ys, hrest, rfl⟩ := readU8_eq_ok_iff.mp hbyte
  rcases bind_ends_iff.mp h with h | ⟨status, hstatus, h⟩
  · exact absurd h (statusTryFrom_not_ends hQ _)
  rcases bind_ends_iff.mp h with h | ⟨⟨n, d'⟩, hn, h⟩
  · exact absurd h (readU32Be_not_ends hQ _)
  rcases bind_ends_iff.mp h with h | ⟨⟨payload, cursor⟩, hpayload, h⟩
  · exact absurd h (readExact_not_ends hQ _ _)
  cases status with
  | ok =>
    dsimp only at h
    split at h
    · exact absurd h (not_ends_ok _)
    · rcases bind_ends_iff.mp h with h | ⟨out, -, h⟩
      · obtain ⟨hlen, -, -⟩ := readExact_eq_ok_iff.mp hpayload
        have hcursor : (new bytes).cursor.advance (1 + (4 + payload.length)) = cursor := by
          obtain ⟨zs, -, rfl⟩ := readU32Be_eq_ok_iff.mp hn
          obtain ⟨-, rfl, -⟩ := readExact_eq_ok_iff.mp hpayload
          rw [hlen, Cursor.advance_advance, Cursor.advance_advance]
        rw [← hcursor, ← Cursor.advance_advance] at hpayload
        obtain ⟨hfits, zs, hfield⟩ := fieldAt_iff.mpr ⟨n, d', hn, hpayload⟩
        have hbehind : ((new bytes).cursor.advance 1).rest = ys :=
          Cursor.rest_advance_of_append hrest (List.length_singleton (a := byte))
        rw [hbehind] at hfield
        refine ⟨payload, zs, hfits, ?_, h⟩
        rw [← hstart, hrest, hfield, statusTryFrom_eq_ok hstatus]
      · exact absurd h (not_ends_ok _)
  | serverError =>
    dsimp only at h
    split at h
    · exact absurd h (not_ends_ok _)
    · exact absurd h (hrefused _)
  | keys =>
    rcases bind_ends_iff.mp h with ⟨e, he, hQe⟩ | ⟨out, -, h⟩
    · exact absurd he (loop_ne_error (fun s hs => pushKey_not_ends hQ s ⟨e, hs, hQe⟩) _ _)
    · exact absurd h (not_ends_ok _)
  | notFound => exact absurd h (not_ends_ok _)
  | typeError => exact absurd h (not_ends_ok _)
  | invalidRequest => exact absurd h (not_ends_ok _)

/-- Decoding a response does not return exactly when its payload is a field
that is not decoded to a result. -/
theorem decodeResponse_ends_iff (hQ : ∀ x, ¬ Q (.err x)) {bytes : Bytes} :
    Ends Q (new bytes).decodeResponse ↔
    ∃ payload ys, payload.length < 2 ^ 32 ∧
      bytes = Status.ok.toByte :: (beU32 (UInt32.ofNat payload.length) ++ (payload ++ ys)) ∧
      Ends Q (fieldFromBytes payload) := by
  refine ⟨decodeResponse_ends hQ, ?_⟩
  rintro ⟨payload, ys, hfits, hbytes, hfield⟩
  have hrest : (new bytes).cursor.rest = _ := hbytes
  have hbyte := readU8_eq_ok_iff.mpr ⟨_, hrest, rfl⟩
  have hbehind : ((new bytes).cursor.advance 1).rest = _ :=
    Cursor.rest_advance_of_append hrest (List.length_singleton (a := Status.ok.toByte))
  obtain ⟨n, d, hn, hpayload⟩ := fieldAt_iff.mp ⟨hfits, ys, hbehind⟩
  have hne : payload ≠ [] := by
    rintro rfl
    exact hQ _ (ends_error_iff.mp hfield)
  refine bind_ends_iff.mpr (.inr ⟨_, hbyte, bind_ends_iff.mpr (.inr ⟨Status.ok, rfl,
    bind_ends_iff.mpr (.inr ⟨_, hn, bind_ends_iff.mpr (.inr ⟨_, hpayload, ?_⟩)⟩)⟩)⟩)
  dsimp only
  rw [if_neg hne]
  exact bind_ends_iff.mpr (.inl hfield)

end ProtocolDecoder

end Protocol

namespace WriteAheadLog

/-- A set entry of a log, up to the end of its field. -/
def setEntry (p : Parts) : Bytes :=
  [0x1] ++ (ofU16 p.keyLen ++ (p.key.asBytes ++ (ofU32 p.fieldLen ++ p.field)))

namespace WalDecoder

variable {Q : Abort → Prop}

/-- Decoding a set entry does not return exactly when its field bytes are not
decoded to a result. -/
theorem decodeSetEntry_ends_iff (hQ : ∀ x, ¬ Q (.err x)) {d : WalDecoder} :
    Ends Q d.decodeSetEntry ↔
    ∃ (p : Parts) (ys : Bytes),
      d.cursor.rest = ofU16 p.keyLen ++ (p.key.asBytes ++ (ofU32 p.fieldLen ++ (p.field ++ ys))) ∧
      Ends Q (fieldFromBytes p.field) := by
  simp only [decodeSetEntry, bind_ends_iff, Prod.exists, readExact_not_ends hQ, false_or,
    not_ends_ok, and_false, exists_false, or_false]
  exact exists_parts_iff

/-- Decoding an entry does not return exactly on a set entry whose field bytes
are not decoded to a result. -/
theorem decodeWalEntry_ends_iff (hQ : ∀ x, ¬ Q (.err x)) {d : WalDecoder} :
    Ends Q d.decodeWalEntry ↔
    ∃ (p : Parts) (ys : Bytes), d.cursor.rest = setEntry p ++ ys ∧
    Ends Q (fieldFromBytes p.field) := by
  rw [decodeWalEntry]
  simp only [bind_ends_iff, Prod.exists, readExact_not_ends hQ, false_or, readExact_eq_ok_iff]
  constructor
  · rintro ⟨tag, _, ⟨htag, rfl, ys, hrest⟩, h⟩
    split at h
    · rename_i hset
      obtain ⟨p, zs, hparts, hfield⟩ := (decodeSetEntry_ends_iff hQ).mp h
      rw [Cursor.rest_advance_of_append hrest htag] at hparts
      refine ⟨p, zs, ?_, hfield⟩
      simp only [setEntry, List.append_assoc]
      rw [hrest, hset, hparts]
    · split at h
      · rcases bind_ends_iff.mp h with h | ⟨out, -, h⟩
        · exact absurd h (readExact_not_ends hQ _ _)
        · rcases bind_ends_iff.mp h with h | ⟨out, -, h⟩
          · exact absurd h (readExact_not_ends hQ _ _)
          · exact absurd h (not_ends_ok _)
      · exact absurd (ends_error_iff.mp h) (hQ _)
  · rintro ⟨p, ys, hrest, hfield⟩
    simp only [setEntry, List.append_assoc] at hrest
    have hbehind := Cursor.rest_advance_of_append hrest (List.length_singleton (a := (0x1 : UInt8)))
    refine ⟨_, _, ⟨List.length_singleton, rfl, _, hrest⟩, ?_⟩
    rw [if_pos rfl]
    exact (decodeSetEntry_ends_iff hQ).mpr ⟨p, ys, hbehind, hfield⟩

/-- Decoding a log does not return exactly when whole entries are followed by a
set entry whose field bytes are not decoded to a result. -/
theorem decodeWalEntries_ends_iff (hQ : ∀ x, ¬ Q (.err x)) {bytes : Bytes} :
    Ends Q (new bytes).decodeWalEntries ↔ ∃ (fs : List Frame) (p : Parts) (ys : Bytes),
      bytes = fs.flatMap Frame.bytes ++ (setEntry p ++ ys) ∧ Ends Q (fieldFromBytes p.field) := by
  have hstart : (new bytes).cursor.rest = bytes := rfl
  have hloop : ∀ e, (new bytes).decodeWalEntries = .error e ↔
      ∃ (fs : List Frame) (ys : Bytes), (new bytes).cursor.rest = fs.flatMap Frame.bytes ++ ys ∧
      ys ≠ [] ∧
        (fs.foldl after (new bytes)).decodeWalEntry = .error e := fun e =>
    framed.loop_eq_error_iff (fun _ _ h => decodeWalEntry_eq_ok_iff.mp h)
      (by rw [Cursor.length_rest]; omega)
  constructor
  · rintro ⟨e, he, hQe⟩
    obtain ⟨fs, ys, hrest, -, h⟩ := (hloop e).mp he
    obtain ⟨p, zs, hentry, hfield⟩ := (decodeWalEntry_ends_iff hQ).mp ⟨e, h, hQe⟩
    have hbehind : (fs.foldl after (new bytes)).cursor.rest = ys := (framed.rounds 0 hrest).2
    rw [hbehind] at hentry
    exact ⟨fs, p, zs, by rw [← hstart, hrest, hentry], hfield⟩
  · rintro ⟨fs, p, ys, hbytes, hfield⟩
    have hrest := hstart.trans hbytes
    obtain ⟨e, he, hQe⟩ := (decodeWalEntry_ends_iff hQ).mpr ⟨p, ys, (framed.rounds 0 hrest).2,
      hfield⟩
    exact ⟨e, (hloop e).mpr ⟨fs, _, hrest, by simp [setEntry], he⟩, hQe⟩

end WalDecoder

end WriteAheadLog

namespace RecordCodec

/-- A live record with a matching checksum, up to the end of its field. -/
def liveRecord [Crc] (p : Parts) : Bytes :=
  layout recordMagicNumber p.keyLen p.fieldLen
    (Crc.checksum (crcInput p.keyLen p.fieldLen p.key.asBytes p.field)) p.key.asBytes p.field

namespace DBDecoder

variable {Q : Abort → Prop}

/-- Reading the magic word of a record returns. -/
theorem readMagicNumber_not_ends (hQ : ∀ x, ¬ Q (.err x)) (d : DBDecoder) :
    ¬ Ends Q d.readMagicNumber := by
  intro h
  rcases bind_ends_iff.mp h with h | ⟨out, -, h⟩
  · exact readExact_not_ends hQ _ _ h
  · dsimp only at h
    split at h
    · exact not_ends_ok _ h
    · split at h
      · exact not_ends_ok _ h
      · exact hQ _ (ends_error_iff.mp h)

/-- Reading the parts of a record returns. -/
theorem readParts_not_ends (hQ : ∀ x, ¬ Q (.err x)) (d : DBDecoder) :
    ¬ Ends Q (do
      let d ← d.readMagicNumber
      let d ← d.readKeyLen
      let d ← d.readFieldLen
      let d ← d.readCrc
      let d ← d.readKey
      d.readField : PDBResult DBDecoder) := by
  simp only [readKeyLen, readFieldLen, readCrc, readKey, readField, bind_ends_iff,
    readMagicNumber_not_ends hQ, readExact_not_ends hQ, false_or, not_ends_ok, and_false,
    exists_false, not_false_eq_true]

/-- Comparing the checksum returns. -/
theorem checkCrc_not_ends [Crc] (hQ : ∀ x, ¬ Q (.err x)) (d : DBDecoder) :
    ¬ Ends Q d.checkCrc := by
  rw [checkCrc]
  split
  · exact fun h => hQ _ (ends_error_iff.mp h)
  · exact not_ends_ok _

/-- Decoding a record does not return exactly on a live one with a matching
checksum whose field bytes are not decoded to a result. -/
theorem decodeDbKeyFieldPair_ends_iff [Crc] (hQ : ∀ x, ¬ Q (.err x)) {d : DBDecoder} :
    Ends Q d.decodeDbKeyFieldPair ↔
      ∃ (p : Parts) (ys : Bytes), d.cursor.rest = liveRecord p ++ ys ∧
      Ends Q (fieldFromBytes p.field) := by
  rw [decodeDbKeyFieldPair_eq, bind_ends_iff]
  constructor
  · rintro (h | ⟨_, hparts, h⟩)
    · exact absurd h (readParts_not_ends hQ d)
    · obtain ⟨deleted, p, crc, ys, hrest, rfl⟩ := readParts_eq_ok_iff.mp hparts
      cases deleted with
      | true => exact absurd h (not_ends_ok _)
      | false =>
        rcases bind_ends_iff.mp h with h | ⟨_, hcrc, h⟩
        · exact absurd h (checkCrc_not_ends hQ _)
        · obtain ⟨hmatch, rfl⟩ := checkCrc_eq_ok_iff.mp hcrc
          rcases bind_ends_iff.mp h with h | ⟨out, -, h⟩
          · refine ⟨p, ys, ?_, h⟩
            rw [hrest, liveRecord, ← (show _ = crc from hmatch)]
            rfl
          · exact absurd h (not_ends_ok _)
  · rintro ⟨p, ys, hrest, hfield⟩
    refine .inr ⟨_, readParts_eq_ok_iff.mpr ⟨false, p, _, ys, hrest, rfl⟩, ?_⟩
    exact bind_ends_iff.mpr (.inr ⟨_, checkCrc_eq_ok_iff.mpr ⟨rfl, rfl⟩,
      bind_ends_iff.mpr (.inl hfield)⟩)

/-- Reading the metadata key returns. -/
theorem readMetadataKey_not_ends (hQ : ∀ x, ¬ Q (.err x)) (d : DBDecoder) :
    ¬ Ends Q d.readMetadataKey := by
  intro h
  rcases bind_ends_iff.mp h with h | ⟨out, -, h⟩
  · exact readExact_not_ends hQ _ _ h
  · dsimp only at h
    split at h
    · exact not_ends_ok _ h
    · exact hQ _ (ends_error_iff.mp h)

/-- Decoding a header returns. -/
theorem decodeDbHeader_not_ends (hQ : ∀ x, ¬ Q (.err x)) (d : DBDecoder) :
    ¬ Ends Q d.decodeDbHeader := by
  simp only [decodeDbHeader, bind_ends_iff, readExact_not_ends hQ, readMetadataKey_not_ends hQ,
    false_or, not_ends_ok, and_false, exists_false, not_false_eq_true]

/-- Decoding a data file does not return exactly when a header and whole
records are followed by a live record with a matching checksum whose field
bytes are not decoded to a result. -/
theorem decodeDbFile_ends_iff [Crc] (hQ : ∀ x, ¬ Q (.err x)) {bytes : Bytes} :
    Ends Q (new bytes).decodeDbFile ↔
      ∃ (h : Header) (rs : List Record) (p : Parts) (ys : Bytes), bytes = h.bytes ++
        (rs.flatMap Record.bytes ++ (liveRecord p ++ ys)) ∧ Ends Q (fieldFromBytes p.field) := by
  have hloop : ∀ h : Header, (afterHeader bytes h).cursor.rest.length ≤
      (afterHeader bytes h).cursor.buf.length + 1 := by
    intro h
    rw [Cursor.length_rest]
    omega
  have hrest : ∀ {h : Header} {ys : Bytes}, bytes = h.bytes ++ ys →
      (afterHeader bytes h).cursor.rest = ys := by
    intro h ys hbytes
    change bytes.drop 114 = ys
    rw [hbytes, List.drop_left' h.length_bytes]
  rw [decodeDbFile, bind_ends_iff]
  constructor
  · rintro (h | ⟨_, hheader, e, he, hQe⟩)
    · exact absurd h (decodeDbHeader_not_ends hQ _)
    · obtain ⟨header, ys, hbytes, rfl⟩ := decodeDbHeader_eq_ok_iff.mp hheader
      obtain ⟨rs, zs, hrecords, -, herror⟩ :=
        (framed.loop_eq_error_iff (fun _ _ h => decodeDbKeyFieldPair_eq_ok_iff.mp h)
          (hloop header)).mp he
      obtain ⟨p, ws, hrecord, hfield⟩ := (decodeDbKeyFieldPair_ends_iff hQ).mp ⟨e, herror, hQe⟩
      have hbehind : (rs.foldl after (afterHeader bytes header)).cursor.rest = zs :=
        (framed.rounds 0 hrecords).2
      rw [hbehind] at hrecord
      rw [hrest hbytes] at hrecords
      exact ⟨header, rs, p, ws, by rw [hbytes, hrecords, hrecord], hfield⟩
  · rintro ⟨header, rs, p, ys, hbytes, hfield⟩
    have hrecords := hrest hbytes
    obtain ⟨e, he, hQe⟩ :=
      (decodeDbKeyFieldPair_ends_iff hQ).mpr ⟨p, ys, (framed.rounds 0 hrecords).2, hfield⟩
    exact .inr ⟨_, decodeDbHeader_eq_ok_iff.mpr ⟨header, _, hbytes, rfl⟩, e,
      (framed.loop_eq_error_iff (fun _ _ h => decodeDbKeyFieldPair_eq_ok_iff.mp h)
        (hloop header)).mpr
        ⟨rs, _, hrecords, by simp [liveRecord, layout, recordMagicNumber], he⟩, hQe⟩

end DBDecoder

end RecordCodec

/-- Field bytes that one of the four decoders reaches in a buffer. -/
inductive ReachesField [Crc] (bytes : Bytes) : Bytes → Prop
  /-- In a `Set` request. -/
  | request (p : Parts) (ys : Bytes) (h : bytes = setMessage p ++ ys) : ReachesField bytes p.field
  /-- In an `Ok` response. -/
  | response (payload ys : Bytes) (hlength : payload.length < 2 ^ 32)
      (h : bytes = Status.ok.toByte :: (beU32 (UInt32.ofNat payload.length) ++ (payload ++ ys))) :
      ReachesField bytes payload
  /-- In a set entry behind whole entries of a log. -/
  | log (fs : List Frame) (p : Parts) (ys : Bytes)
      (h : bytes = fs.flatMap Frame.bytes ++ (setEntry p ++ ys)) :
      ReachesField bytes p.field
  /-- In a live record behind whole records of a data file. -/
  | dataFile (header : Header) (rs : List Record) (p : Parts) (ys : Bytes)
      (h : bytes = header.bytes ++ (rs.flatMap Record.bytes ++ (liveRecord p ++ ys))) :
      ReachesField bytes p.field

section

variable [Crc] [Texts]

/-- The message is answered with `InvalidRequest` without an effect on the
database, and the connection goes back to read. -/
def Refused (grants : ℕ → Bool) (msg : Bytes) : Prop :=
  ∀ (db : Database) (stream stream' : TcpStream), stream.readExact msg.length = (.ok msg,
    stream') →
    ∃ c, Connection.step { ConnChoice.plain with grants } db ⟨stream, .readBody msg.length⟩ =
      some (db, c) ∧
      c.step { ConnChoice.plain with grants } db =
        some (db, ⟨{ stream' with written := stream'.written ++ framed .invalidRequest },
          .readLen⟩)

/-- A message whose decoding returns an error is refused. -/
theorem refused_of_error {grants : ℕ → Bool} {msg : Bytes} {e : Abort} {x : PeachDbError}
    (h : (ProtocolDecoder.new msg).decodeRequest = .error e) (he : e.under grants = some (.err x)) :
    Refused grants msg := by
  intro db stream stream' hread
  refine ⟨⟨stream', .send .invalidRequest⟩, ?_, rfl⟩
  simp only [Connection.step, hread, handleMessage, h, he]
  rfl

/-- The four decoders return `Ok` or `Err` on a buffer, and a message that
cannot be decoded is refused, exactly when no field that a decoder reaches in
it overruns, or starves under the allocator. -/
theorem decoders_return_iff (grants : ℕ → Bool) (bytes : Bytes) :
    (Returns grants (ProtocolDecoder.new bytes).decodeRequest ∧
      Returns grants (ProtocolDecoder.new bytes).decodeResponse ∧
      Returns grants (WalDecoder.new bytes).decodeWalEntries ∧
      Returns grants (DBDecoder.new bytes).decodeDbFile ∧
      ∀ e, (ProtocolDecoder.new bytes).decodeRequest = .error e → Refused grants bytes) ↔
      ∀ field, ReachesField bytes field → ¬ Overruns field ∧ ¬ Starves grants field := by
  have hfield : ∀ buf, ¬ Ends (Abort.Escapes grants) (fieldFromBytes buf) ↔
      ¬ Overruns buf ∧ ¬ Starves grants buf := by
    intro buf
    rw [← returns_iff_not_ends, returns_iff, fieldFromBytes_panics_iff, fieldFromBytes_aborts_iff]
  have hQ : ∀ x, ¬ (Abort.err x).Escapes grants := fun x h => h x rfl
  simp only [returns_iff_not_ends, ProtocolDecoder.decodeRequest_ends_iff hQ,
    ProtocolDecoder.decodeResponse_ends_iff hQ, WalDecoder.decodeWalEntries_ends_iff hQ,
    DBDecoder.decodeDbFile_ends_iff hQ, ← hfield]
  constructor
  · rintro ⟨hrequest, hresponse, hlog, hfile, -⟩ field hreaches hends
    cases hreaches with
    | request p ys h => exact hrequest ⟨p, ys, h, hends⟩
    | response _ ys hlength h => exact hresponse ⟨_, ys, hlength, h, hends⟩
    | log fs p ys h => exact hlog ⟨fs, p, ys, h, hends⟩
    | dataFile header rs p ys h => exact hfile ⟨header, rs, p, ys, h, hends⟩
  · intro hall
    refine ⟨?_, ?_, ?_, ?_, fun e he => ?_⟩
    · rintro ⟨p, ys, hbytes, hends⟩
      exact hall _ (.request p ys hbytes) hends
    · rintro ⟨payload, ys, hlength, hbytes, hends⟩
      exact hall _ (.response payload ys hlength hbytes) hends
    · rintro ⟨fs, p, ys, hbytes, hends⟩
      exact hall _ (.log fs p ys hbytes) hends
    · rintro ⟨header, rs, p, ys, hbytes, hends⟩
      exact hall _ (.dataFile header rs p ys hbytes) hends
    · by_contra hrefused
      have hnone : e.Escapes grants := fun x hx => hrefused (refused_of_error he hx)
      obtain ⟨p, ys, hbytes, hends⟩ := (ProtocolDecoder.decodeRequest_ends_iff hQ).mp ⟨e, he, hnone⟩
      exact hall _ (.request p ys hbytes) hends

end

/-- A `Set` request with the empty key, whose field is an array that declares
as many elements as 32 bits can count. -/
def hugeArray : Bytes := [0x01, 0x03, 0, 0, 0, 0, 0, 5, 0x11, 0xFF, 0xFF, 0xFF, 0xFF]

/-- The process aborts in decoding it when there is no room for them. -/
example (grants : ℕ → Bool) (h : grants (2 ^ 32 - 1) = false) :
    Aborts grants (ProtocolDecoder.new hugeArray).decodeRequest := by
  have hdecode : (ProtocolDecoder.new hugeArray).decodeRequest =
      .error (.room (2 ^ 32 - 1) (.err .bufferTooShort)) := by decide +kernel
  rw [hdecode, Aborts, ends_error_iff, Abort.under, h]
  rfl

open scoped IsoHdlc LinuxTexts

/-- A `Set` request with the empty key, whose field is a boolean without its
byte. -/
def cutBoolean : Bytes := [0x01, 0x03, 0, 0, 0, 0, 0, 1, 0x04]

/-- The connection reads the message. -/
theorem cutBoolean_runs :
    (drive Connection.stepOk anyStep (List.replicate 2 (0, .plain))
      ⟨Database.new "db" [] ⟨[], []⟩, [.accept [frameOf cutBoolean] .eof]⟩).isSome := by
  decide +kernel

/-- The decoder panics on it; the connection ends without a response. -/
theorem cutBoolean_panics :
    let pool := ((drive Connection.stepOk anyStep _ _).get cutBoolean_runs).2
    (ProtocolDecoder.new cutBoolean).decodeRequest = .error .panic ∧
      pool.tasks = [⟨⟨[], .eof, []⟩, .closed (.error .panic)⟩] := by
  decide +kernel

end PeachDB
