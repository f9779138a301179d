import PeachDB.Server
import PeachDB.WireValues

/-!
# Round trips over the wire

A response is a status, a length and a payload. Only the absent value has an
empty payload under the status of a value, and the keys of a list are
delimited by their own lengths up to the end of the payload. A stream of
framed requests is split at the lengths in front of them and decoded to the
requests that were sent.
-/

namespace PeachDB

open LittleEndian Dtypes RecordCodec Db Protocol

namespace Protocol

/-- A key behind its length. -/
def keyBytes (key : Key) : Bytes := beU16 (UInt16.ofNat key.len) ++ key.asBytes

/-- A listed key takes two bytes more than it has. -/
theorem length_keyBytes (key : Key) : (keyBytes key).length = 2 + key.len := by
  rw [keyBytes, List.length_append, length_beU16, Key.len]

/-- Requests whose key and field can be encoded. -/
def Request.WellFormed : Request → Prop
  | .get key => key.Encodable
  | .set key field => key.Encodable ∧ field.WellTyped
  | .del key => key.Encodable
  | _ => True

instance (req : Request) : Decidable req.WellFormed :=
  match req with
  | .get key => inferInstanceAs (Decidable key.Encodable)
  | .set key field => inferInstanceAs (Decidable (key.Encodable ∧ field.WellTyped))
  | .del key => inferInstanceAs (Decidable key.Encodable)
  | .ping | .keys => isTrue trivial

/-- The status of a response. -/
def Response.status : Response → Status
  | .ok _ => .ok
  | .notFound => .notFound
  | .typeError => .typeError
  | .serverError _ => .serverError
  | .invalidRequest => .invalidRequest
  | .keys _ => .keys

/-- What a response carries behind its status and its length. -/
def Response.payload : Response → Bytes
  | .ok none => []
  | .ok (some field) => bytesFromField field
  | .notFound => []
  | .typeError => []
  | .invalidRequest => []
  | .serverError msg => stringBytes msg
  | .keys listed => listed.flatMap keyBytes

/-- Responses whose keys and field can be encoded. -/
def Response.WellFormed : Response → Prop
  | .ok (some field) => field.WellTyped
  | .keys listed => ∀ key ∈ listed, key.Encodable
  | _ => True

instance (res : Response) : Decidable res.WellFormed :=
  match res with
  | .ok (some field) => inferInstanceAs (Decidable field.WellTyped)
  | .keys listed => inferInstanceAs (Decidable (∀ key ∈ listed, key.Encodable))
  | .ok none | .notFound | .typeError | .serverError _ | .invalidRequest => isTrue trivial

/-- Every response has one form. -/
theorem encodeResponse_finish (res : Response) : (ProtocolEncoder.new.encodeResponse res).finish =
    res.status.toByte :: (beU32 (UInt32.ofNat res.payload.length) ++ res.payload) := by
  cases res with
  | ok field => cases field <;> rfl
  | notFound => rfl
  | typeError => rfl
  | serverError msg => rfl
  | invalidRequest => rfl
  | keys keys => rfl

/-- A response takes five bytes more than its payload. -/
theorem length_encodeResponse (res : Response) :
    (ProtocolEncoder.new.encodeResponse res).finish.length = 5 + res.payload.length := by
  rw [encodeResponse_finish, List.length_cons, List.length_append, length_beU32]
  omega

/-- The byte of a status is read back. -/
theorem statusTryFrom_toByte (status : Status) : Status.tryFrom status.toByte = .ok status := by
  cases status <;> rfl

/-- Every field has at least the byte of its type. -/
theorem bytesFromField_ne_nil (f : Field) : bytesFromField f ≠ [] := by
  cases f <;> exact List.cons_ne_nil _ _

namespace ProtocolDecoder

/-- The loop over the payload of a `Keys` response when a key has been read. -/
def afterKey (s : ProtocolDecoder × List Key) (key : { key : Key // key.Encodable }) :
    ProtocolDecoder × List Key :=
  (⟨s.1.cursor.advance (keyBytes key.1).length⟩, s.2 ++ [key.1])

/-- The loop over the keys reads their encodings. -/
theorem framed : Framed moreKeys pushKey (fun s => s.1.cursor)
    (fun key : { key : Key // key.Encodable } => keyBytes key.1) afterKey where
  more_iff s := by rw [moreKeys, decide_eq_true_iff, Cursor.pos_lt_iff]
  frame_ne_nil key h := by
    have hlen := congrArg List.length h
    rw [length_keyBytes, List.length_nil] at hlen
    omega
  cursor_after _ _ := rfl
  body_of_rest s key ys h := by
    have hread : s.1.readKey = .ok (key.1, ⟨s.1.cursor.advance (2 + key.1.len)⟩) := by
      rw [readKey_eq_ok_iff]
      refine ⟨key.2, ys, ?_, rfl⟩
      rw [h, keyBytes, List.append_assoc]
    rw [pushKey, hread, afterKey, length_keyBytes]
    rfl

/-- The keys are pushed one after another. -/
theorem keys_foldl_afterKey (s : ProtocolDecoder × List Key)
    (keys : List { key : Key // key.Encodable }) :
    (keys.foldl afterKey s).2 = s.2 ++ keys.map Subtype.val := by
  induction keys generalizing s with
  | nil => exact (List.append_nil _).symm
  | cons key keys ih => rw [List.foldl_cons, ih, afterKey, List.map_cons, List.append_assoc]; rfl

/-- The loop reads the keys of a list, each as often as it is there. -/
theorem loop_pushKey {keys : List Key} {payload : Bytes} (h : ∀ key ∈ keys, key.Encodable)
    (hpayload : payload = keys.flatMap keyBytes) :
    ∃ d, loop moreKeys pushKey (payload.length + 1) (new payload, []) = .ok (d, keys) := by
  lift keys to List { key : Key // key.Encodable } using h
  rw [List.flatMap_map] at hpayload
  have hrest : (new payload).cursor.rest = keys.flatMap fun key => keyBytes key.1 := hpayload
  have hfuel : (new payload).cursor.rest.length ≤ payload.length + 1 := Nat.le_succ _
  have hloop := framed.loop_eq_ok (s := (new payload, [])) hfuel hrest
  have hkeys := keys_foldl_afterKey (new payload, []) keys
  exact ⟨_, hloop.trans (congrArg _ (Prod.ext rfl hkeys))⟩

/-- A response that can be encoded is decoded to itself. -/
theorem decodeResponse_encodeResponse {res : Response} (hform : res.WellFormed)
    (hlen : res.payload.length < 2 ^ 32) :
    (new (ProtocolEncoder.new.encodeResponse res).finish).decodeResponse = .ok res := by
  have hn : (UInt32.ofNat res.payload.length).toNat = res.payload.length := by
    rw [UInt32.toNat_ofNat_of_lt' hlen]
  let message := (ProtocolEncoder.new.encodeResponse res).finish
  have hmessage : (⟨message, 0⟩ : Cursor).rest =
      [res.status.toByte] ++ (beU32 (UInt32.ofNat res.payload.length) ++ res.payload) :=
    encodeResponse_finish res
  have hrest : (⟨message, 1⟩ : Cursor).rest = beU32 (UInt32.ofNat res.payload.length) ++
      res.payload :=
    Cursor.rest_advance_of_append hmessage rfl
  have htail : (⟨message, 5⟩ : Cursor).rest = res.payload ++ [] := by
    rw [List.append_nil]
    exact Cursor.rest_advance_of_append hrest (length_beU32 _)
  have hstatus : (⟨⟨message, 0⟩⟩ : ProtocolDecoder).readU8 = .ok (res.status.toByte,
      ⟨⟨message, 1⟩⟩) :=
    readU8_eq_ok_iff.mpr ⟨_, hmessage, rfl⟩
  have hlength : (⟨⟨message, 1⟩⟩ : ProtocolDecoder).readU32Be =
      .ok (UInt32.ofNat res.payload.length, ⟨⟨message, 5⟩⟩) :=
    readU32Be_eq_ok_iff.mpr ⟨_, hrest, rfl⟩
  have hpayload : readExact ⟨message, 5⟩ (UInt32.ofNat res.payload.length).toNat =
      .ok (res.payload, ⟨message, 5 + (UInt32.ofNat res.payload.length).toNat⟩) :=
    readExact_eq_ok_iff.mpr ⟨hn.symm, rfl, _, htail⟩
  change (⟨⟨message, 0⟩⟩ : ProtocolDecoder).decodeResponse = .ok res
  simp only [decodeResponse, hstatus, ok_bind, statusTryFrom_toByte, hlength, hpayload]
  cases res with
  | ok field =>
    cases field with
    | none => rfl
    | some field =>
      have hfield := fieldFromBytes_bytesFromField ⟨hform, hlen⟩
      simp only [Response.status, Response.payload, if_neg (bytesFromField_ne_nil field), hfield,
        ok_bind]
  | notFound => rfl
  | typeError => rfl
  | serverError msg =>
    simp only [Response.status, Response.payload, fromUTF8?_stringBytes]
  | invalidRequest => rfl
  | keys keys =>
    obtain ⟨d, hloop⟩ := loop_pushKey hform rfl
    simp only [Response.status, Response.payload, hloop, ok_bind]

/-- A request whose head is a command that has a key. -/
theorem readKey_of_head (version command : UInt8) {key : Key} (hkey : key.Encodable) :
    (⟨⟨version :: command :: keyBytes key, 2⟩⟩ : ProtocolDecoder).readKey =
      .ok (key, ⟨⟨version :: command :: keyBytes key, 2 + (2 + key.len)⟩⟩) := by
  rw [readKey_eq_ok_iff]
  refine ⟨hkey, [], ?_, rfl⟩
  rw [List.append_nil]
  rfl

/-- A request that can be encoded is decoded to itself. -/
theorem decodeRequest_encodeRequest {req : Request} (hform : req.WellFormed)
    (hlen : (ProtocolEncoder.new.encodeRequest req).finish.length < 2 ^ 32) :
    (new (ProtocolEncoder.new.encodeRequest req).finish).decodeRequest = .ok req := by
  cases req with
  | ping => rfl
  | keys => rfl
  | get key =>
    have hread := readKey_of_head 0x01 Command.get.toByte hform
    exact congrArg (· >>= fun out => Except.ok (Request.get out.1)) hread
  | del key =>
    have hread := readKey_of_head 0x01 Command.del.toByte hform
    exact congrArg (· >>= fun out => Except.ok (Request.del out.1)) hread
  | set key field =>
    obtain ⟨hkey, htyped⟩ := hform
    have hfield : field.Encodable := by
      refine ⟨htyped, ?_⟩
      simp [ProtocolEncoder.encodeRequest, ProtocolEncoder.encodeKey, ProtocolEncoder.encodeField,
        ProtocolEncoder.encodeU8, ProtocolEncoder.encodeU16Be, ProtocolEncoder.encodeU32Be,
        ProtocolEncoder.write, ProtocolEncoder.new, ProtocolEncoder.finish] at hlen
      omega
    rw [encodeRequest_set_finish key field hkey hfield, decodeRequest_eq_set_iff]
    exact ⟨_, [], (List.append_nil _).symm, rfl, _, fieldFromBytes_bytesFromField hfield⟩

end ProtocolDecoder

/-- Every response is read back as it was sent: the absent value and the
values, the text of a failure, and the keys in their order. -/
theorem response_round_trip {res : Response} (hform : res.WellFormed)
    (hlen : (ProtocolEncoder.new.encodeResponse res).finish.length < 2 ^ 32) :
    (ProtocolDecoder.new (ProtocolEncoder.new.encodeResponse res).finish).decodeResponse =
      .ok res := by
  rw [length_encodeResponse] at hlen
  exact ProtocolDecoder.decodeResponse_encodeResponse hform (by omega)

/-- A list with a key twice and an empty key, and an empty value. -/
theorem response_round_trip_duplicates :
    let listed := Response.keys [.ofText "a", .ofText "", .ofText "a"]
    let empty := Response.ok (some (.raw []))
    (ProtocolDecoder.new (ProtocolEncoder.new.encodeResponse listed).finish).decodeResponse =
      .ok listed ∧
      (ProtocolDecoder.new (ProtocolEncoder.new.encodeResponse empty).finish).decodeResponse =
        .ok empty := by
  intro listed empty
  have hlisted := @response_round_trip listed (by decide +kernel) (by decide +kernel)
  have hempty := @response_round_trip empty (by decide +kernel) (by decide +kernel)
  exact ⟨hlisted, hempty⟩

end Protocol

namespace Server

/-- A message behind its length. -/
def frameOf (body : Bytes) : Bytes := beU32 (UInt32.ofNat body.length) ++ body

/-- Bytes that are no whole message behind its length. -/
def Incomplete (remainder : Bytes) : Prop :=
  remainder.length < 4 + (fromBeU32 (remainder.take 4)).toNat

section

variable {stream : TcpStream} {xs ys : Bytes} {n : ℕ}

/-- A read takes bytes off what has come, in whatever chunks. -/
theorem readExact_of_flatten (h : stream.incoming.flatten = xs ++ ys) (hn : xs.length = n) :
    ∃ incoming, stream.readExact n = (.ok xs, { stream with incoming }) ∧
      incoming.flatten = ys := by
  subst hn
  obtain ⟨rest, htake, hrest⟩ := takeChunks_of_flatten h
  exact ⟨rest, by rw [TcpStream.readExact, htake], hrest⟩

/-- A read fails at the end of what has come. -/
theorem readExact_short (h : stream.incoming.flatten.length < n) :
    stream.readExact n = (.error stream.ending, { stream with incoming := [] }) := by
  rw [TcpStream.readExact, takeChunks_eq_none h]

end

/-- The length and the message that `handle_connection` reads in one round;
none when the stream ends before. -/
def readMessage (stream : TcpStream) : Option (Bytes × TcpStream) :=
  match stream.readExact 4 with
  | (.ok lenBuf, stream) =>
    match stream.readExact (fromBeU32 lenBuf).toNat with
    | (.ok buf, stream) => some (buf, stream)
    | (.error _, _) => none
  | (.error _, _) => none

/-- The messages that the rounds of `handle_connection` read, within some
rounds. -/
def messagesWithin : ℕ → TcpStream → List Bytes
  | 0, _ => []
  | fuel + 1, stream =>
    match readMessage stream with
    | some (buf, stream) => buf :: messagesWithin fuel stream
    | none => []

/-- All messages of a stream; each has at least the bytes of its length. -/
def readMessages (stream : TcpStream) : List Bytes :=
  messagesWithin stream.incoming.flatten.length stream

/-- The connection reads messages in this way. -/
theorem step_of_readMessage [Crc] [Texts] {choice : ConnChoice} {db : Database}
    {stream stream' : TcpStream} {buf : Bytes} (h : readMessage stream = some (buf, stream')) :
    ∃ c, Connection.step choice db ⟨stream, .readLen⟩ = some (db, c) ∧
      c.step choice db = (handleMessage choice.grants buf).map fun phase =>
        (db, ⟨stream', phase⟩) := by
  unfold readMessage at h
  split at h
  · next lenBuf rest hlen =>
    split at h
    · next hbody =>
      cases h
      refine ⟨⟨rest, .readBody (fromBeU32 lenBuf).toNat⟩, ?_, ?_⟩
      · simp only [Connection.step, hlen]
      · simp only [Connection.step, hbody]
    · cases h
  · cases h

/-- A framed message is read, however the stream arrives. -/
theorem readMessage_of_flatten {stream : TcpStream} {body ys : Bytes} (hlen : body.length < 2 ^ 32)
    (h : stream.incoming.flatten = frameOf body ++ ys) :
    ∃ stream', readMessage stream = some (body, stream') ∧ stream'.incoming.flatten = ys := by
  rw [frameOf, List.append_assoc] at h
  obtain ⟨incoming, hread, hrest⟩ := readExact_of_flatten h (length_beU32 _)
  have hn : (fromBeU32 (beU32 (UInt32.ofNat body.length))).toNat = body.length := by
    rw [fromBeU32_beU32, UInt32.toNat_ofNat_of_lt' hlen]
  have hinput : ({ stream with incoming } : TcpStream).incoming.flatten = body ++ ys := hrest
  obtain ⟨incoming', hread', hrest'⟩ := readExact_of_flatten hinput hn.symm
  refine ⟨{ stream with incoming := incoming' }, ?_, hrest'⟩
  simp only [readMessage, hread, hread']

/-- An incomplete message is not read. -/
theorem readMessage_of_incomplete {stream : TcpStream} (h : Incomplete stream.incoming.flatten) :
    readMessage stream = none := by
  by_cases hshort : stream.incoming.flatten.length < 4
  · simp only [readMessage, readExact_short hshort]
  · have htake : (stream.incoming.flatten.take 4).length = 4 := by
      rw [List.length_take]
      omega
    obtain ⟨incoming, hread, hrest⟩ :=
      readExact_of_flatten (List.take_append_drop 4 stream.incoming.flatten).symm htake
    have hbody : ({ stream with incoming } : TcpStream).incoming.flatten.length <
        (fromBeU32 (stream.incoming.flatten.take 4)).toNat := by
      rw [hrest, List.length_drop]
      rw [Incomplete] at h
      omega
    simp only [readMessage, hread, readExact_short hbody]

/-- The messages are read one after another. -/
theorem messagesWithin_of_flatten {bodies : List Bytes} {remainder : Bytes}
    (hlen : ∀ body ∈ bodies, body.length < 2 ^ 32) (hremainder : Incomplete remainder)
    {fuel : ℕ} {stream : TcpStream} (hfuel : bodies.length ≤ fuel)
    (h : stream.incoming.flatten = bodies.flatMap frameOf ++ remainder) :
    messagesWithin fuel stream = bodies := by
  induction bodies generalizing fuel stream with
  | nil =>
    cases fuel with
    | zero => rfl
    | succ fuel =>
      rw [List.flatMap_nil, List.nil_append] at h
      rw [messagesWithin, readMessage_of_incomplete (h.symm ▸ hremainder)]
  | cons body bodies ih =>
    cases fuel with
    | zero => cases hfuel
    | succ fuel =>
      rw [List.flatMap_cons, List.append_assoc] at h
      obtain ⟨stream', hread, hrest⟩ := readMessage_of_flatten (hlen body List.mem_cons_self) h
      have htail := ih (fun b hb => hlen b (List.mem_cons_of_mem _ hb))
        (Nat.le_of_succ_le_succ hfuel) hrest
      simp only [messagesWithin, hread, htail]

/-- The messages in front of bytes that are no whole message are read. -/
theorem readMessages_of_append {bodies : List Bytes} {remainder : Bytes} {stream : TcpStream}
    (hlen : ∀ body ∈ bodies, body.length < 2 ^ 32) (hremainder : Incomplete remainder)
    (h : stream.incoming.flatten = bodies.flatMap frameOf ++ remainder) :
    readMessages stream = bodies := by
  have hfuel : ∀ bodies : List Bytes, bodies.length ≤ (bodies.flatMap frameOf).length := by
    intro bodies
    induction bodies with
    | nil => exact Nat.le_refl _
    | cons body bodies ih =>
      rw [List.flatMap_cons, frameOf, List.length_cons]
      simp only [List.length_append, length_beU32]
      omega
  refine messagesWithin_of_flatten hlen hremainder ?_ h
  rw [h, List.length_append]
  exact (hfuel bodies).trans (Nat.le_add_right _ _)

/-- Nothing is an incomplete message. -/
theorem incomplete_nil : Incomplete [] := by
  rw [Incomplete, List.length_nil]
  omega

/-- A stream of framed messages is split into them. -/
theorem readMessages_of_flatten {bodies : List Bytes} {stream : TcpStream}
    (hlen : ∀ body ∈ bodies, body.length < 2 ^ 32)
    (h : stream.incoming.flatten = bodies.flatMap frameOf) : readMessages stream = bodies :=
  readMessages_of_append hlen incomplete_nil (by rw [h, List.append_nil])

/-- `read_response` of the client; none when the stream ends before. -/
def readResponse (received : TcpStream) : Option (PDBResult Response × TcpStream) :=
  (readMessage received).map fun out => ((ProtocolDecoder.new out.1).decodeResponse, out.2)

/-- The responses that a client reads, within some reads. -/
def responsesWithin : ℕ → TcpStream → List (PDBResult Response)
  | 0, _ => []
  | fuel + 1, received =>
    match readResponse received with
    | some (res, received) => res :: responsesWithin fuel received
    | none => []

/-- All responses of a stream. -/
def readResponses (received : TcpStream) : List (PDBResult Response) :=
  responsesWithin received.incoming.flatten.length received

/-- Responses are decoded messages. -/
theorem responsesWithin_eq (fuel : ℕ) (received : TcpStream) : responsesWithin fuel received =
    (messagesWithin fuel received).map fun body => (ProtocolDecoder.new body).decodeResponse := by
  induction fuel generalizing received with
  | zero => rfl
  | succ fuel ih =>
    rw [responsesWithin, messagesWithin, readResponse]
    cases readMessage received with
    | none => rfl
    | some out => simp only [Option.map_some, ih, List.map_cons]

/-- The responses are those in the messages. -/
theorem readResponses_eq (received : TcpStream) : readResponses received =
    (readMessages received).map fun body => (ProtocolDecoder.new body).decodeResponse :=
  responsesWithin_eq _ received

/-- A client reads the responses that stand in front of bytes that are no whole
message. -/
theorem readResponses_of_framed {responses : List Response} {rest : Bytes} {received : TcpStream}
    (hform : ∀ res ∈ responses, res.WellFormed)
    (hfits : ∀ res ∈ responses, 5 + res.payload.length < 2 ^ 32) (hrest : Incomplete rest)
    (h : received.incoming.flatten = responses.flatMap framed ++ rest) :
    readResponses received = responses.map .ok := by
  have hlen : ∀ body ∈ responses.map fun res => (ProtocolEncoder.new.encodeResponse res).finish,
      body.length < 2 ^ 32 := by
    intro body hbody
    obtain ⟨res, hres, rfl⟩ := List.mem_map.mp hbody
    rw [length_encodeResponse]
    exact hfits res hres
  have hsplit : received.incoming.flatten =
      (responses.map fun res => (ProtocolEncoder.new.encodeResponse res).finish).flatMap frameOf ++
        rest := by
    rw [h, List.flatMap_map]
    rfl
  rw [readResponses_eq, readMessages_of_append hlen hrest hsplit, List.map_map]
  apply List.map_congr_left
  intro res hres
  exact ProtocolDecoder.decodeResponse_encodeResponse (hform res hres)
    ((Nat.le_add_left _ _).trans_lt (hfits res hres))

/-- Bytes that are one message behind its length, from which a response is
decoded. -/
def Carries (bytes : Bytes) (res : Response) : Prop :=
  ∃ body, body.length < 2 ^ 32 ∧ bytes = frameOf body ∧
    (ProtocolDecoder.new body).decodeResponse = .ok res

/-- The frame of a response carries it, unless the encoder cuts a length. -/
theorem carries_framed {res : Response} (hform : res.WellFormed)
    (hfits : 5 + res.payload.length < 2 ^ 32) : Carries (framed res) res := by
  refine ⟨(ProtocolEncoder.new.encodeResponse res).finish, ?_, rfl, ?_⟩
  · rw [length_encodeResponse]
    exact hfits
  · exact ProtocolDecoder.decodeResponse_encodeResponse hform
      ((Nat.le_add_left _ _).trans_lt hfits)

/-- A stream of framed requests, in whatever chunks it arrives, is split into
messages that are decoded to exactly these requests. -/
theorem request_stream_round_trip {reqs : List Request} {stream : TcpStream}
    (hform : ∀ req ∈ reqs, req.WellFormed)
    (hlen : ∀ req ∈ reqs, (ProtocolEncoder.new.encodeRequest req).finish.length < 2 ^ 32)
    (hstream : stream.incoming.flatten = reqs.flatMap fun req =>
      (ProtocolEncoder.new.encodeRequest req).frame) :
    (readMessages stream).map (fun body => (ProtocolDecoder.new body).decodeRequest) =
      reqs.map Except.ok := by
  have hsplit : stream.incoming.flatten =
      (reqs.map fun req => (ProtocolEncoder.new.encodeRequest req).finish).flatMap frameOf := by
    rw [hstream, List.flatMap_map]
    rfl
  have hbodies : ∀ body ∈ reqs.map fun req => (ProtocolEncoder.new.encodeRequest req).finish,
      body.length < 2 ^ 32 := by
    intro body hbody
    obtain ⟨req, hreq, rfl⟩ := List.mem_map.mp hbody
    exact hlen req hreq
  rw [readMessages_of_flatten hbodies hsplit, List.map_map]
  apply List.map_congr_left
  intro req hreq
  exact ProtocolDecoder.decodeRequest_encodeRequest (hform req hreq) (hlen req hreq)

/-- All five commands, in chunks that do not end with a message. -/
theorem request_stream_round_trip_chunks :
    let reqs := [Request.ping, .set (.ofText "k") (.raw [0xFF]), .get (.ofText ""),
      .del (.ofText "k"), .keys]
    let bytes := reqs.flatMap fun req => (ProtocolEncoder.new.encodeRequest req).frame
    (readMessages ⟨[bytes.take 9, bytes.drop 9], .eof, []⟩).map
      (fun body => (ProtocolDecoder.new body).decodeRequest) = reqs.map Except.ok := by
  intro reqs bytes
  have hform : ∀ req ∈ reqs, req.WellFormed := by decide +kernel
  refine request_stream_round_trip hform (by decide +kernel) ?_
  simp only [List.flatten_cons, List.flatten_nil, List.append_nil, List.take_append_drop, bytes]

end Server

end PeachDB
