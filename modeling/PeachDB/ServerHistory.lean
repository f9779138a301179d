import PeachDB.ConnectionLoop
import PeachDB.Linearization
import PeachDB.WireValues

/-!
# The history of a server

Any number of connections on one database, interleaved section by section, with
any verdicts of the operating system. The server never flushes, so that a
request takes effect on the fields in one section: the messages of all clients
have one order in which a map gives the responses that they are sent. A request
whose log entry could not be written is refused and has no effect on the map.
-/

namespace PeachDB.Server

open LittleEndian Dtypes RecordCodec FileHandler WriteAheadLog Interleaving Db Protocol
  Linearization

/-- The bytes of the messages of some exchanges, each behind its length. -/
def asked (exchanges : List (Bytes × Response)) : Bytes := exchanges.flatMap fun e => frameOf e.1

/-- The bytes of the responses of some exchanges. -/
def answered (exchanges : List (Bytes × Response)) : Bytes := exchanges.flatMap fun e => framed e.2

/-- The last exchange is asked last. -/
theorem asked_concat (exchanges : List (Bytes × Response)) (e : Bytes × Response) :
    asked (exchanges ++ [e]) = asked exchanges ++ frameOf e.1 := by
  rw [asked, List.flatMap_append, List.flatMap_singleton]
  rfl

/-- The last exchange is answered last. -/
theorem answered_concat (exchanges : List (Bytes × Response)) (e : Bytes × Response) :
    answered (exchanges ++ [e]) = answered exchanges ++ framed e.2 := by
  rw [answered, List.flatMap_append, List.flatMap_singleton]
  rfl

/-- What is sent to a client whose message ends too early. -/
def cutOffResponse : Response := .serverError "failed to read message"

/-- The entry that a connection has logged and is about to bring into the
fields. -/
def Phase.inFlight : Phase → List WalEntry
  | .call _ (.write entry .update) => [entry]
  | _ => []

/-- A call that has not taken effect on the fields, and the request it is for. -/
inductive Waiting : Request → Task → Prop
  /-- A key is to be read. -/
  | get (key : Key) : Waiting (.get key) (.get key none)
  /-- An entry is to be logged. -/
  | append {req : Request} {entry : WalEntry} (hentry : entryOf req = some entry) :
      Waiting req (.write entry .append)
  /-- An entry has been logged, and the state is to be updated. -/
  | update {req : Request} {entry : WalEntry} (hentry : entryOf req = some entry) :
      Waiting req (.write entry .update)

/-- The exchanges of a client of which the messages have been read; `pending`
are the bytes that have been read behind them. -/
structure Heard (input : Bytes) (exchanges : List (Bytes × Response)) (pending : Bytes)
    (stream : TcpStream) : Prop where
  /-- The messages have been asked, `pending` is being read, the rest is to
  come. -/
  input : input = asked exchanges ++ (pending ++ stream.incoming.flatten)
  /-- The messages are short enough for their lengths. -/
  lengths : ∀ e ∈ exchanges, e.1.length < 2 ^ 32

/-- Bytes that begin with a whole length and are no whole message. -/
def CutOff (behind : Bytes) : Prop := 4 ≤ behind.length ∧ Incomplete behind

/-- The connections of some clients, as they are accepted. -/
def accepted (clients : List (List Bytes × Ending)) : List Connection :=
  clients.map fun client => .accept client.1 client.2

/-- What a client can tell of its exchanges: its messages are the first ones
that it sent, in order, and their responses are written in order. The last one
may still be missing, and may be cut off when the connection has been closed.
Only a message that is cut off itself is answered without an exchange. -/
structure Transcript (input : Bytes) (exchanges : List (Bytes × Response))
    (c : Connection) : Prop where
  /-- The messages are short enough for their lengths. -/
  lengths : ∀ e ∈ exchanges, e.1.length < 2 ^ 32
  /-- They are the first ones of the input; what is written behind the answers
  belongs to a message that is cut off. -/
  requests : ∃ behind, input = asked exchanges ++ behind ∧
    (c.phase = .readLen → behind = c.stream.incoming.flatten) ∧
    (c.stream.written <+: answered exchanges ∨
      CutOff behind ∧ c.stream.written <+: answered exchanges ++ framed cutOffResponse)
  /-- All have been answered, but for the last one. -/
  responses : ∃ done late, exchanges = done ++ late ∧ late.length ≤ 1 ∧
    (c.phase = .readLen → late = []) ∧
    ((∀ result, c.phase ≠ .closed result) → c.stream.written = answered done) ∧
    answered done <+: c.stream.written

/-- Every exchange of a history is one of a client, and every client can tell
its own. The frames in which responses are written carry them. -/
structure Witnessed (clients : List (List Bytes × Ending)) (h : List (Event Bytes Response))
    (conns : List Connection) : Prop where
  /-- Every exchange is one of a client. -/
  places : ∀ e ∈ h, e.place < clients.length
  /-- Every client has a connection. -/
  length : conns.length = clients.length
  /-- Every client can tell its exchanges. -/
  transcript : ∀ i client c, clients[i]? = some client → conns[i]? = some c →
    Transcript client.1.flatten (callsOf i h) c
  /-- A frame carries its response. -/
  frames : ∀ e ∈ h, e.res.WellFormed → 5 + e.res.payload.length < 2 ^ 32 →
    Carries (framed e.res) e.res

/-- How a map answers a message. A write that cannot be logged is refused. -/
inductive Serves [Texts] (m : HashMap Key Field) (body : Bytes) : Response → HashMap Key Field →
    Prop
  /-- A message that cannot be decoded. -/
  | invalid {e : PeachDbError} (hdecode : Fails (ProtocolDecoder.new body).decodeRequest e) :
      Serves m body .invalidRequest m
  /-- A request that the map answers. -/
  | answered {req : Request} {res : Response} {m' : HashMap Key Field}
      (hdecode : (ProtocolDecoder.new body).decodeRequest = .ok req)
      (hanswer : Answers m req res m') :
      Serves m body res m'
  /-- A write that could not be logged. -/
  | refused {req : Request} {entry : WalEntry} (e : IoError)
      (hdecode : (ProtocolDecoder.new body).decodeRequest = .ok req)
      (hentry : entryOf req = some entry) :
      Serves m body (.serverError (PeachDbError.io e).display) m

/-- The state of a connection with a client that sends `input`; `exchanges` are
those that have taken effect, of which the last may still be to be answered. -/
inductive InService [Texts] (input : Bytes) : List (Bytes × Response) → Connection → Prop
  /-- Between two messages. -/
  | readLen {exchanges : List (Bytes × Response)} {stream : TcpStream}
      (h : Heard input exchanges [] stream) (hout : stream.written = answered exchanges) :
      InService input exchanges ⟨stream, .readLen⟩
  /-- Between a length and its message. -/
  | readBody {exchanges : List (Bytes × Response)} {stream : TcpStream} {n : UInt32}
      (h : Heard input exchanges (beU32 n) stream) (hout : stream.written = answered exchanges) :
      InService input exchanges ⟨stream, .readBody n.toNat⟩
  /-- In a call that has not yet read or updated the state. -/
  | waiting {exchanges : List (Bytes × Response)} {stream : TcpStream} {body : Bytes}
      {req : Request} {task : Task} (h : Heard input exchanges (frameOf body) stream)
      (hlength : body.length < 2 ^ 32)
      (hdecode : (ProtocolDecoder.new body).decodeRequest = .ok req) (htask : Waiting req task)
      (hout : stream.written = answered exchanges) :
      InService input exchanges ⟨stream, .call req task⟩
  /-- About to list the keys. -/
  | listKeys {exchanges : List (Bytes × Response)} {stream : TcpStream} {body : Bytes}
      (h : Heard input exchanges (frameOf body) stream) (hlength : body.length < 2 ^ 32)
      (hdecode : (ProtocolDecoder.new body).decodeRequest = .ok .keys)
      (hout : stream.written = answered exchanges) :
      InService input exchanges ⟨stream, .listKeys⟩
  /-- In a call that has read or updated the state. -/
  | called {exchanges : List (Bytes × Response)} {stream : TcpStream} {body : Bytes}
      {req : Request} {task : Task} {result : PDBResult (Option Field)} {res : Response}
      (h : Heard input (exchanges ++ [(body, res)]) [] stream)
      (hresult : resultOf task = some result) (hres : respond req result = .send res)
      (hout : stream.written = answered exchanges) :
      InService input (exchanges ++ [(body, res)]) ⟨stream, .call req task⟩
  /-- About to write the response to the last exchange. -/
  | send {exchanges : List (Bytes × Response)} {stream : TcpStream} {body : Bytes} {res : Response}
      (h : Heard input (exchanges ++ [(body, res)]) [] stream)
      (hout : stream.written = answered exchanges) :
      InService input (exchanges ++ [(body, res)]) ⟨stream, .send res⟩
  /-- About to write an error, for a message that is cut off. -/
  | giveUp {exchanges : List (Bytes × Response)} {stream : TcpStream} {pending : Bytes}
      (behind : Bytes) (h : Heard input exchanges pending { stream with incoming := [behind] })
      (hcut : CutOff (pending ++ behind)) (hout : stream.written = answered exchanges) :
      InService input exchanges ⟨stream, .giveUp cutOffResponse⟩
  /-- The connection has ended. -/
  | closed {exchanges late : List (Bytes × Response)} {stream : TcpStream}
      {result : PDBResult Unit} {pending : Bytes} (behind : Bytes)
      (h : Heard input (exchanges ++ late) pending { stream with incoming := [behind] })
      (hlate : late.length ≤ 1) (hdone : answered exchanges <+: stream.written)
      (hout : stream.written <+: answered (exchanges ++ late) ∨ CutOff (pending ++ behind) ∧
        stream.written <+: answered (exchanges ++ late) ++ framed cutOffResponse) :
      InService input (exchanges ++ late) ⟨stream, .closed result⟩

/-- The exchanges of the client at each place. -/
def InServiceAt [Texts] (clients : List (List Bytes × Ending)) (i : ℕ)
    (exchanges : List (Bytes × Response)) (c : Connection) : Prop :=
  ∃ client, clients[i]? = some client ∧ InService client.1.flatten exchanges c

/-- What one section of a connection does to the database, with the exchange
that takes effect in it, if any. Only a log file that is `prompt` is known to
hold what was logged. -/
inductive Effect [Texts] (prompt : Prop) (db : Database) (c : Connection) :
    List (Bytes × Response) → Database → Connection → Prop
  /-- It does not touch the map. -/
  | quiet {c' : Connection} (hflight : c'.phase.inFlight = c.phase.inFlight) :
      Effect prompt db c [] db c'
  /-- It logs an entry. -/
  | logged {c' : Connection} {req : Request} {body file : Bytes} (entry : WalEntry)
      (hdecode : (ProtocolDecoder.new body).decodeRequest = .ok req)
      (hentry : entryOf req = some entry) (hlength : body.length < 2 ^ 32)
      (hbefore : c.phase.inFlight = []) (hafter : c'.phase.inFlight = [entry])
      (hfile : prompt → file = db.wal.file ++ walBytes entry) :
      Effect prompt db c [] { db with wal := ⟨file, db.wal.entries ++ [entry]⟩ } c'
  /-- It refuses a message. -/
  | invalid {c' : Connection} {body : Bytes} {e : PeachDbError}
      (hdecode : Fails (ProtocolDecoder.new body).decodeRequest e) (hbefore : c.phase.inFlight = [])
      (hafter : c'.phase.inFlight = []) : Effect prompt db c [(body, .invalidRequest)] db c'
  /-- It answers a request. -/
  | answered {c' : Connection} {body : Bytes} {req : Request} {res : Response}
      {m : HashMap Key Field} (hdecode : (ProtocolDecoder.new body).decodeRequest = .ok req)
      (hanswer : Answers db.state.fields req res m)
      (hbefore : c.phase.inFlight = (entryOf req).toList) (hafter : c'.phase.inFlight = []) :
      Effect prompt db c [(body, res)] { db with state := { db.state with fields := m } } c'
  /-- It fails to log an entry. -/
  | refused {c' : Connection} {body : Bytes} {req : Request} {entry : WalEntry} {wal : Wal}
      (e : IoError) (hdecode : (ProtocolDecoder.new body).decodeRequest = .ok req)
      (hentry : entryOf req = some entry)
      (hfailed : c'.phase = .call req (.failed (.err (.io e)))) :
      Effect prompt db c [(body, .serverError (PeachDbError.io e).display)] { db with wal } c'

section

variable {stream stream' : TcpStream} {n : ℕ} {input : Bytes}
  {exchanges : List (Bytes × Response)}

/-- A read that succeeds takes its bytes from the front of the stream. -/
theorem readExact_ok {buf : Bytes} (h : stream.readExact n = (.ok buf, stream')) :
    buf.length = n ∧ stream.incoming.flatten = buf ++ stream'.incoming.flatten ∧
      stream'.written = stream.written := by
  by_cases hshort : stream.incoming.flatten.length < n
  · rw [readExact_short hshort] at h
    cases h
  · have hsplit := (List.take_append_drop n stream.incoming.flatten).symm
    have htake : (stream.incoming.flatten.take n).length = n := by
      rw [List.length_take]
      omega
    obtain ⟨incoming, hread, hrest⟩ := readExact_of_flatten hsplit htake
    rw [hread] at h
    cases h
    exact ⟨htake, by rw [hrest]; exact hsplit, rfl⟩

/-- A read that fails loses the rest of the stream, which is too short. -/
theorem readExact_error {ending : Ending} (h : stream.readExact n = (.error ending, stream')) :
    stream' = { stream with incoming := [] } ∧ stream.incoming.flatten.length < n := by
  by_cases hshort : stream.incoming.flatten.length < n
  · rw [readExact_short hshort] at h
    cases h
    exact ⟨rfl, hshort⟩
  · have htake : (stream.incoming.flatten.take n).length = n := by
      rw [List.length_take]
      omega
    obtain ⟨incoming, hread, -⟩ :=
      readExact_of_flatten (List.take_append_drop n stream.incoming.flatten).symm htake
    rw [hread] at h
    cases h

/-- A length and a part of its message are cut off. -/
theorem cutOff_of_short {len : UInt32} {behind : Bytes} (h : behind.length < len.toNat) :
    CutOff (beU32 len ++ behind) := by
  have htake : (beU32 len ++ behind).take 4 = beU32 len := List.take_left' (length_beU32 len)
  refine ⟨?_, ?_⟩
  · rw [List.length_append, length_beU32]
    omega
  · rw [Incomplete, htake, fromBeU32_beU32, List.length_append, length_beU32]
    omega

/-- Bytes that a failed read has taken are not answered. -/
theorem Heard.lost {pending : Bytes} (h : Heard input exchanges pending stream) :
    Heard input exchanges pending { stream with incoming := [stream.incoming.flatten] } := by
  refine ⟨?_, h.lengths⟩
  rw [h.input, List.flatten_singleton]

/-- The length of a message behind what has been heard. -/
theorem Heard.length {buf : Bytes} (h : Heard input exchanges [] stream)
    (hread : stream.readExact 4 = (.ok buf, stream')) :
    Heard input exchanges (beU32 (fromBeU32 buf)) stream' := by
  obtain ⟨hlength, hflatten, -⟩ := readExact_ok hread
  refine ⟨?_, h.lengths⟩
  rw [h.input, hflatten, beU32_fromBeU32 hlength, List.nil_append]

/-- The message behind its length. -/
theorem Heard.message {len : UInt32} {buf : Bytes} (h : Heard input exchanges (beU32 len) stream)
    (hread : stream.readExact len.toNat = (.ok buf, stream')) :
    Heard input exchanges (frameOf buf) stream' ∧ buf.length < 2 ^ 32 := by
  obtain ⟨hlength, hflatten, -⟩ := readExact_ok hread
  have hlen : UInt32.ofNat buf.length = len := by
    rw [hlength, UInt32.ofNat_toNat]
  refine ⟨⟨?_, h.lengths⟩, ?_⟩
  · rw [h.input, hflatten, frameOf, hlen, List.append_assoc]
  · rw [hlength]
    exact len.toNat_lt

/-- The exchange of a message that has been read takes effect. -/
theorem Heard.concat {body : Bytes} (h : Heard input exchanges (frameOf body) stream)
    (hlength : body.length < 2 ^ 32) (res : Response) :
    Heard input (exchanges ++ [(body, res)]) [] stream := by
  refine ⟨?_, ?_⟩
  · rw [h.input, asked_concat, List.nil_append, List.append_assoc]
  · intro e he
    rcases List.mem_append.mp he with he | he
    · exact h.lengths e he
    · rw [List.mem_singleton.mp he]
      exact hlength

/-- Between a message and its response, everything before it is answered. -/
theorem Heard.transcript {pending : Bytes} {phase : Phase}
    (h : Heard input exchanges pending stream) (hout : stream.written = answered exchanges)
    (hphase : phase = .readLen → pending = []) :
    Transcript input exchanges ⟨stream, phase⟩ where
  lengths := h.lengths
  requests := by
    refine ⟨_, h.input, fun heq => ?_, .inl ?_⟩
    · rw [hphase heq, List.nil_append]
    · rw [hout]
  responses := by
    refine ⟨exchanges, [], (List.append_nil _).symm, Nat.zero_le 1, fun _ => rfl, fun _ => hout, ?_⟩
    rw [hout]

/-- An exchange has taken effect and is still to be answered. -/
theorem Heard.transcript_late {body : Bytes} {res : Response} {phase : Phase}
    (h : Heard input (exchanges ++ [(body, res)]) [] stream)
    (hout : stream.written = answered exchanges) (hphase : phase ≠ .readLen) :
    Transcript input (exchanges ++ [(body, res)]) ⟨stream, phase⟩ where
  lengths := h.lengths
  requests := by
    refine ⟨_, h.input, fun heq => absurd heq hphase, .inl ?_⟩
    rw [hout, answered_concat]
    exact List.prefix_append ..
  responses := by
    refine ⟨exchanges, [(body, res)], rfl, Nat.le_refl 1, fun heq => absurd heq hphase,
      fun _ => hout, ?_⟩
    rw [hout]

end

/-- An exchange over a request is answered as a map would answer it. -/
theorem answers_of_exchange {db db' : Database} {body : Bytes} {req : Request} {res : Response}
    (hdecode : (ProtocolDecoder.new body).decodeRequest = .ok req) (h : Exchange db body res db') :
    Answers db.state.fields req res db'.state.fields := by
  cases h with
  | invalid hinvalid => exact absurd hdecode (hinvalid.ne_ok req)
  | valid hvalid hanswer heffect =>
    rw [hdecode] at hvalid
    cases hvalid
    exact hanswer

section

variable [Texts] {prompt : Prop} {db db' : Database} {c c' : Connection} {input : Bytes}
  {exchanges : List (Bytes × Response)} {stream : TcpStream}

/-- A connection that closes without anything left to answer. -/
theorem Heard.close {pending : Bytes} (h : Heard input exchanges pending stream)
    (hout : stream.written = answered exchanges) (result : PDBResult Unit) :
    InService input exchanges ⟨{ stream with incoming := [] }, .closed result⟩ := by
  have hheard : Heard input (exchanges ++ []) pending
      { ({ stream with incoming := [] } : TcpStream) with incoming :=
        [stream.incoming.flatten] } := by
    rw [List.append_nil]
    exact h.lost
  have hclosed : InService input (exchanges ++ []) ⟨{ stream with incoming := [] },
      .closed result⟩ :=
    .closed stream.incoming.flatten hheard (Nat.zero_le 1) (by rw [hout])
      (.inl (by rw [hout, List.append_nil]))
  rwa [List.append_nil] at hclosed

/-- A message that has been read is answered at once, or its call begins. -/
theorem Heard.handle {body : Bytes} {grants : ℕ → Bool} {phase : Phase}
    (h : Heard input exchanges (frameOf body) stream) (hlength : body.length < 2 ^ 32)
    (hout : stream.written = answered exchanges) (hflight : c.phase.inFlight = [])
    (hphase : handleMessage grants body = some phase) :
    ∃ new, Effect prompt db c new db ⟨stream, phase⟩ ∧
      InService input (exchanges ++ new) ⟨stream, phase⟩ := by
  rcases handleMessage_cases hphase with ⟨req, hdecode, rfl⟩ | ⟨e, hrefused, rfl⟩
    | ⟨-, rfl⟩
  · cases req with
    | ping => exact ⟨_, .answered hdecode .ping hflight rfl, .send (h.concat hlength _) hout⟩
    | get key =>
      refine ⟨[], .quiet hflight.symm, ?_⟩
      rw [List.append_nil]
      exact .waiting h hlength hdecode (.get key) hout
    | set key field =>
      refine ⟨[], .quiet hflight.symm, ?_⟩
      rw [List.append_nil]
      exact .waiting h hlength hdecode (.append rfl) hout
    | del key =>
      refine ⟨[], .quiet hflight.symm, ?_⟩
      rw [List.append_nil]
      exact .waiting h hlength hdecode (.append rfl) hout
    | keys =>
      refine ⟨[], .quiet hflight.symm, ?_⟩
      rw [List.append_nil]
      exact .listKeys h hlength hdecode hout
  · exact ⟨_, .invalid hrefused hflight rfl, .send (h.concat hlength _) hout⟩
  · have hclosed : InService input (exchanges ++ []) ⟨stream, .closed (.error .panic)⟩ :=
      .closed stream.incoming.flatten (by rw [List.append_nil]; exact h.lost) (Nat.zero_le 1)
        (by rw [hout])
        (.inl (by rw [hout, List.append_nil]))
    exact ⟨[], .quiet hflight.symm, hclosed⟩

/-- A request that was refused by the device is answered with the error. -/
theorem respond_of_entryOf {req : Request} {entry : WalEntry} (hentry : entryOf req = some entry)
    (e : IoError) :
    respond req (.error (.err (.io e))) = .send (.serverError (PeachDbError.io e).display) := by
  cases req with
  | set key field => rfl
  | del key => rfl
  | ping => cases hentry
  | get key => cases hentry
  | keys => cases hentry

/-- A connection that has just been accepted. -/
theorem inService_accept (incoming : List Bytes) (ending : Ending) :
    InService incoming.flatten [] (.accept incoming ending) :=
  .readLen ⟨rfl, by simp⟩ rfl

/-- At first no exchange has been made. -/
theorem performed_accepted (clients : List (List Bytes × Ending)) :
    Performed (InServiceAt clients) [] (accepted clients) := by
  intro i c hc
  rw [accepted, List.getElem?_map] at hc
  obtain ⟨client, hclient, rfl⟩ := Option.map_eq_some_iff.mp hc
  exact ⟨client, hclient, inService_accept _ _⟩

/-- A connection in service can tell its exchanges. -/
theorem InService.transcript (h : InService input exchanges c) : Transcript input exchanges c := by
  cases h with
  | readLen h hout => exact h.transcript hout fun _ => rfl
  | readBody h hout => exact h.transcript hout fun heq => by cases heq
  | waiting h hlength hdecode htask hout => exact h.transcript hout fun heq => by cases heq
  | listKeys h hlength hdecode hout => exact h.transcript hout fun heq => by cases heq
  | called h hresult hres hout => exact h.transcript_late hout (by simp)
  | send h hout => exact h.transcript_late hout (by simp)
  | giveUp behind h hcut hout =>
    refine ⟨h.lengths, ⟨_, h.input, ?_, .inl ?_⟩, _, [], (List.append_nil _).symm,
      Nat.zero_le 1, fun _ => rfl, fun _ => hout, ?_⟩
    · intro heq
      cases heq
    · exact hout.symm ▸ List.prefix_refl _
    · exact hout.symm ▸ List.prefix_refl _
  | closed behind h hlate hdone hout =>
    have hflatten : [behind].flatten = behind := List.flatten_singleton
    refine ⟨h.lengths, ⟨_, h.input, ?_, by rw [hflatten]; exact hout⟩, _, _, rfl, hlate, ?_,
      fun hopen => absurd rfl (hopen _), hdone⟩
    · intro heq
      cases heq
    · intro heq
      cases heq

/-- What the connections have done, every client can tell. -/
theorem Performed.witnessed {clients : List (List Bytes × Ending)}
    {h : List (Event Bytes Response)} {conns : List Connection}
    (hperformed : Performed (InServiceAt clients) h conns)
    (hplaces : ∀ e ∈ h, e.place < clients.length) (hlength : conns.length = clients.length) :
    Witnessed clients h conns := by
  refine ⟨hplaces, hlength, ?_, fun e _ hform hfits => carries_framed hform hfits⟩
  intro i client c hclient hc
  obtain ⟨client', hclient', hservice⟩ := hperformed i c hc
  rw [hclient] at hclient'
  cases hclient'
  exact hservice.transcript

/-- What a connection does to the fields is what it answers. -/
theorem Effect.serves {new : List (Bytes × Response)} (h : Effect prompt db c new db' c') :
    (new = [] ∧ db'.state.fields = db.state.fields) ∨
      ∃ body res, new = [(body, res)] ∧ Serves db.state.fields body res db'.state.fields := by
  cases h with
  | quiet hflight => exact .inl ⟨rfl, rfl⟩
  | logged entry hdecode hentry hlength hbefore hafter hfile => exact .inl ⟨rfl, rfl⟩
  | invalid hdecode hbefore hafter => exact .inr ⟨_, _, rfl, .invalid hdecode⟩
  | answered hdecode hanswer hbefore hafter => exact .inr ⟨_, _, rfl, .answered hdecode hanswer⟩
  | refused e hdecode hentry hfailed => exact .inr ⟨_, _, rfl, .refused e hdecode hentry⟩

end

section

variable [Crc] [Texts] {db db' : Database} {c c' : Connection} {choice : ConnChoice} {input : Bytes}
  {exchanges : List (Bytes × Response)} {stream : TcpStream}

/-- One section of a call that has not taken effect. -/
theorem Waiting.step {body : Bytes} {req : Request} {task : Task} (htask : Waiting req task)
    (h : Heard input exchanges (frameOf body) stream) (hlength : body.length < 2 ^ 32)
    (hdecode : (ProtocolDecoder.new body).decodeRequest = .ok req)
    (hout : stream.written = answered exchanges)
    (hstep : Connection.step choice db ⟨stream, .call req task⟩ = some (db', c')) :
    ∃ new, Effect choice.task.Prompt db ⟨stream, .call req task⟩ new db' c' ∧
      InService input (exchanges ++ new) c' := by
  cases htask with
  | get key =>
    simp only [Connection.step, resultOf, Task.step, Option.map_some, Option.some.injEq,
      Prod.mk.injEq] at hstep
    obtain ⟨rfl, rfl⟩ := hstep
    cases hfield : db.state.fields.lookup key with
    | none =>
      have hget : db.get key = failWith .keyNotFound := by rw [get_eq, readOf, hfield]; rfl
      exact ⟨_, .answered hdecode (.missing hfield) rfl rfl,
        .called (h.concat hlength _) rfl (by rw [hget]; rfl) hout⟩
    | some field =>
      have hget : db.get key = .ok field := by rw [get_eq, readOf, hfield]; rfl
      exact ⟨_, .answered hdecode (.found hfield) rfl rfl,
        .called (h.concat hlength _) rfl (by rw [hget]; rfl) hout⟩
  | @append _ entry hentry =>
    simp only [Connection.step, resultOf, Task.step, Option.map_some, Option.some.injEq,
      Prod.mk.injEq] at hstep
    cases hcommand : db.wal.appendEntry choice.task.first choice.task.second entry with
    | mk result wal =>
      rw [hcommand] at hstep
      obtain ⟨rfl, rfl⟩ := hstep
      cases result with
      | ok u =>
        have hentries := Wal.appendEntry_entries hcommand
        have hfile : choice.task.Prompt → wal.file = db.wal.file ++ walBytes entry := by
          intro hprompt
          rw [Wal.appendEntry_ok hprompt.1 hcommand]
        obtain ⟨file, entries⟩ := wal
        dsimp only at hentries
        subst hentries
        refine ⟨[], .logged entry hdecode hentry hlength rfl rfl hfile, ?_⟩
        rw [List.append_nil]
        exact .waiting h hlength hdecode (.update hentry) hout
      | error e =>
        obtain ⟨inner, rfl⟩ := Wal.appendEntry_error hcommand
        exact ⟨_, .refused (.other inner) hdecode hentry rfl,
          .called (h.concat hlength _) rfl (respond_of_entryOf hentry _) hout⟩
  | @update _ entry hentry =>
    simp only [Connection.step, resultOf, Task.step, Option.map_some, Option.some.injEq,
      Prod.mk.injEq] at hstep
    obtain ⟨rfl, rfl⟩ := hstep
    have hexchange : Exchange db _ _ _ := exchange_of_calling hentry hdecode
    have hanswer := answers_of_exchange hdecode hexchange
    refine ⟨_, .answered hdecode hanswer ?_ rfl, .called (h.concat hlength _) rfl rfl hout⟩
    rw [hentry]
    rfl

omit [Crc] in
/-- A section that does nothing to the database. -/
theorem InService.quiet {input : Bytes} (h : InService input exchanges c')
    (hflight : c'.phase.inFlight = c.phase.inFlight) :
    ∃ new, Effect choice.task.Prompt db c new db c' ∧
      InService input (exchanges ++ new) c' := by
  refine ⟨[], .quiet hflight, ?_⟩
  rwa [List.append_nil]

/-- The length of a message is read, or the input ends before it. -/
theorem Heard.step_readLen (h : Heard input exchanges [] stream)
    (hout : stream.written = answered exchanges)
    (hstep : Connection.step choice db ⟨stream, .readLen⟩ = some (db', c')) :
    ∃ new, Effect choice.task.Prompt db ⟨stream, .readLen⟩ new db' c' ∧
      InService input (exchanges ++ new) c' := by
  simp only [Connection.step] at hstep
  split at hstep
  · next hread =>
    cases hstep
    exact InService.quiet (.readBody (h.length hread) ((readExact_ok hread).2.2.trans hout)) rfl
  all_goals
    next hread =>
    cases hstep
    rw [(readExact_error hread).1]
    exact InService.quiet (h.close hout _) rfl

/-- A message is read, or the input ends inside it. -/
theorem Heard.step_readBody {n : UInt32} (h : Heard input exchanges (beU32 n) stream)
    (hout : stream.written = answered exchanges)
    (hstep : Connection.step choice db ⟨stream, .readBody n.toNat⟩ = some (db', c')) :
    ∃ new, Effect choice.task.Prompt db ⟨stream, .readBody n.toNat⟩ new db' c' ∧
      InService input (exchanges ++ new) c' := by
  simp only [Connection.step] at hstep
  split at hstep
  · next hread =>
    obtain ⟨phase, hphase, heq⟩ := Option.map_eq_some_iff.mp hstep
    cases heq
    obtain ⟨hheard, hlength⟩ := h.message hread
    exact hheard.handle hlength ((readExact_ok hread).2.2.trans hout) rfl hphase
  · next hread =>
    cases hstep
    obtain ⟨hstream, hshort⟩ := readExact_error hread
    rw [hstream]
    exact InService.quiet (.giveUp _ h.lost (cutOff_of_short hshort) hout) rfl

/-- A call that has returned hands over its response. -/
theorem Heard.step_called {body : Bytes} {req : Request} {task : Task}
    {result : PDBResult (Option Field)} {res : Response}
    (h : Heard input (exchanges ++ [(body, res)]) [] stream) (hresult : resultOf task = some result)
    (hres : respond req result = .send res) (hout : stream.written = answered exchanges)
    (hstep : Connection.step choice db ⟨stream, .call req task⟩ = some (db', c')) :
    ∃ new, Effect choice.task.Prompt db ⟨stream, .call req task⟩ new db' c' ∧
      InService input (exchanges ++ [(body, res)] ++ new) c' := by
  simp only [Connection.step, hresult] at hstep
  cases hstep
  have hflight : (Phase.call req task).inFlight = [] := by
    unfold Phase.inFlight
    split
    · next heq =>
      cases heq
      cases hresult
    · rfl
  rw [hres]
  exact InService.quiet (.send h hout) hflight.symm

/-- A response is written, or a part of it when the connection breaks. -/
theorem Heard.step_send {body : Bytes} {res : Response}
    (h : Heard input (exchanges ++ [(body, res)]) [] stream)
    (hout : stream.written = answered exchanges)
    (hstep : Connection.step choice db ⟨stream, .send res⟩ = some (db', c')) :
    ∃ new, Effect choice.task.Prompt db ⟨stream, .send res⟩ new db' c' ∧
      InService input (exchanges ++ [(body, res)] ++ new) c' := by
  simp only [Connection.step] at hstep
  cases hnet : choice.net with
  | done =>
    rw [hnet] at hstep
    cases hstep
    refine InService.quiet (.readLen ⟨h.input, h.lengths⟩ ?_) rfl
    rw [answered_concat, ← hout]
    rfl
  | failed n | deferred n =>
    rw [hnet] at hstep
    cases hstep
    have hlost : Heard input (exchanges ++ [(body, res)]) []
        ({ stream with
          incoming := [stream.incoming.flatten]
          written := stream.written ++ (framed res).take n } : TcpStream) :=
      ⟨h.lost.input, h.lengths⟩
    refine InService.quiet (.closed _ hlost (Nat.le_refl 1) ?_ ?_) rfl
    · rw [← hout]
      exact List.prefix_append ..
    · rw [answered_concat, ← hout]
      exact .inl ((List.prefix_append_right_inj _).mpr (List.take_prefix ..))

/-- What is written to a client whose message is cut off, and how much of it. -/
theorem Heard.step_giveUp {pending behind : Bytes}
    (h : Heard input exchanges pending { stream with incoming := [behind] })
    (hcut : CutOff (pending ++ behind)) (hout : stream.written = answered exchanges)
    (hstep : Connection.step choice db ⟨stream, .giveUp cutOffResponse⟩ = some (db', c')) :
    ∃ new, Effect choice.task.Prompt db ⟨stream, .giveUp cutOffResponse⟩ new db' c' ∧
      InService input (exchanges ++ new) c' := by
  simp only [Connection.step] at hstep
  cases hstep
  have hwritten : ∃ part, part <+: framed cutOffResponse ∧
      (stream.writeAll choice.net (framed cutOffResponse)).2 =
        { stream with written := stream.written ++ part } := by
    cases choice.net with
    | done => exact ⟨_, List.prefix_refl _, rfl⟩
    | failed n | deferred n => exact ⟨_, List.take_prefix n _, rfl⟩
  obtain ⟨part, hpart, hstream⟩ := hwritten
  rw [hstream]
  have hheard : Heard input (exchanges ++ []) pending
      ({ stream with incoming := [behind], written := stream.written ++ part } : TcpStream) := by
    rw [List.append_nil]
    exact ⟨h.input, h.lengths⟩
  refine ⟨[], .quiet rfl, .closed behind hheard (Nat.zero_le 1) ?_ ?_⟩
  · rw [← hout]
    exact List.prefix_append ..
  · rw [List.append_nil, ← hout]
    exact .inr ⟨hcut, (List.prefix_append_right_inj _).mpr hpart⟩

/-- Every section of a connection keeps it in service and has one of the
effects. -/
theorem InService.step (h : InService input exchanges c)
    (hstep : c.step choice db = some (db', c')) :
    ∃ new, Effect choice.task.Prompt db c new db' c' ∧
      InService input (exchanges ++ new) c' := by
  cases h with
  | readLen h hout => exact h.step_readLen hout hstep
  | readBody h hout => exact h.step_readBody hout hstep
  | waiting h hlength hdecode htask hout => exact htask.step h hlength hdecode hout hstep
  | listKeys h hlength hdecode hout =>
    simp only [Connection.step, Option.ite_none_right_eq_some] at hstep
    obtain ⟨horder, hstep⟩ := hstep
    cases hstep
    have hanswer := answers_of_exchange hdecode (exchange_of_keys hdecode horder)
    exact ⟨_, .answered hdecode hanswer rfl rfl, .send (h.concat hlength _) hout⟩
  | called h hresult hres hout => exact h.step_called hresult hres hout hstep
  | send h hout => exact h.step_send hout hstep
  | giveUp behind h hcut hout => exact h.step_giveUp hcut hout hstep
  | closed => cases hstep

/-- A section of a connection does at most one exchange with the map. -/
theorem commits_exchanges (clients : List (List Bytes × Ending)) :
    Commits Connection.step anyStep Serves (fun db => db.state.fields) (InServiceAt clients) := by
  rintro i exchanges choice db others c db' c' - hstep ⟨client, hclient, hservice⟩
  obtain ⟨new, heffect, hservice'⟩ := hservice.step hstep
  rcases heffect.serves with ⟨rfl, hfields⟩ | ⟨body, res, rfl, hserves⟩
  · refine .inl ⟨hfields, client, hclient, ?_⟩
    rwa [List.append_nil] at hservice'
  · exact .inr ⟨body, res, hserves, client, hclient, hservice'⟩

/-- The connections of every behaviour have one history. -/
theorem exists_history {clients : List (List Bytes × Ending)} {db₀ : Database}
    {σ : ℕ → Pool Database Connection} (hstart : σ 0 = ⟨db₀, accepted clients⟩)
    (hσ : Behaviour Connection.step anyStep σ) :
    ∃ h : ℕ → List (Event Bytes Response), (∀ m n, m ≤ n → h m <+: h n) ∧ ∀ n,
      Legal Serves db₀.state.fields (h n) (σ n).shared.state.fields ∧
        (∀ e ∈ h n, e.place < clients.length) ∧ (σ n).tasks.length = clients.length ∧
        Performed (InServiceAt clients) (h n) (σ n).tasks := by
  have haccepted : (accepted clients).length = clients.length := List.length_map _
  have hperformed : Performed (InServiceAt clients) [] (σ 0).tasks := by
    rw [hstart]
    exact performed_accepted clients
  have hhistory := hperformed.behaviour (commits_exchanges clients) hσ
  simp only [hstart, haccepted] at hhistory
  exact hhistory

/-- The server is linearizable: whatever the clients send, in whatever chunks,
and however their connections interleave and fail, there is one order of all
exchanges of a behaviour in which a map gives the responses. At every time the
exchanges until then are the first ones, so that what is done when an exchange
begins stands before it, and each client can tell exactly its own. -/
theorem server_linearizable {clients : List (List Bytes × Ending)} {db₀ : Database}
    {σ : ℕ → Pool Database Connection} (hstart : σ 0 = ⟨db₀, accepted clients⟩)
    (hσ : Behaviour Connection.step anyStep σ) :
    ∃ h : ℕ → List (Event Bytes Response), (∀ m n, m ≤ n → h m <+: h n) ∧ ∀ n,
      Legal Serves db₀.state.fields (h n) (σ n).shared.state.fields ∧
        Witnessed clients (h n) (σ n).tasks := by
  obtain ⟨h, hgrows, hhistory⟩ := exists_history hstart hσ
  refine ⟨h, hgrows, fun n => ?_⟩
  obtain ⟨hlegal, hplaces, hlength, hperformed⟩ := hhistory n
  exact ⟨hlegal, Performed.witnessed hperformed hplaces hlength⟩

end

open scoped IsoHdlc LinuxTexts

/-- One client sets a key and another one reads it. -/
def setAndGet : List (List Bytes × Ending) :=
  [([(ProtocolEncoder.new.encodeRequest (.set (.ofText "k") (.primitive (.integer 9)))).frame],
    .eof), ([(ProtocolEncoder.new.encodeRequest (.get (.ofText "k"))).frame], .eof)]

/-- The key is read while the response to the first client is still to be
written. -/
def setAndGetSchedule : List (ℕ × ConnChoice) :=
  [(0, .plain), (0, .plain), (1, .plain), (0, .plain), (1, .plain), (0, .plain), (1, .plain),
    (1, .plain), (0, .plain), (0, .plain), (1, .plain)]

/-- A new database and the two connections. -/
def setAndGetPool : Pool Database Connection :=
  ⟨Database.new "db" [] ⟨[], []⟩, accepted setAndGet⟩

/-- The behaviour of the two connections has a history. -/
theorem server_linearizable_setAndGet :
    let σ := played Connection.step anyStep setAndGetSchedule setAndGetPool
    ∃ h : ℕ → List (Event Bytes Response), (∀ m n, m ≤ n → h m <+: h n) ∧ ∀ n,
      Legal Serves ∅ (h n) (σ n).shared.state.fields ∧
      Witnessed setAndGet (h n) (σ n).tasks :=
  server_linearizable (played_zero setAndGetSchedule setAndGetPool) (behaviour_played _ _)

end PeachDB.Server
