import PeachDB.ProtocolRoundTrip

/-!
# Requests and responses on one connection

A connection without other clients whose file commands and writes do not fail,
on a stream of whole messages and a remainder. It answers every message, in
order: as a map would answer the request, or with `InvalidRequest` when the
message cannot be decoded. The chunks in which the stream arrives do not matter.
-/

namespace PeachDB.Server

open LittleEndian Dtypes RecordCodec FileHandler WriteAheadLog Interleaving Db Protocol

/-- How a map answers a request, and the map behind it. -/
inductive Answers (m : HashMap Key Field) : Request → Response → HashMap Key Field → Prop
  /-- `Ping` is answered with nothing. -/
  | ping : Answers m .ping (.ok none) m
  /-- `Get` of a key that is there. -/
  | found {key : Key} {field : Field} (h : m.lookup key = some field) :
      Answers m (.get key) (.ok (some field)) m
  /-- `Get` of a key that is not there. -/
  | missing {key : Key} (h : m.lookup key = none) : Answers m (.get key) .notFound m
  /-- `Set` is answered when the key has its value. -/
  | set (key : Key) (field : Field) : Answers m (.set key field) (.ok none) (m.insert key field)
  /-- `Del` is answered also when the key was not there. -/
  | del (key : Key) : Answers m (.del key) (.ok none) (m.erase key)
  /-- `Keys` lists each key once. -/
  | keys {keys : List Key} (hnodup : keys.Nodup) (hmem : ∀ key, key ∈ keys ↔ key ∈ m) :
      Answers m .keys (.keys keys) m

/-- The log entry of a request. -/
def entryOf : Request → Option WalEntry
  | .set key field => some (.set key field)
  | .del key => some (.delete key)
  | .ping => none
  | .get _ => none
  | .keys => none

/-- The database behind a write. -/
def written (db : Database) (entry : WalEntry) : Database :=
  { db with
    state := { db.state with fields := applyEntry db.state.fields entry }
    wal := ⟨db.wal.file ++ walBytes entry, db.wal.entries ++ [entry]⟩ }

/-- One message and its response: a message that cannot be decoded has no
effect; a request is answered from the fields, and only a write has an effect. -/
inductive Exchange (db : Database) (body : Bytes) : Response → Database → Prop
  /-- A message that cannot be decoded changes nothing. -/
  | invalid {e : PeachDbError} (hdecode : Fails (ProtocolDecoder.new body).decodeRequest e) :
      Exchange db body .invalidRequest db
  /-- A request is answered as by the map. -/
  | valid {req : Request} {res : Response} {db' : Database}
      (hdecode : (ProtocolDecoder.new body).decodeRequest = .ok req)
      (hanswer : Answers db.state.fields req res db'.state.fields)
      (heffect : db' = (entryOf req).elim db (written db)) : Exchange db body res db'

/-- Messages and their responses, one after another. -/
inductive Conversation (db₀ : Database) : List Bytes → List Response → Database → Prop
  /-- Nothing has been said. -/
  | nil : Conversation db₀ [] [] db₀
  /-- One more message has been answered. -/
  | snoc {bodies : List Bytes} {body : Bytes} {responses : List Response} {res : Response}
      {db db' : Database} (hbefore : Conversation db₀ bodies responses db)
      (hlast : Exchange db body res db') :
      Conversation db₀ (bodies ++ [body]) (responses ++ [res]) db'

/-- What has been written behind the responses when the remainder has ended. -/
def lastWords (remainder : Bytes) : Bytes :=
  if remainder.length < 4 then [] else framed (.serverError "failed to read message")

/-- The steps that a connection may still make, at most. -/
def Phase.rank : Phase → ℕ
  | .closed _ => 0
  | .readLen => 1
  | .giveUp _ => 1
  | .send _ => 2
  | .listKeys => 3
  | .call _ (.write _ .append) => 5
  | .call _ (.write _ .update) => 4
  | .call _ (.get _ none) => 4
  | .call _ _ => 3
  | .readBody _ => 6

/-- Every four bytes pay for the steps of one message. -/
def Connection.budget (c : Connection) : ℕ := 2 * c.stream.incoming.flatten.length + c.phase.rank

section

variable [Crc] [Texts]

/-- A request that is being answered by a call, as the database was when it
began. -/
inductive Calling (db : Database) : Request → Task → Database → Prop
  | get (key : Key) : Calling db (.get key) (.get key none) db
  | got (key : Key) : Calling db (.get key) (.get key (some (db.get key))) db
  | append {req : Request} {entry : WalEntry} (hentry : entryOf req = some entry) :
      Calling db req (.write entry .append) db
  | update {req : Request} {entry : WalEntry} (hentry : entryOf req = some entry) :
      Calling db req (.write entry .update)
        { db with wal := ⟨db.wal.file ++ walBytes entry, db.wal.entries ++ [entry]⟩ }
  | done {req : Request} {entry : WalEntry} (hentry : entryOf req = some entry) :
      Calling db req (.write entry .done) (written db entry)

/-- The messages of `front` have been answered, and `input` is still to be
read. -/
structure Served (db₀ : Database) (front : List Bytes) (responses : List Response) (db : Database)
    (stream : TcpStream) (input : Bytes) : Prop where
  /-- The messages in front have been answered. -/
  conversation : Conversation db₀ front responses db
  /-- The bytes that are still to be read. -/
  input : stream.incoming.flatten = input
  /-- The client ends its stream. -/
  ending : stream.ending = .eof
  /-- The answers have been written, and nothing else. -/
  output : stream.written = responses.flatMap framed

/-- The state of a connection between two steps. -/
inductive Serving (db₀ : Database) (bodies : List Bytes) (remainder : Bytes) :
    Database → Connection → Prop
  /-- About to read a length. -/
  | readLen {front back : List Bytes} {responses : List Response} {db : Database}
      {stream : TcpStream} (hbodies : bodies = front ++ back)
      (h : Served db₀ front responses db stream (back.flatMap frameOf ++ remainder)) :
      Serving db₀ bodies remainder db ⟨stream, .readLen⟩
  /-- About to read the message behind a length. -/
  | readBody {front back : List Bytes} {body : Bytes} {responses : List Response} {db : Database}
      {stream : TcpStream} (hbodies : bodies = front ++ body :: back)
      (h : Served db₀ front responses db stream (body ++ (back.flatMap frameOf ++ remainder))) :
      Serving db₀ bodies remainder db ⟨stream, .readBody body.length⟩
  /-- About to read a message of which bytes are missing. -/
  | cutOff {responses : List Response} {db : Database} {stream : TcpStream} {input : Bytes}
      {n : ℕ} (h : Served db₀ bodies responses db stream input)
      (hlength : 4 ≤ remainder.length) (hshort : input.length < n) :
      Serving db₀ bodies remainder db ⟨stream, .readBody n⟩
  /-- In a call into the database. -/
  | call {front back : List Bytes} {body : Bytes} {responses : List Response} {db db' : Database}
      {stream : TcpStream} {req : Request} {task : Task} (hbodies : bodies = front ++ body :: back)
      (h : Served db₀ front responses db stream (back.flatMap frameOf ++ remainder))
      (hdecode : (ProtocolDecoder.new body).decodeRequest = .ok req)
      (hcall : Calling db req task db') :
      Serving db₀ bodies remainder db' ⟨stream, .call req task⟩
  /-- About to list the keys. -/
  | listKeys {front back : List Bytes} {body : Bytes} {responses : List Response} {db : Database}
      {stream : TcpStream} (hbodies : bodies = front ++ body :: back)
      (h : Served db₀ front responses db stream (back.flatMap frameOf ++ remainder))
      (hdecode : (ProtocolDecoder.new body).decodeRequest = .ok .keys) :
      Serving db₀ bodies remainder db ⟨stream, .listKeys⟩
  /-- About to write a response. -/
  | send {front back : List Bytes} {body : Bytes} {responses : List Response} {res : Response}
      {db db' : Database} {stream : TcpStream} (hbodies : bodies = front ++ body :: back)
      (h : Served db₀ front responses db stream (back.flatMap frameOf ++ remainder))
      (hexchange : Exchange db body res db') :
      Serving db₀ bodies remainder db' ⟨stream, .send res⟩
  /-- About to write an error and end. -/
  | giveUp {responses : List Response} {db : Database} {stream : TcpStream} {input : Bytes}
      (h : Served db₀ bodies responses db stream input) (hlength : 4 ≤ remainder.length) :
      Serving db₀ bodies remainder db
        ⟨stream, .giveUp (.serverError "failed to read message")⟩
  /-- All has been answered. -/
  | closed {responses : List Response} {db : Database} {stream : TcpStream}
      (hconversation : Conversation db₀ bodies responses db)
      (houtput : stream.written = responses.flatMap framed ++ lastWords remainder) :
      Serving db₀ bodies remainder db ⟨stream, .closed (.ok ())⟩

variable {db₀ db db' : Database} {bodies : List Bytes} {remainder : Bytes} {c c' : Connection}
  {choice : ConnChoice} {stream : TcpStream}

/-- Steps that do not fail are steps. -/
theorem step_of_stepOk (h : c.stepOk choice db = some (db', c')) :
    choice.net = .done ∧ c.step choice db = some (db', c') := by
  rw [Connection.stepOk, Option.ite_none_right_eq_some] at h
  obtain ⟨⟨hnet, -⟩, h⟩ := h
  split at h
  · cases h
  · exact ⟨hnet, h⟩

/-- They are steps on prompt files. -/
theorem prompt_of_stepOk (h : c.stepOk choice db = some (db', c')) : choice.task.Prompt :=
  (Option.ite_none_right_eq_some.mp h).1.2

/-- The steps of a call are those of its task. -/
theorem moves_of_stepOk_call {req : Request} {task : Task} (hresult : resultOf task = none)
    (h : Connection.stepOk choice db ⟨stream, .call req task⟩ = some (db', c')) :
    ∃ task', c' = ⟨stream, .call req task'⟩ ∧ Moves db task db' task' := by
  have hprompt := Server.prompt_of_stepOk h
  rw [Connection.stepOk, Option.ite_none_right_eq_some] at h
  obtain ⟨-, h⟩ := h
  simp only [Connection.step, hresult] at h
  split at h
  · cases h
  · rename_i hfailed
    obtain ⟨⟨db₁, task'⟩, htask, hout⟩ := Option.map_eq_some_iff.mp h
    cases hout
    have hne : ∀ e, task' ≠ .failed e := by
      rintro e rfl
      exact absurd (by rw [htask]; rfl) (hfailed db₁ stream req e)
    exact ⟨task', rfl, moves_of_stepOk (taskStepOk_of_step hprompt htask hne)⟩

omit [Crc] [Texts] in
/-- A message is decoded and answered, or a call on the database begins. -/
theorem serving_handleMessage {front back : List Bytes} {body : Bytes} {responses : List Response}
    {grants : ℕ → Bool} {phase : Phase} (hbodies : bodies = front ++ body :: back)
    (hdecode : ¬ Panics (ProtocolDecoder.new body).decodeRequest)
    (h : Served db₀ front responses db stream (back.flatMap frameOf ++ remainder))
    (hphase : handleMessage grants body = some phase) :
    Serving db₀ bodies remainder db ⟨stream, phase⟩ ∧ phase.rank ≤ 5 := by
  rcases handleMessage_cases hphase with ⟨req, hreq, rfl⟩ | ⟨e, hrefused, rfl⟩
    | ⟨hpanics, -⟩
  · cases req with
    | ping => exact ⟨.send hbodies h (.valid hreq .ping rfl),
      by simp [handleRequest, Phase.rank]⟩
    | get key => exact ⟨.call hbodies h hreq (.get key), by simp [handleRequest, Phase.rank]⟩
    | set key field =>
      exact ⟨.call hbodies h hreq (.append rfl), by simp [handleRequest, Phase.rank]⟩
    | del key => exact ⟨.call hbodies h hreq (.append rfl), by simp [handleRequest, Phase.rank]⟩
    | keys => exact ⟨.listKeys hbodies h hreq, by simp [handleRequest, Phase.rank]⟩
  · exact ⟨.send hbodies h (.invalid hrefused), by simp [Phase.rank]⟩
  · exact absurd hpanics hdecode

omit [Crc] [Texts] in
/-- The answer to a request when its call has returned. -/
theorem exchange_of_calling {body : Bytes} {req : Request} {entry : WalEntry}
    (hentry : entryOf req = some entry)
    (hdecode : (ProtocolDecoder.new body).decodeRequest = .ok req) :
    Exchange db body (.ok none) (written db entry) := by
  refine .valid hdecode ?_ (by rw [hentry]; rfl)
  cases req with
  | set key field =>
    cases hentry
    exact .set key field
  | del key =>
    cases hentry
    exact .del key
  | ping => cases hentry
  | get key => cases hentry
  | keys => cases hentry

omit [Crc] [Texts] in
/-- Every iteration order of the fields lists each key once. -/
theorem exchange_of_keys {body : Bytes} {order : List (Key × Field)}
    (hdecode : (ProtocolDecoder.new body).decodeRequest = .ok .keys)
    (horder : IterOrder db.state.fields order) :
    Exchange db body (.keys (order.map Prod.fst)) db := by
  refine .valid hdecode (.keys horder.nodup fun key => ?_) rfl
  rw [List.mem_map, ← Finmap.lookup_isSome, Option.isSome_iff_exists]
  constructor
  · rintro ⟨⟨key, field⟩, hmem, rfl⟩
    exact ⟨field, horder.mem_iff.mp hmem⟩
  · rintro ⟨field, hfield⟩
    exact ⟨(key, field), horder.mem_iff.mpr hfield, rfl⟩

/-- Behind the last message the connection ends, or waits for a message that is
cut off. -/
theorem Served.step_remainder {responses : List Response}
    (h : Served db₀ bodies responses db stream remainder) (hremainder : Incomplete remainder)
    (hstep : Connection.step choice db ⟨stream, .readLen⟩ = some (db', c')) :
    Serving db₀ bodies remainder db' c' ∧
      c'.budget < (⟨stream, .readLen⟩ : Connection).budget := by
  by_cases hshort : remainder.length < 4
  · have hread := readExact_short (n := 4) (h.input.symm ▸ hshort)
    simp only [Connection.step, hread, h.ending] at hstep
    cases hstep
    refine ⟨.closed h.conversation ?_, ?_⟩
    · rw [h.output, lastWords, if_pos hshort, List.append_nil]
    · simp only [Connection.budget, Phase.rank, List.flatten_nil, List.length_nil]
      omega
  · have hsplit : remainder = remainder.take 4 ++ remainder.drop 4 :=
      (List.take_append_drop 4 remainder).symm
    have hword : (remainder.take 4).length = 4 := by
      rw [List.length_take]
      omega
    obtain ⟨incoming, hread, hrest⟩ := readExact_of_flatten (h.input.trans hsplit) hword
    simp only [Connection.step, hread] at hstep
    cases hstep
    refine ⟨.cutOff ⟨h.conversation, hrest, h.ending, h.output⟩ (by omega) ?_, ?_⟩
    · rw [List.length_drop]
      rw [Incomplete] at hremainder
      omega
    · simp only [Connection.budget, Phase.rank, hrest, h.input, List.length_drop]
      omega

/-- The length of the next message is read. -/
theorem Served.step_length {front back : List Bytes} {body : Bytes} {responses : List Response}
    (hbodies : bodies = front ++ body :: back) (hlength : body.length < 2 ^ 32)
    (h : Served db₀ front responses db stream ((body :: back).flatMap frameOf ++ remainder))
    (hstep : Connection.step choice db ⟨stream, .readLen⟩ = some (db', c')) :
    Serving db₀ bodies remainder db' c' ∧
      c'.budget < (⟨stream, .readLen⟩ : Connection).budget := by
  have hinput := h.input
  rw [List.flatMap_cons, List.append_assoc, frameOf, List.append_assoc] at hinput
  obtain ⟨incoming, hread, hrest⟩ := readExact_of_flatten hinput (length_beU32 _)
  have hn : (UInt32.ofNat body.length).toNat = body.length := by
    rw [UInt32.toNat_ofNat_of_lt' hlength]
  simp only [Connection.step, hread, fromBeU32_beU32, hn] at hstep
  cases hstep
  refine ⟨.readBody hbodies ⟨h.conversation, hrest, h.ending, h.output⟩, ?_⟩
  simp only [Connection.budget, Phase.rank, hrest, hinput, List.length_append, length_beU32]
  omega

/-- A call on the database goes on, or its result is answered. -/
theorem Served.step_call {front back : List Bytes} {body : Bytes} {responses : List Response}
    {db₁ : Database} {req : Request} {task : Task} (hbodies : bodies = front ++ body :: back)
    (h : Served db₀ front responses db₁ stream (back.flatMap frameOf ++ remainder))
    (hdecode : (ProtocolDecoder.new body).decodeRequest = .ok req)
    (hcall : Calling db₁ req task db)
    (hstep : Connection.stepOk choice db ⟨stream, .call req task⟩ = some (db', c')) :
    Serving db₀ bodies remainder db' c' ∧
      c'.budget < (⟨stream, .call req task⟩ : Connection).budget := by
  obtain ⟨-, hout⟩ := step_of_stepOk hstep
  cases hcall with
  | get key =>
    obtain ⟨task', rfl, hmove⟩ := moves_of_stepOk_call rfl hstep
    cases hmove
    exact ⟨.call hbodies h hdecode (.got key), by simp [Connection.budget, Phase.rank]⟩
  | got key =>
    simp only [Connection.step, resultOf, get_eq, readOf] at hout
    cases hfield : db.state.fields.lookup key with
    | none =>
      rw [hfield] at hout
      cases hout
      exact ⟨.send hbodies h (.valid hdecode (.missing hfield) rfl), by
        simp [Connection.budget, respond, Except.map, Phase.rank]⟩
    | some field =>
      rw [hfield] at hout
      cases hout
      exact ⟨.send hbodies h (.valid hdecode (.found hfield) rfl), by
        simp [Connection.budget, respond, Except.map, Phase.rank]⟩
  | append hentry =>
    obtain ⟨task', rfl, hmove⟩ := moves_of_stepOk_call rfl hstep
    cases hmove
    exact ⟨.call hbodies h hdecode (.update hentry), by simp [Connection.budget, Phase.rank]⟩
  | update hentry =>
    obtain ⟨task', rfl, hmove⟩ := moves_of_stepOk_call rfl hstep
    cases hmove
    exact ⟨.call hbodies h hdecode (.done hentry), by simp [Connection.budget, Phase.rank]⟩
  | done hentry =>
    simp only [Connection.step, resultOf] at hout
    cases hout
    exact ⟨.send hbodies h (exchange_of_calling hentry hdecode), by
      simp [Connection.budget, respond, Phase.rank]⟩

/-- Each step of a connection goes on serving, and uses some of its budget. -/
theorem Serving.step (h : Serving db₀ bodies remainder db c)
    (hlength : ∀ body ∈ bodies, body.length < 2 ^ 32)
    (hdecode : ∀ body ∈ bodies, ¬ Panics (ProtocolDecoder.new body).decodeRequest)
    (hremainder : Incomplete remainder) (hstep : c.stepOk choice db = some (db', c')) :
    Serving db₀ bodies remainder db' c' ∧ c'.budget < c.budget := by
  obtain ⟨hnet, hout⟩ := step_of_stepOk hstep
  cases h with
  | @readLen front back responses db stream hbodies h =>
    cases back with
    | nil =>
      rw [List.append_nil] at hbodies
      subst hbodies
      exact h.step_remainder hremainder hout
    | cons body back => exact h.step_length hbodies (hlength body (by simp [hbodies])) hout
  | @readBody front back body responses db stream hbodies h =>
    obtain ⟨incoming, hread, hrest⟩ := readExact_of_flatten h.input rfl
    simp only [Connection.step, hread] at hout
    obtain ⟨phase, hphase, heq⟩ := Option.map_eq_some_iff.mp hout
    cases heq
    have hserved : Served db₀ front responses db { stream with incoming }
        (back.flatMap frameOf ++ remainder) :=
      ⟨h.conversation, hrest, h.ending, h.output⟩
    obtain ⟨hserving, hrank⟩ := serving_handleMessage hbodies (hdecode body (by simp [hbodies]))
      hserved hphase
    have hread : (Phase.readBody body.length).rank = 6 := rfl
    refine ⟨hserving, ?_⟩
    simp only [Connection.budget, hrest, h.input, List.length_append]
    omega
  | @cutOff responses db stream input n h hlength hshort =>
    have hread := readExact_short (n := n) (h.input.symm ▸ hshort)
    simp only [Connection.step, hread] at hout
    cases hout
    refine ⟨.giveUp ⟨h.conversation, rfl, h.ending, h.output⟩ hlength, ?_⟩
    simp only [Connection.budget, Phase.rank, List.flatten_nil, List.length_nil]
    omega
  | call hbodies h hdecode hcall => exact h.step_call hbodies hdecode hcall hstep
  | listKeys hbodies h hdecode =>
    simp only [Connection.step, Option.ite_none_right_eq_some] at hout
    obtain ⟨horder, hout⟩ := hout
    cases hout
    exact ⟨.send hbodies h (exchange_of_keys hdecode horder),
      by simp [Connection.budget, Phase.rank]⟩
  | @send front back body responses res db db₁ stream hbodies h hexchange =>
    simp only [Connection.step, hnet, TcpStream.writeAll] at hout
    cases hout
    have hanswered : bodies = (front ++ [body]) ++ back := by simp [hbodies]
    refine ⟨.readLen hanswered ⟨.snoc h.conversation hexchange, h.input, h.ending, ?_⟩, by
      simp [Connection.budget, Phase.rank]⟩
    dsimp only
    rw [h.output, List.flatMap_append, List.flatMap_singleton]
  | giveUp h hlength =>
    simp only [Connection.step, hnet, TcpStream.writeAll] at hout
    cases hout
    refine ⟨.closed h.conversation ?_, by simp [Connection.budget, Phase.rank]⟩
    dsimp only
    rw [h.output, lastWords, if_neg (Nat.not_lt.mpr hlength)]
  | closed => cases hout

/-- A step that is refused nothing. -/
theorem stepOk_of_step (hgood : choice.net = .done ∧ choice.task.Prompt)
    (h : c.step choice db = some (db', c')) (hne : ∀ req e, c'.phase ≠ .call req (.failed e)) :
    c.stepOk choice db = some (db', c') := by
  rw [Connection.stepOk, if_pos hgood, h]
  split
  · rename_i heq
    cases heq
    exact absurd rfl (hne _ _)
  · rfl

omit [Crc] [Texts] in
/-- A message does not begin with a call that has failed. -/
theorem handleMessage_ne_failed {grants : ℕ → Bool} {buf : Bytes} {phase : Phase}
    (h : handleMessage grants buf = some phase) (req : Request) (e : Abort) :
    phase ≠ .call req (.failed e) := by
  rintro rfl
  rcases handleMessage_cases h with ⟨req', -, heq⟩ | ⟨-, -, heq⟩ | ⟨-, heq⟩
  · cases req' <;> cases heq
  · cases heq
  · cases heq

omit [Crc] in
/-- A result is answered, or closes the connection. -/
theorem respond_ne_call (req req' : Request) (result : PDBResult (Option Field)) (task : Task) :
    respond req result ≠ .call req' task := by
  intro h
  unfold respond at h
  split at h
  · cases h
  · split at h <;> cases h
  · cases h

/-- The log has no room for the entry that a connection is about to append. -/
def LogFull (db : Database) (c : Connection) : Prop :=
  ∃ req entry, c.phase = .call req (.write entry .append) ∧
    maxFileLen < db.wal.file.length + (walBytes entry).length

/-- A task that goes on takes its connection along. -/
theorem stepOk_of_task {req : Request} {task task' : Task} (hresult : resultOf task = none)
    (htask : Task.step .plain db task = some (db', task')) (hne : ∀ e, task' ≠ .failed e) :
    Connection.stepOk .plain db ⟨stream, .call req task⟩ =
      some (db', ⟨stream, .call req task'⟩) := by
  refine stepOk_of_step ⟨rfl, trivial, trivial⟩ ?_ fun req' e heq => ?_
  · simp only [Connection.step, hresult]
    change (Task.step .plain db task).map _ = _
    rw [htask]
    rfl
  · cases heq
    exact hne e rfl

/-- A call goes on to its next section or to its response, as long as the log
has room. -/
theorem Calling.progress {db₁ : Database} {req : Request} {task : Task}
    (hcall : Calling db₁ req task db) :
    LogFull db ⟨stream, .call req task⟩ ∨
      ∃ choice db' c', Connection.stepOk choice db ⟨stream, .call req task⟩ = some (db', c') := by
  cases hcall with
  | get key =>
    exact .inr ⟨.plain, _, _, stepOk_of_task rfl rfl fun _ heq => by cases heq⟩
  | got key =>
    exact .inr ⟨.plain, _, _, stepOk_of_step ⟨rfl, trivial, trivial⟩ rfl fun req e => by
      exact respond_ne_call (.get key) req _ (.failed e)⟩
  | @append req entry hentry =>
    by_cases hfits : db.wal.file.length + (walBytes entry).length ≤ maxFileLen
    · have htask : Task.step .plain db (.write entry .append) =
          some ({ db with wal := ⟨db.wal.file ++ walBytes entry, db.wal.entries ++ [entry]⟩ },
            .write entry .update) := by
        change some (proceed { db with wal := (db.wal.appendEntry .done .done entry).2 }
          (db.wal.appendEntry .done .done entry).1 (.write entry .update)) = _
        rw [Wal.appendEntry_of_fits hfits]
        rfl
      exact .inr ⟨.plain, _, _, stepOk_of_task rfl htask fun _ heq => by cases heq⟩
    · exact .inl ⟨req, entry, rfl, Nat.not_le.mp hfits⟩
  | update hentry =>
    exact .inr ⟨.plain, _, _, stepOk_of_task rfl rfl fun _ heq => by cases heq⟩
  | done hentry =>
    exact .inr ⟨.plain, _, _, stepOk_of_step ⟨rfl, trivial, trivial⟩ rfl fun req' e => by
      exact respond_ne_call req req' (.ok none) (.failed e)⟩

/-- As long as the log has room, a connection that has not ended can move. -/
theorem Serving.progress (h : Serving db₀ bodies remainder db c) :
    (∃ result, c.phase = .closed result) ∨ LogFull db c ∨
      ∃ choice db' c', c.stepOk choice db = some (db', c') := by
  cases h with
  | @readLen front back responses db stream hbodies h =>
    right; right
    cases hread : stream.readExact 4 with
    | mk result stream' =>
      cases result with
      | ok lenBuf =>
        exact ⟨.plain, _, _, stepOk_of_step ⟨rfl, trivial, trivial⟩
          (by simp only [Connection.step, hread]; rfl) fun _ _ heq => by cases heq⟩
      | error ending =>
        cases ending <;>
          exact ⟨.plain, _, _, stepOk_of_step ⟨rfl, trivial, trivial⟩
            (by simp only [Connection.step, hread]; rfl)
            fun _ _ heq => by cases heq⟩
  | @readBody front back body responses db stream hbodies h =>
    obtain ⟨incoming, hread, -⟩ := readExact_of_flatten h.input rfl
    obtain ⟨phase, hphase⟩ := exists_handleMessage body
    have hstep : Connection.step .plain db ⟨stream, .readBody body.length⟩ =
        some (db, ⟨{ stream with incoming }, phase⟩) := by
      simp only [Connection.step, hread]
      exact congrArg (Option.map _) hphase
    exact .inr (.inr ⟨.plain, _, _,
      stepOk_of_step ⟨rfl, trivial, trivial⟩ hstep (handleMessage_ne_failed hphase)⟩)
  | @cutOff responses db stream input n h hlength hshort =>
    have hread := readExact_short (n := n) (h.input.symm ▸ hshort)
    exact .inr (.inr ⟨.plain, _, _, stepOk_of_step ⟨rfl, trivial, trivial⟩
      (by simp only [Connection.step, hread]; rfl)
      fun _ _ heq => by cases heq⟩)
  | call hbodies h hdecode hcall => exact .inr hcall.progress
  | @listKeys front back body responses db stream hbodies h hdecode =>
    obtain ⟨order, horder⟩ := IterOrder.exists_of db.state.fields
    exact .inr (.inr ⟨{ ConnChoice.plain with fields := order }, _, _,
      stepOk_of_step ⟨rfl, trivial, trivial⟩ (if_pos horder) fun _ _ heq => by cases heq⟩)
  | send hbodies h hexchange =>
    exact .inr (.inr ⟨.plain, _, _,
      stepOk_of_step ⟨rfl, trivial, trivial⟩ rfl fun _ _ heq => by cases heq⟩)
  | giveUp h hlength =>
    exact .inr (.inr ⟨.plain, _, _,
      stepOk_of_step ⟨rfl, trivial, trivial⟩ rfl fun _ _ heq => by cases heq⟩)
  | closed => exact .inl ⟨_, rfl⟩

end

open scoped IsoHdlc

namespace LinuxTexts

/-- The texts of one operating system. -/
scoped instance : Texts := ⟨"Input/output error (os error 5)", "File too large (os error 27)",
  fun _ => "invalid utf-8"⟩

end LinuxTexts

open scoped LinuxTexts

/-- A key is set; an empty message; it is read; the keys are listed. -/
def mixedBodies : List Bytes :=
  [(ProtocolEncoder.new.encodeRequest (.set (.ofText "k") (.primitive (.integer 1)))).finish, [],
    (ProtocolEncoder.new.encodeRequest (.get (.ofText "k"))).finish,
    (ProtocolEncoder.new.encodeRequest .keys).finish]

/-- The length of a message of which one byte is missing, and the other bytes. -/
def cutOff : Bytes := [0, 0, 0, 2, 1]

/-- The stream arrives in two chunks, of which the first ends in a length. -/
def mixedChunks : List Bytes :=
  [(mixedBodies.flatMap frameOf ++ cutOff).take 3, (mixedBodies.flatMap frameOf ++ cutOff).drop 3]

end PeachDB.Server
