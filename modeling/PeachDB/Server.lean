import PeachDB.Opening
import PeachDB.Protocol

/-!
# Connections

`server.rs`. A connection reads the length of a message and the message,
answers it and reads again, until the bytes of the client end or a write to the
client fails. It interleaves with other tasks at its reads and writes and at
the sections of the call that it makes on the database.
-/

namespace PeachDB

open LittleEndian Dtypes RecordCodec FileHandler WriteAheadLog Interleaving Db Protocol

/-- The texts that come from outside the program: those of the operating
system, and what the decoder of UTF-8 says about bytes that it refuses. -/
class Texts where
  /-- A device has failed. -/
  device : String
  /-- A file has become too large. -/
  fileTooLarge : String
  /-- The bytes are no text. -/
  utf8 : Bytes → String

section

variable [Texts]

/-- `Display` of `std::io::Error`. -/
def Dtypes.IoError.display : IoError → String
  | .unexpectedEof => "failed to fill whole buffer"
  | .device => Texts.device
  | .fileTooLarge => Texts.fileTooLarge
  | .other inner => inner.display

/-- The reasons of `CorruptedRecord` and `InvalidRequestFormat`. -/
def Dtypes.Reason.display : Reason → String
  | .checksumMismatch => "Checksum Mismatch"
  | .invalidUtf8 bytes => "invalid utf8: " ++ Texts.utf8 bytes
  | .invalidVersion => "invalid version"
  | .invalidUtf8Message bytes => "invalid utf8 in error message: " ++ Texts.utf8 bytes

/-- The format `{:#x}` of a byte. -/
def hexByte (byte : UInt8) : String := "0x" ++ String.ofList (Nat.toDigits 16 byte.toNat)

/-- `Display` of `PeachDbError`. -/
def Dtypes.PeachDbError.display : PeachDbError → String
  | .io e => "I/O error: " ++ e.display
  | .invalidMagicBytes => "invalid magic bytes"
  | .invalidIndexEntry => "invalid index entry"
  | .unknownDtype byte => "unknown data type byte: " ++ hexByte byte
  | .corruptedRecord reason => "corrupted record: " ++ reason.display
  | .invalidFinishCall => "Invalid finish() call, Called on unfinished object"
  | .bufferTooShort => "buffer too short"
  | .unknownCommand byte => "unknown command byte: " ++ hexByte byte
  | .invalidRequestFormat reason => "invalid request format: " ++ reason.display
  | .dbNameToLong => "DataBase Name to long; must be less than 64 Bytes"
  | .keyNotFound => "key not found"

end

namespace Server

/-- What a read meets behind the bytes of the client. -/
inductive Ending
  /-- The client has closed its side. -/
  | eof
  /-- The connection is lost. -/
  | reset
  /-- The system fails. -/
  | failed (e : IoError)
  deriving DecidableEq

/-- `TcpStream`: the bytes of the client that have not been read, in the
chunks in which they arrive, what comes behind them, and the bytes written to
the client. -/
structure TcpStream where
  /-- What the client has sent and the server has not read, in chunks. -/
  incoming : List Bytes
  /-- How the stream ends behind it. -/
  ending : Ending
  /-- What the server has written. -/
  written : Bytes
  deriving DecidableEq

/-- `read_exact`; bytes that are too few are lost. -/
def TcpStream.readExact (stream : TcpStream) (n : ℕ) : Except Ending Bytes × TcpStream :=
  match takeChunks stream.incoming n with
  | some (bytes, incoming) => (.ok bytes, { stream with incoming })
  | none => (.error stream.ending, { stream with incoming := [] })

/-- `write_all`, and whether it succeeded. A socket says itself when it takes no
more bytes, and has no writes that it defers. -/
def TcpStream.writeAll (io : Verdict) (stream : TcpStream) (bytes : Bytes) : Bool × TcpStream :=
  match io with
  | .done => (true, { stream with written := stream.written ++ bytes })
  | .failed n | .deferred n => (false, { stream with written := stream.written ++ bytes.take n })

/-- Where a connection is in `handle_connection`. -/
inductive Phase
  /-- `read_exact` of the length. -/
  | readLen
  /-- `read_exact` of the message. -/
  | readBody (msgLen : ℕ)
  /-- `handle_request` is in a call on the database. -/
  | call (req : Request) (task : Task)
  /-- `handle_request` is about to list the keys. -/
  | listKeys
  /-- `send_response`. -/
  | send (res : Response)
  /-- The last response is to be sent. -/
  | giveUp (res : Response)
  /-- `handle_connection` has returned or panicked. -/
  | closed (result : PDBResult Unit)
  deriving DecidableEq

/-- A task in `handle_connection`. -/
structure Connection where
  /-- The stream of the client. -/
  stream : TcpStream
  /-- Where the loop of the connection stands. -/
  phase : Phase
  deriving DecidableEq

/-- A connection that has just been accepted. -/
def Connection.accept (incoming : List Bytes) (ending : Ending) : Connection :=
  ⟨⟨incoming, ending, []⟩, .readLen⟩

/-- What one step of a connection leaves open: the choice of the call on the
database, the order in which `keys` iterates over the fields, the verdict on
its write to the client, and what the allocator grants room for. -/
structure ConnChoice where
  /-- What the call into the database leaves open. -/
  task : Choice
  /-- The order of the keys. -/
  fields : List (Key × Field)
  /-- What the stream does with a write. -/
  net : Verdict
  /-- The capacities that the allocator grants. -/
  grants : ℕ → Bool

/-- A step whose commands succeed, that iterates over nothing and that gets all
the room it asks for. -/
def ConnChoice.plain : ConnChoice := ⟨.plain, [], .done, fun _ => true⟩

/-- The bytes of a response on the wire. -/
def framed (res : Response) : Bytes := (ProtocolEncoder.new.encodeResponse res).frame

/-- The arms of `handle_request`, up to the call on the database. -/
def handleRequest : Request → Phase
  | .ping => .send (.ok none)
  | .get key => .call (.get key) (.get key none)
  | .set key field => .call (.set key field) (.write (.set key field) .append)
  | .del key => .call (.del key) (.write (.delete key) .append)
  | .keys => .listKeys

/-- What a call has returned. -/
def resultOf : Task → Option (PDBResult (Option Field))
  | .write _ .done => some (.ok none)
  | .get _ (some result) => some (result.map some)
  | .failed e => some (.error e)
  | _ => none

/-- The arms of `handle_request`, behind the call on the database. A `set` has
no arm for a missing key. -/
def respond [Texts] (req : Request) : PDBResult (Option Field) → Phase
  | .ok field => .send (.ok field)
  | .error (.err e) =>
    match req, e with
    | .get _, .keyNotFound => .send .notFound
    | .del _, .keyNotFound => .send .notFound
    | _, _ => .send (.serverError e.display)
  | .error e => .closed (.error e)

/-- `handle_connection` behind the read of a message; none when the process
aborts in it. -/
def handleMessage (grants : ℕ → Bool) (buf : Bytes) : Option Phase :=
  match (ProtocolDecoder.new buf).decodeRequest with
  | .ok req => some (handleRequest req)
  | .error e =>
    (e.under grants).map fun
      | .err _ => .send .invalidRequest
      | e => .closed (.error e)

/-- A message that is decoded, refused, or panics, under some allocator. -/
theorem handleMessage_cases {grants : ℕ → Bool} {buf : Bytes} {phase : Phase}
    (h : handleMessage grants buf = some phase) :
    (∃ req, (ProtocolDecoder.new buf).decodeRequest = .ok req ∧ phase = handleRequest req) ∨
      (∃ e, Fails (ProtocolDecoder.new buf).decodeRequest e ∧ phase = .send .invalidRequest) ∨
      Panics (ProtocolDecoder.new buf).decodeRequest ∧ phase = .closed (.error .panic) := by
  rw [handleMessage] at h
  cases hdecode : (ProtocolDecoder.new buf).decodeRequest with
  | ok req =>
    rw [hdecode] at h
    exact .inl ⟨req, rfl, (Option.some.inj h).symm⟩
  | error e =>
    rw [hdecode] at h
    obtain ⟨a, ha, rfl⟩ := Option.map_eq_some_iff.mp h
    obtain rfl := Abort.eq_granted_of_under ha
    rcases e.granted_cases with ⟨x, hx⟩ | hpanic
    · exact .inr (.inl ⟨x, ends_error_iff.mpr hx, by rw [hx]⟩)
    · exact .inr (.inr ⟨ends_error_iff.mpr hpanic, by rw [hpanic]⟩)

/-- An allocator that grants everything lets every message be handled. -/
theorem exists_handleMessage (buf : Bytes) :
    ∃ phase, handleMessage (fun _ => true) buf = some phase := by
  rw [handleMessage]
  split
  · exact ⟨_, rfl⟩
  · rw [Abort.under_true]
    exact ⟨_, rfl⟩

/-- The next step of `handle_connection`; none when it has returned. Where the
allocator refuses room there is no step: the process is gone with all its
connections. -/
def Connection.step [Crc] [Texts] (choice : ConnChoice) (db : Database) (c : Connection) :
    Option (Database × Connection) :=
  match c.phase with
  | .readLen =>
    match c.stream.readExact 4 with
    | (.ok lenBuf, stream) => some (db, ⟨stream, .readBody (fromBeU32 lenBuf).toNat⟩)
    | (.error .eof, stream) => some (db, ⟨stream, .closed (.ok ())⟩)
    | (.error .reset, stream) => some (db, ⟨stream, .closed (.ok ())⟩)
    | (.error (.failed e), stream) => some (db, ⟨stream, .closed (failWith (.io e))⟩)
  | .readBody msgLen =>
    match c.stream.readExact msgLen with
    | (.ok buf, stream) => (handleMessage choice.grants buf).map fun phase =>
      (db, ⟨stream, phase⟩)
    | (.error _, stream) => some (db, ⟨stream, .giveUp (.serverError "failed to read message")⟩)
  | .call req task =>
    match resultOf task with
    | some result => some (db, { c with phase := respond req result })
    | none => (Task.step choice.task db task).map fun out =>
      (out.1, { c with phase := .call req out.2 })
  | .listKeys =>
    if IterOrder db.state.fields choice.fields then
      some (db, { c with phase := .send (.keys (choice.fields.map Prod.fst)) })
    else none
  | .send res =>
    let (sent, stream) := c.stream.writeAll choice.net (framed res)
    some (db, ⟨stream, if sent then .readLen else .closed (.ok ())⟩)
  | .giveUp res =>
    let (_, stream) := c.stream.writeAll choice.net (framed res)
    some (db, ⟨stream, .closed (.ok ())⟩)
  | .closed _ => none

/-- Steps in which the system refuses neither a file command nor a write to the
client: the files are prompt, and nothing fails. -/
def Connection.stepOk [Crc] [Texts] (choice : ConnChoice) (db : Database) (c : Connection) :
    Option (Database × Connection) :=
  if choice.net = .done ∧ choice.task.Prompt then
    match c.step choice db with
    | some (_, ⟨_, .call _ (.failed _)⟩) => none
    | out => out
  else none

end Server

end PeachDB
