import Mathlib.Algebra.BigOperators.Group.Finset.Basic
import PeachDB.ConnectionLoop

/-!
# The lengths in front of responses

The encoder cuts the length of a payload and that of a message to 32 bits and
checks neither. A value fits, since it came in behind a key in a message whose
length was itself read from 32 bits. A list of keys is as long as all keys of
the database together, which nothing bounds.
-/

namespace PeachDB

open LittleEndian Dtypes RecordCodec Interleaving Db Protocol

/-- A key and a field that a `Set` request carries, in a message behind its
length. -/
def Protocol.Sent (key : Key) (field : Field) : Prop :=
  ∃ body : Bytes, body.length < 2 ^ 32 ∧ (ProtocolDecoder.new body).decodeRequest =
    .ok (.set key field)

/-- Contents that were all stored by such requests. -/
inductive Protocol.FromClients : HashMap Key Field → Prop
  /-- Nothing is stored. -/
  | empty : FromClients ∅
  /-- A request sets a key. -/
  | set {m : HashMap Key Field} {key : Key} {field : Field} (h : FromClients m)
      (hsent : Sent key field) :
      FromClients (m.insert key field)
  /-- A request deletes a key. -/
  | del {m : HashMap Key Field} (key : Key) (h : FromClients m) : FromClients (m.erase key)

/-- The length of a list of all keys. -/
def keysLength (m : HashMap Key Field) : ℕ := ∑ key ∈ m.keys, (2 + key.len)

namespace Protocol

/-- A field that came in leaves room for the head of a response. -/
theorem Sent.length {key : Key} {field : Field} (h : Sent key field) :
    5 + (bytesFromField field).length < 2 ^ 32 := by
  obtain ⟨body, hlen, hdecode⟩ := h
  obtain ⟨-, -, hbody⟩ := encodable_of_decodeRequest hdecode
  omega

/-- A key and a field that can be encoded can be sent. -/
theorem sent_of_encodable {key : Key} {field : Field} (hkey : key.Encodable)
    (hfield : field.Encodable) (hlen : 8 + key.len + (bytesFromField field).length < 2 ^ 32) :
    Sent key field := by
  have hfinish := encodeRequest_set_finish key field hkey hfield
  have hbody : (ProtocolEncoder.new.encodeRequest (.set key field)).finish.length < 2 ^ 32 := by
    rw [hfinish, length_setMessage]
    exact hlen
  exact ⟨_, hbody, ProtocolDecoder.decodeRequest_encodeRequest ⟨hkey, hfield.1⟩ hbody⟩

/-- Whatever is in such contents has been sent. -/
theorem FromClients.sent {m : HashMap Key Field} (h : FromClients m) {key : Key} {field : Field}
    (hlookup : m.lookup key = some field) : Sent key field := by
  induction h with
  | empty =>
    rw [Finmap.lookup_empty] at hlookup
    cases hlookup
  | @set m k f h hsent ih =>
    rw [lookup_insert_eq] at hlookup
    split at hlookup
    · next hk =>
      cases hlookup
      exact hk ▸ hsent
    · exact ih hlookup
  | @del m k h ih =>
    by_cases hk : key = k
    · subst hk
      rw [Finmap.lookup_erase] at hlookup
      cases hlookup
    · rw [Finmap.lookup_erase_ne hk] at hlookup
      exact ih hlookup

/-- Insertions of fields that came in. -/
theorem FromClients.insertAll {m : HashMap Key Field} (h : FromClients m) {l : List (Key × Field)}
    (hsent : ∀ x ∈ l, Sent x.1 x.2) : FromClients (insertAll m l) := by
  induction l generalizing m with
  | nil => exact h
  | cons x l ih =>
    have hhead := h.set (hsent x List.mem_cons_self)
    exact ih hhead fun y hy => hsent y (List.mem_cons_of_mem x hy)

end Protocol

/-- A text with a short head. -/
theorem length_head_le {head text : String} {n : ℕ} (hhead : (stringBytes head).length ≤ 32)
    (htext : (stringBytes text).length ≤ n) : (stringBytes (head ++ text)).length ≤ n + 32 := by
  rw [stringBytes_append, List.length_append]
  omega

/-- The text of a byte is short. -/
theorem length_hexByte_le (byte : UInt8) : (stringBytes (hexByte byte)).length ≤ 1024 := by
  have hall : ∀ n : Fin 256, (stringBytes (hexByte (UInt8.ofNat n))).length ≤ 1024 := by
    decide +kernel
  have hbyte := hall ⟨byte.toNat, byte.toNat_lt⟩
  rwa [UInt8.ofNat_toNat] at hbyte

section

variable [Texts]

/-- The texts from outside the program are short. -/
structure Texts.Short : Prop where
  /-- The text of a device that fails. -/
  device : (stringBytes Texts.device).length ≤ 1024
  /-- The text of a file that has become too large. -/
  fileTooLarge : (stringBytes Texts.fileTooLarge).length ≤ 1024
  /-- The texts of bytes that are no text. -/
  utf8 (bytes : Bytes) : (stringBytes (Texts.utf8 bytes)).length ≤ 1024

/-- The texts of the operating system are short. -/
theorem Texts.Short.io (h : Texts.Short) (e : IoError) :
    (stringBytes e.display).length ≤ 1024 := by
  induction e with
  | unexpectedEof =>
    unfold IoError.display
    decide +kernel
  | device => exact h.device
  | fileTooLarge => exact h.fileTooLarge
  | other inner ih => exact ih

/-- The texts of the errors are short. -/
theorem Texts.Short.reason (h : Texts.Short) (reason : Reason) :
    (stringBytes reason.display).length ≤ 1024 + 32 := by
  cases reason with
  | invalidUtf8 bytes | invalidUtf8Message bytes =>
    unfold Reason.display
    exact length_head_le (by decide +kernel) (h.utf8 bytes)
  | checksumMismatch | invalidVersion =>
    unfold Reason.display
    dsimp only
    decide +kernel

/-- So is the text of every error. -/
theorem Texts.Short.error (h : Texts.Short) (e : PeachDbError) :
    (stringBytes e.display).length ≤ 1024 + 32 + 32 := by
  have hweak {n : ℕ} (hle : n ≤ 1024 + 32) : n ≤ 1024 + 32 + 32 :=
    hle.trans (Nat.le_add_right _ 32)
  cases e with
  | io e =>
    unfold PeachDbError.display
    exact hweak (length_head_le (by decide +kernel) (h.io e))
  | unknownDtype byte | unknownCommand byte =>
    unfold PeachDbError.display
    exact hweak (length_head_le (by decide +kernel) (length_hexByte_le byte))
  | corruptedRecord reason | invalidRequestFormat reason =>
    unfold PeachDbError.display
    exact length_head_le (by decide +kernel) (h.reason reason)
  | invalidMagicBytes | invalidIndexEntry | invalidFinishCall | bufferTooShort | dbNameToLong
    | keyNotFound =>
    unfold PeachDbError.display
    dsimp only
    decide +kernel

end

namespace Server

/-- The lengths in the encoding of a response are those of its payload and its
message, and a client that reads by them gets the message and the bytes behind
it. -/
structure LengthsExact (res : Response) : Prop where
  /-- The length in front of the payload. -/
  payloadLen : (fromBeU32 (((framed res).drop 5).take 4)).toNat = ((framed res).drop 9).length
  /-- The length in front of the message. -/
  msgLen : (fromBeU32 ((framed res).take 4)).toNat = ((framed res).drop 4).length
  /-- A client that reads by these lengths stands behind the message. -/
  inStep : ∀ (stream : TcpStream) (ys : Bytes), stream.incoming.flatten = framed res ++ ys →
    ∃ stream', readMessage stream = some ((framed res).drop 4, stream') ∧
    stream'.incoming.flatten = ys

/-- The length stands in front. -/
theorem take_frameOf (body : Bytes) : (frameOf body).take 4 = beU32 (UInt32.ofNat body.length) :=
  List.take_left' (length_beU32 _)

/-- The message stands behind its length. -/
theorem drop_frameOf (body : Bytes) : (frameOf body).drop 4 = body :=
  List.drop_left' (length_beU32 _)

/-- A length of 32 bits is exact below `2 ^ 32`. -/
theorem toNat_ofNat_eq_iff {n : ℕ} : (UInt32.ofNat n).toNat = n ↔ n < 2 ^ 32 := by
  constructor
  · intro h
    have hlt := (UInt32.ofNat n).toNat_lt
    rwa [h] at hlt
  · exact UInt32.toNat_ofNat_of_lt'

/-- The length of the message decides; that of the payload is smaller. -/
theorem lengthsExact_iff (res : Response) : LengthsExact res ↔
    5 + res.payload.length < 2 ^ 32 := by
  let message := (ProtocolEncoder.new.encodeResponse res).finish
  have hmsgLen : (framed res).take 4 = beU32 (UInt32.ofNat message.length) := take_frameOf message
  have hmessage : (framed res).drop 4 = message := drop_frameOf message
  have hbehind : (framed res).drop 5 = frameOf res.payload := by
    have hform : message = _ :: frameOf res.payload := encodeResponse_finish res
    rw [← List.drop_drop (i := 1) (j := 4), hmessage, hform, List.drop_one, List.tail_cons]
  have hpayload : (framed res).drop 9 = res.payload := by
    rw [← List.drop_drop (i := 4) (j := 5), hbehind, drop_frameOf]
  have hlength : message.length = 5 + res.payload.length := length_encodeResponse res
  rw [← hlength]
  constructor
  · intro h
    have hexact := h.msgLen
    rw [hmsgLen, hmessage, fromBeU32_beU32] at hexact
    exact toNat_ofNat_eq_iff.mp hexact
  · intro hlen
    refine ⟨?_, ?_, ?_⟩
    · rw [hbehind, take_frameOf, hpayload, fromBeU32_beU32]
      exact toNat_ofNat_eq_iff.mpr (by omega)
    · rw [hmsgLen, hmessage, fromBeU32_beU32]
      exact toNat_ofNat_eq_iff.mpr hlen
    · intro stream ys hstream
      rw [hmessage]
      exact readMessage_of_flatten hlen hstream

/-- What a call on the database holds has come in. -/
def TaskHolds : Task → Prop
  | .write (.set key field) _ => Sent key field
  | .write (.delete _) _ => True
  | .get key result => ∀ field, result = some (.ok field) → Sent key field
  | .flush _ => False
  | .failed _ => True

/-- What a connection holds has come in. -/
def Phase.Holds : Phase → Prop
  | .readBody msgLen => msgLen < 2 ^ 32
  | .call _ task => TaskHolds task
  | _ => True

/-- The response that a connection is about to send. -/
def Phase.response : Phase → Option Response
  | .send res => some res
  | .giveUp res => some res
  | _ => none

/-- What a connection does next has come in, and fits in its lengths. -/
def Phase.Fits (phase : Phase) : Prop :=
  phase.Holds ∧ ∀ res, phase.response = some res → 5 + res.payload.length < 2 ^ 32

/-- A connection that is not about to respond fits. -/
theorem fits_of_holds {phase : Phase} (hholds : phase.Holds) (hnone : phase.response = none) :
    phase.Fits := by
  refine ⟨hholds, fun res hres => ?_⟩
  rw [hnone] at hres
  cases hres

/-- A connection fits when its response does. -/
theorem fits_of_response {phase : Phase} {res : Response} (hholds : phase.Holds)
    (hres : phase.response = some res) (hlen : 5 + res.payload.length < 2 ^ 32) : phase.Fits := by
  refine ⟨hholds, fun res' hres' => ?_⟩
  rw [hres] at hres'
  cases hres'
  exact hlen

/-- A list of the keys is as long as the keys of the database. -/
theorem length_payload_keys {m : HashMap Key Field} {order : List (Key × Field)}
    (horder : IterOrder m order) :
    (Response.keys (order.map Prod.fst)).payload.length = keysLength m := by
  have hkeys : m.keys.val = ((order.map Prod.fst : List Key) : Multiset Key) := by
    change m.entries.keys = _
    rw [← horder, Multiset.keys, Multiset.map_coe, List.map_map]
    rfl
  have hlen : List.length ∘ keyBytes = fun key : Key => 2 + key.len := funext length_keyBytes
  rw [keysLength, Finset.sum, hkeys, Multiset.map_coe, Multiset.sum_coe, Response.payload,
    List.length_flatMap, ← hlen]
  rfl

/-- A call goes on with what has come in. -/
theorem holds_of_taskStep [Crc] {choice : Choice} {db db' : Database} {t t' : Task}
    (h : Task.step choice db t = some (db', t')) (hdb : FromClients db.state.fields)
    (ht : TaskHolds t) : FromClients db'.state.fields ∧ TaskHolds t' := by
  unfold Task.step at h
  split at h
  · next entry =>
    cases hcommand : db.wal.appendEntry choice.first choice.second entry with
    | mk result wal =>
      rw [hcommand] at h
      cases result with
      | error e =>
        cases h
        exact ⟨hdb, trivial⟩
      | ok u =>
        cases h
        refine ⟨hdb, ?_⟩
        cases entry <;> exact ht
  · next entry =>
    cases h
    cases entry with
    | set key field => exact ⟨hdb.set ht, ht⟩
    | delete key => exact ⟨hdb.del key, trivial⟩
  · cases h
  · next key =>
    cases h
    refine ⟨hdb, fun field hresult => ?_⟩
    have hget : db.get key = .ok field := Option.some.inj hresult
    unfold Database.get at hget
    split at hget
    · next hlookup =>
      cases hget
      exact hdb.sent hlookup
    · cases hget
  · cases h
  · exact absurd ht id
  · cases h

/-- What a call returns has come in. -/
theorem sent_of_resultOf {t : Task} {field : Field} (ht : TaskHolds t)
    (hresult : resultOf t = some (.ok (some field))) : ∃ key, Sent key field := by
  unfold resultOf at hresult
  split at hresult
  · cases hresult
  · next key result =>
    cases result with
    | error e => cases hresult
    | ok f =>
      cases hresult
      exact ⟨key, ht field rfl⟩
  · cases hresult
  · cases hresult

/-- `read_exact` fills the buffer. -/
theorem readExact_length {stream stream' : TcpStream} {n : ℕ} {buf : Bytes}
    (h : stream.readExact n = (.ok buf, stream')) : buf.length = n := by
  unfold TcpStream.readExact at h
  split at h
  · next htake =>
    cases h
    exact length_of_takeChunks htake
  · cases h

/-- A message is answered in a few bytes, or a call begins. -/
theorem fits_handleMessage {grants : ℕ → Bool} {buf : Bytes} {phase : Phase}
    (hlen : buf.length < 2 ^ 32) (h : handleMessage grants buf = some phase) : phase.Fits := by
  rcases handleMessage_cases h with ⟨req, hdecode, rfl⟩ | ⟨e, -, rfl⟩ | ⟨-, rfl⟩
  · cases req with
    | set key field => exact fits_of_holds ⟨buf, hlen, hdecode⟩ rfl
    | get key =>
      refine fits_of_holds (fun field hresult => ?_) rfl
      cases hresult
    | ping => exact fits_of_response trivial rfl (by decide)
    | del key => exact fits_of_holds trivial rfl
    | keys => exact fits_of_holds trivial rfl
  · exact fits_of_response trivial rfl (by decide)
  · exact fits_of_holds trivial rfl

section

variable [Texts]

/-- A value that came in is sent, or a short text. -/
theorem fits_respond (htexts : Texts.Short) (req : Request) {result : PDBResult (Option Field)}
    (hsent : ∀ field, result = .ok (some field) → ∃ key, Sent key field) :
    (respond req result).Fits := by
  cases result with
  | ok value =>
    cases value with
    | none => exact fits_of_response trivial rfl (by decide)
    | some field =>
      obtain ⟨key, hfield⟩ := hsent field rfl
      exact fits_of_response trivial rfl hfield.length
  | error e =>
    cases e with
    | panic => exact fits_of_holds trivial rfl
    | room count e => exact fits_of_holds trivial rfl
    | err e =>
      have hshort := htexts.error e
      have herror : (Phase.send (.serverError e.display)).Fits := by
        refine fits_of_response trivial rfl ?_
        rw [Response.payload]
        omega
      simp only [respond]
      split
      · exact fits_of_response trivial rfl (by decide)
      · exact fits_of_response trivial rfl (by decide)
      · exact herror

variable [Crc] {choice : ConnChoice} {db db' : Database} {c c' : Connection}

/-- A connection that does not list the keys goes on with what has come in. -/
theorem fits_of_step (htexts : Texts.Short) (h : c.step choice db = some (db', c'))
    (hdb : FromClients db.state.fields) (hc : c.phase.Holds) (hkeys : c.phase ≠ .listKeys) :
    FromClients db'.state.fields ∧ c'.phase.Fits := by
  obtain ⟨stream, phase⟩ := c
  cases phase with
  | readLen =>
    simp only [Connection.step] at h
    split at h
    · cases h
      exact ⟨hdb, fits_of_holds (UInt32.toNat_lt _) rfl⟩
    all_goals
      cases h
      exact ⟨hdb, fits_of_holds trivial rfl⟩
  | readBody msgLen =>
    simp only [Connection.step] at h
    split at h
    · next hread =>
      obtain ⟨phase, hphase, heq⟩ := Option.map_eq_some_iff.mp h
      cases heq
      have hlen := readExact_length hread
      exact ⟨hdb, fits_handleMessage (hlen ▸ hc) hphase⟩
    · cases h
      exact ⟨hdb, fits_of_response trivial rfl (by decide +kernel)⟩
  | call req task =>
    simp only [Connection.step] at h
    split at h
    · next hresult =>
      cases h
      refine ⟨hdb, fits_respond htexts req fun field hfield => ?_⟩
      exact sent_of_resultOf hc (hresult.trans (congrArg some hfield))
    · obtain ⟨⟨db₁, task'⟩, htask, hout⟩ := Option.map_eq_some_iff.mp h
      cases hout
      obtain ⟨hdb', htask'⟩ := holds_of_taskStep htask hdb hc
      exact ⟨hdb', fits_of_holds htask' rfl⟩
  | listKeys => exact absurd rfl hkeys
  | send res =>
    cases hwrite : stream.writeAll choice.net (framed res) with
    | mk sent stream' =>
      simp only [Connection.step, hwrite] at h
      cases h
      cases sent <;> exact ⟨hdb, fits_of_holds trivial rfl⟩
  | giveUp res =>
    cases h
    exact ⟨hdb, fits_of_holds trivial rfl⟩
  | closed result => cases h

/-- The step that lists the keys. -/
theorem response_of_listKeys (h : c.step choice db = some (db', c')) (hkeys : c.phase = .listKeys) :
    db' = db ∧ ∃ order, IterOrder db.state.fields order ∧
      c'.phase = .send (.keys (order.map Prod.fst)) := by
  obtain ⟨stream, phase⟩ := c
  subst hkeys
  simp only [Connection.step, Option.ite_none_right_eq_some] at h
  obtain ⟨horder, hout⟩ := h
  cases hout
  exact ⟨rfl, _, horder, rfl⟩

/-- A step of a connection keeps what it holds, and the contents stay those of
requests. -/
theorem holds_of_step (htexts : Texts.Short) (h : c.step choice db = some (db', c'))
    (hdb : FromClients db.state.fields) (hc : c.phase.Holds) :
    FromClients db'.state.fields ∧ c'.phase.Holds := by
  by_cases hkeys : c.phase = .listKeys
  · obtain ⟨rfl, order, -, hphase⟩ := response_of_listKeys h hkeys
    rw [hphase]
    exact ⟨hdb, trivial⟩
  · obtain ⟨hdb', hfits⟩ := fits_of_step htexts h hdb hc hkeys
    exact ⟨hdb', hfits.1⟩

/-- In every run of the server the contents and what the connections hold have
come in. -/
theorem holds_of_run (htexts : Texts.Short) {db₀ : Database} {conns trace : List Connection}
    {pool : Pool Database Connection} (hdb : FromClients db₀.state.fields)
    (hconns : ∀ conn ∈ conns, conn.phase = .readLen)
    (hrun : Run Connection.step anyStep ⟨db₀, conns⟩ trace pool) :
    FromClients pool.shared.state.fields ∧ ∀ conn ∈ pool.tasks, conn.phase.Holds := by
  have hinit : FromClients db₀.state.fields ∧ ∀ conn ∈ conns, conn.phase.Holds := by
    refine ⟨hdb, fun conn hconn => ?_⟩
    rw [hconns conn hconn]
    trivial
  have hinv := hrun.pool_invariant (A := Unit) (G := fun _ db => FromClients db.state.fields)
    (P := fun _ _ conn => conn.phase.Holds)
  obtain ⟨-, hholds⟩ := hinv (fun _ choice db others conn db' conn' _ hexec hdb hconn hothers => by
    obtain ⟨hdb', hconn'⟩ := holds_of_step htexts hexec hdb hconn
    exact ⟨(), hdb', hconn', hothers⟩) ⟨(), hinit⟩
  exact hholds

/-- The lengths of a response of the server, in any of its runs, are exact,
unless it lists keys that are longer together than its lengths can say. -/
theorem response_lengths_exact_iff (htexts : Texts.Short) {db₀ : Database}
    {conns trace : List Connection} {pool : Pool Database Connection}
    (hdb : FromClients db₀.state.fields) (hconns : ∀ conn ∈ conns, conn.phase = .readLen)
    (hrun : Run Connection.step anyStep ⟨db₀, conns⟩ trace pool) {conn conn' : Connection}
    (hconn : conn ∈ pool.tasks) (hstep : conn.step choice pool.shared = some (db', conn'))
    {res : Response} (hres : conn'.phase.response = some res) :
    LengthsExact res ↔
      (conn.phase = .listKeys → 5 + keysLength pool.shared.state.fields < 2 ^ 32) := by
  obtain ⟨hpool, hholds⟩ := holds_of_run htexts hdb hconns hrun
  rw [lengthsExact_iff]
  by_cases hkeys : conn.phase = .listKeys
  · obtain ⟨-, order, horder, hphase⟩ := response_of_listKeys hstep hkeys
    rw [hphase] at hres
    cases hres
    rw [length_payload_keys horder]
    exact ⟨fun hlen _ => hlen, fun hlen => hlen hkeys⟩
  · have hfits := (fits_of_step htexts hstep hpool (hholds conn hconn) hkeys).2
    exact ⟨fun _ hlist => absurd hlist hkeys, fun _ => hfits.2 res hres⟩

end

open scoped IsoHdlc LinuxTexts

/-- The connection comes to its end. -/
theorem mixedChunks_answered :
    (drive Connection.step anyStep (List.replicate 12 (0, .plain))
      ⟨Database.new "db" [] ⟨[], []⟩, [.accept mixedChunks .eof]⟩).isSome := by
  decide +kernel

/-- The value that has just been set is read. -/
theorem response_lengths_exact_iff_get :
    let pool := ((drive Connection.step anyStep _ _).get mixedChunks_answered).2
    let conn := pool.tasks.headD (.accept [] .eof)
    let field := Field.primitive (.integer 1)
    conn.phase = .call (.get (.ofText "k")) (.get (.ofText "k") (some (.ok field))) ∧
      (LengthsExact (.ok (some field)) ↔
        (conn.phase = .listKeys → 5 + keysLength pool.shared.state.fields < 2 ^ 32)) := by
  intro pool conn field
  have hutf8 : (stringBytes "invalid utf-8").length ≤ 1024 := by decide +kernel
  have htexts : Texts.Short := ⟨by decide +kernel, by decide +kernel, fun _ => hutf8⟩
  have hconn : conn ∈ pool.tasks := by decide +kernel
  have hstep : conn.step .plain pool.shared =
      some (pool.shared, ⟨conn.stream, .send (.ok (some field))⟩) := by decide +kernel
  exact ⟨by decide +kernel, response_lengths_exact_iff htexts .empty (by simp [Connection.accept])
    (run_get_drive mixedChunks_answered) hconn hstep rfl⟩

/-- A number and zeros, up to the greatest length of a key. -/
def longKey (i : ℕ) : Key := ⟨ofU32 (UInt32.ofNat i) ++ List.replicate 65531 0⟩

/-- As many keys as there are lengths of a key, each with an empty value. -/
def longKeys : List (Key × Field) := (List.range 65536).map fun i => (longKey i, .raw [])

/-- A database with these keys. -/
def longDb : Database :=
  { Database.new "db" [] ⟨[], []⟩ with state := ⟨insertAll ∅ longKeys, ∅⟩ }

-- Without the bodies of the definitions, which are too large to evaluate.

/-- The database holds the long keys. -/
theorem fields_longDb : longDb.state.fields = insertAll ∅ longKeys := by
  unfold longDb
  dsimp only

/-- A long key is as long as a length of 16 bits can say. -/
theorem len_longKey (i : ℕ) : (longKey i).len = 65535 := by
  change (ofU32 (UInt32.ofNat i) ++ List.replicate 65531 0).length = 65535
  rw [List.length_append, List.length_replicate, length_ofU32]

/-- The long keys differ in their numbers. -/
theorem longKeys_nodup : (longKeys.map Prod.fst).Nodup := by
  rw [longKeys, List.map_map]
  refine List.Nodup.map_on (fun i hi j hj h => ?_) List.nodup_range
  have hwords : ofU32 (UInt32.ofNat i) = ofU32 (UInt32.ofNat j) :=
    List.append_cancel_right (congrArg Key.asBytes h)
  have hnumbers := congrArg (fun bs => (toU32 bs).toNat) hwords
  simp only [toU32_ofU32] at hnumbers
  rw [List.mem_range] at hi hj
  rwa [toNat_ofNat_eq_iff.mpr (by omega), toNat_ofNat_eq_iff.mpr (by omega)] at hnumbers

/-- Requests can store the long keys. -/
theorem fromClients_longDb : FromClients longDb.state.fields := by
  have hsent : ∀ x ∈ longKeys, Sent x.1 x.2 := by
    intro x hx
    obtain ⟨i, -, rfl⟩ := List.mem_map.mp hx
    have hlen := len_longKey i
    have hkey : (longKey i).Encodable := by
      rw [Key.Encodable, hlen]
      decide
    have hfield : (Field.raw []).Encodable := by decide
    have hfits : 8 + (longKey i).len + (bytesFromField (.raw [])).length < 2 ^ 32 := by
      rw [hlen]
      decide
    exact sent_of_encodable hkey hfield hfits
  rw [fields_longDb]
  exact FromClients.empty.insertAll hsent

/-- The payload has more than `2 ^ 32` bytes. -/
theorem length_payload_longKeys :
    (Response.keys (longKeys.map Prod.fst)).payload.length = 65536 * 65537 := by
  have hconst : longKeys.map ((List.length ∘ keyBytes) ∘ Prod.fst) = List.replicate 65536
      65537 := by
    rw [longKeys, List.map_map, List.eq_replicate_iff, List.length_map, List.length_range]
    refine ⟨rfl, fun n hn => ?_⟩
    obtain ⟨i, -, rfl⟩ := List.mem_map.mp hn
    change (keyBytes (longKey i)).length = 65537
    rw [length_keyBytes, len_longKey]
  rw [Response.payload, List.length_flatMap]
  change ((longKeys.map Prod.fst).map (List.length ∘ keyBytes)).sum = _
  rw [List.map_map, hconst, List.sum_replicate_nat]

/-- A request for the keys of this database is answered with lengths that are
cut: the client reads 65541 bytes of a message of more than four billion. -/
theorem keys_response_wraps : FromClients longDb.state.fields ∧
    ∃ trace pool choice conn conn' res, Run Connection.step anyStep
      ⟨longDb, [.accept [(ProtocolEncoder.new.encodeRequest .keys).frame] .eof]⟩ trace pool ∧
    conn ∈ pool.tasks ∧ conn.step choice pool.shared = some (longDb, conn') ∧
    conn'.phase.response = some res ∧
    res.payload.length = 65536 * 65537 ∧ ¬ LengthsExact res := by
  let stream : TcpStream := ⟨[(ProtocolEncoder.new.encodeRequest .keys).frame], .eof, []⟩
  have hread : readMessage stream = some ([0x01, 0x05], ⟨[], .eof, []⟩) := by decide +kernel
  obtain ⟨c, hlength, hbody⟩ := @step_of_readMessage _ _ .plain longDb _ _ _ hread
  have hlist : handleMessage ConnChoice.plain.grants [0x01, 0x05] = some .listKeys := by
    decide +kernel
  rw [hlist] at hbody
  have horder : IterOrder longDb.state.fields longKeys := by
    rw [fields_longDb]
    exact IterOrder.of_nodup longKeys_nodup
  have hstep : Connection.step { ConnChoice.plain with fields := longKeys } longDb
    ⟨⟨[], .eof, []⟩, .listKeys⟩ =
      some (longDb, ⟨⟨[], .eof, []⟩, .send (.keys (longKeys.map Prod.fst))⟩) := by
    simp only [Connection.step, if_pos horder]
  have hfirst : Step Connection.step anyStep ⟨longDb, [⟨stream, .readLen⟩]⟩ _ ⟨longDb,
      [c]⟩ :=
    .move [] [] ConnChoice.plain trivial hlength
  have hsecond : Step Connection.step anyStep ⟨longDb, [c]⟩ _ ⟨longDb,
      [⟨⟨[], .eof, []⟩, .listKeys⟩]⟩ :=
    .move [] [] ConnChoice.plain trivial hbody
  have hrun := (Run.refl.snoc hfirst).snoc hsecond
  refine ⟨fromClients_longDb, _, _, _, _, _, _, hrun, List.mem_cons_self, hstep, rfl,
    length_payload_longKeys, ?_⟩
  rw [lengthsExact_iff, length_payload_longKeys]
  decide

end Server

end PeachDB
