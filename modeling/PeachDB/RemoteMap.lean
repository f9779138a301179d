import PeachDB.ResponseLengths
import PeachDB.ServerHistory

/-!
# The map that the clients share

Clients that send encoded requests and read the responses by their lengths. The
encoders, the server and the decoders together are a map in the middle: there
is one order of all requests such that every client reads what the map answers
to its own. Only a list of all keys can be too long to be read.
-/

namespace PeachDB.Server

open LittleEndian Dtypes RecordCodec FileHandler WriteAheadLog Interleaving Db Protocol
  Linearization

/-- `send_request` of the client. -/
def sendRequest (req : Request) : Bytes := (ProtocolEncoder.new.encodeRequest req).frame

/-- Requests that the encoder does not cut. -/
def Sendable (req : Request) : Prop :=
  req.WellFormed ∧ (ProtocolEncoder.new.encodeRequest req).finish.length < 2 ^ 32

instance (req : Request) : Decidable (Sendable req) :=
  inferInstanceAs (Decidable (req.WellFormed ∧
    (ProtocolEncoder.new.encodeRequest req).finish.length < 2 ^ 32))

/-- The map behind the server; a device may refuse a write. -/
inductive Remote [Texts] (m : HashMap Key Field) (req : Request) :
    Response → HashMap Key Field → Prop
  /-- The map answers. -/
  | answered {res : Response} {m' : HashMap Key Field} (hanswer : Answers m req res m') :
      Remote m req res m'
  /-- A write could not be logged. -/
  | refused {entry : WalEntry} (e : IoError) (hentry : entryOf req = some entry) :
      Remote m req (.serverError (PeachDbError.io e).display) m

/-- An answer that can be encoded, and that is not too long to be read unless it
is a list of all keys. -/
def Readable (req : Request) (res : Response) : Prop :=
  res.WellFormed ∧ ((∀ keys, (req, res) ≠ (.keys, .keys keys)) →
    5 + res.payload.length < 2 ^ 32)

/-- A part of a message is no whole message. -/
theorem incomplete_of_prefix {body p : Bytes} (hlen : body.length < 2 ^ 32)
    (hp : p <+: frameOf body) (hne : p ≠ frameOf body) : Incomplete p := by
  by_cases hshort : p.length < 4
  · rw [Incomplete]
    omega
  · obtain ⟨ys, hys⟩ := hp
    have htake : p.take 4 = beU32 (UInt32.ofNat body.length) := by
      rw [← take_frameOf, ← hys, List.take_append_of_le_length (by omega)]
    have hpos : 0 < ys.length := by
      rw [List.length_pos_iff]
      rintro rfl
      exact hne (by rw [← hys, List.append_nil])
    have hlength := congrArg List.length hys
    rw [frameOf, List.length_append, List.length_append, length_beU32] at hlength
    rw [Incomplete, htake, fromBeU32_beU32, UInt32.toNat_ofNat_of_lt' hlen]
    omega

/-- Two messages in front of two streams are the same when the streams are. -/
theorem frameOf_append_inj {body body' xs ys : Bytes} (hlen : body.length < 2 ^ 32)
    (hlen' : body'.length < 2 ^ 32) (h : frameOf body ++ xs = frameOf body' ++ ys) :
    body = body' ∧ xs = ys := by
  rw [frameOf, frameOf, List.append_assoc, List.append_assoc] at h
  obtain ⟨hlength, hbody⟩ := List.append_inj h (by simp)
  have hsame : body.length = body'.length := by
    have hread := congrArg (fun bytes => (fromBeU32 bytes).toNat) hlength
    rwa [fromBeU32_beU32, fromBeU32_beU32, UInt32.toNat_ofNat_of_lt' hlen,
      UInt32.toNat_ofNat_of_lt' hlen'] at hread
  exact List.append_inj hbody hsame

/-- A whole message is not incomplete. -/
theorem not_incomplete_frameOf {body xs : Bytes} (hlen : body.length < 2 ^ 32) :
    ¬ Incomplete (frameOf body ++ xs) := by
  have htake : (frameOf body ++ xs).take 4 = beU32 (UInt32.ofNat body.length) := by
    rw [frameOf, List.append_assoc]
    exact List.take_left' (length_beU32 _)
  rw [Incomplete, htake, fromBeU32_beU32, UInt32.toNat_ofNat_of_lt' hlen, frameOf,
    List.length_append, List.length_append, length_beU32]
  omega

/-- The exchanges of a client that sends whole messages are with the first of
these, and the others stand behind them. -/
theorem asked_rest {bodies : List Bytes} {exchanges : List (Bytes × Response)} {behind : Bytes}
    (hlen : ∀ body ∈ bodies, body.length < 2 ^ 32)
    (hlengths : ∀ e ∈ exchanges, e.1.length < 2 ^ 32)
    (h : bodies.flatMap frameOf = asked exchanges ++ behind) :
    ∃ rest, bodies = exchanges.map Prod.fst ++ rest ∧ behind = rest.flatMap frameOf := by
  induction exchanges generalizing bodies with
  | nil => exact ⟨bodies, rfl, h.symm⟩
  | cons e exchanges ih =>
    have hsplit : bodies.flatMap frameOf = frameOf e.1 ++ (asked exchanges ++ behind) := by
      rw [h, asked, List.flatMap_cons, List.append_assoc]
      rfl
    cases bodies with
    | nil =>
      have hlength := congrArg List.length hsplit
      rw [List.flatMap_nil, List.length_nil, List.length_append, frameOf, List.length_append,
        length_beU32] at hlength
      omega
    | cons body bodies =>
      rw [List.flatMap_cons] at hsplit
      obtain ⟨hbody, hrest⟩ := frameOf_append_inj (hlen body List.mem_cons_self)
        (hlengths e List.mem_cons_self) hsplit
      obtain ⟨rest, hbodies, hbehind⟩ := ih (fun b hb => hlen b (List.mem_cons_of_mem _ hb))
        (fun x hx => hlengths x (List.mem_cons_of_mem _ hx)) hrest
      exact ⟨rest, by rw [hbody, hbodies, List.map_cons, List.cons_append], hbehind⟩

/-- What the clients share: every call of the history is one of a client, the
calls of each client are its first requests, and it reads their answers; the
last may still be to come. -/
structure Shared (clients : List (List Request)) (h : List (Event Request Response))
    (conns : List Connection) : Prop where
  /-- Every call is one of a client. -/
  places : ∀ e ∈ h, e.place < clients.length
  /-- The calls of a client are its first requests. -/
  requests : ∀ i reqs, clients[i]? = some reqs → (callsOf i h).map Prod.fst <+: reqs
  /-- It reads the answers to them, but for the last one, which may be to come.
  -/
  responses : ∀ i c, conns[i]? = some c →
    (∀ keys, (Request.keys, Response.keys keys) ∈ callsOf i h →
      5 + (Response.keys keys).payload.length < 2 ^ 32) →
    ∀ received : TcpStream, received.incoming.flatten = c.stream.written →
      ∃ shown late, callsOf i h = shown ++ late ∧ late.length ≤ 1 ∧
      (c.phase = .readLen → late = []) ∧
        readResponses received = shown.map fun call => .ok call.2

/-- What has been written to a client, cut into whole responses and a rest. -/
theorem Transcript.written {input : Bytes} {exchanges : List (Bytes × Response)} {c : Connection}
    (h : Transcript input exchanges c) (hwhole : c.stream.written <+: answered exchanges)
    (hfits : ∀ e ∈ exchanges, 5 + e.2.payload.length < 2 ^ 32) :
    ∃ shown late rest, exchanges = shown ++ late ∧ late.length ≤ 1 ∧
      (c.phase = .readLen → late = []) ∧
      c.stream.written = answered shown ++ rest ∧ Incomplete rest := by
  obtain ⟨done, late, rfl, hlate, hidle, -, rest, hrest⟩ := h.responses
  cases late with
  | nil =>
    rw [List.append_nil, ← hrest] at hwhole
    have hnil : rest = [] := by
      have hlength := hwhole.length_le
      rw [List.length_append] at hlength
      exact List.length_eq_zero_iff.mp (by omega)
    refine ⟨done, [], [], rfl, hlate, hidle, ?_, incomplete_nil⟩
    rw [← hrest, hnil]
  | cons e late =>
    have hnil : late = [] :=
      List.length_eq_zero_iff.mp (Nat.le_zero.mp (Nat.le_of_succ_le_succ hlate))
    subst hnil
    rw [answered_concat, ← hrest] at hwhole
    have hpart : rest <+: framed e.2 := (List.prefix_append_right_inj _).mp hwhole
    by_cases hall : rest = framed e.2
    · refine ⟨done ++ [e], [], [], (List.append_nil _).symm, Nat.zero_le 1, fun _ => rfl, ?_,
        incomplete_nil⟩
      rw [← hrest, hall, answered_concat, List.append_nil]
    · have hlen : (ProtocolEncoder.new.encodeResponse e.2).finish.length < 2 ^ 32 := by
        rw [length_encodeResponse]
        exact hfits e (by simp)
      exact ⟨done, [e], rest, rfl, hlate, hidle, hrest.symm, incomplete_of_prefix hlen hpart hall⟩

/-- A client reads the responses that have been written to it. -/
theorem readResponses_of_written {shown : List (Bytes × Response)} {rest : Bytes}
    {received : TcpStream} (hform : ∀ e ∈ shown, e.2.WellFormed)
    (hfits : ∀ e ∈ shown, 5 + e.2.payload.length < 2 ^ 32) (hrest : Incomplete rest)
    (h : received.incoming.flatten = answered shown ++ rest) :
    readResponses received = shown.map fun e => .ok e.2 := by
  have hframes : answered shown = (shown.map Prod.snd).flatMap framed := by
    rw [answered, List.flatMap_map]
  have hmem : ∀ res ∈ shown.map Prod.snd, res.WellFormed ∧
      5 + res.payload.length < 2 ^ 32 := by
    intro res hres
    obtain ⟨e, he, rfl⟩ := List.mem_map.mp hres
    exact ⟨hform e he, hfits e he⟩
  rw [hframes] at h
  rw [readResponses_of_framed (fun res hres => (hmem res hres).1)
    (fun res hres => (hmem res hres).2)
    hrest h, List.map_map]
  rfl

/-- The request in a message. -/
def requestOf (body : Bytes) : Request :=
  (ProtocolDecoder.new body).decodeRequest.toOption.getD .ping

/-- A request that the encoder does not cut is decoded. -/
theorem decodeRequest_of_sendable {req : Request} (h : Sendable req) :
    (ProtocolDecoder.new (ProtocolEncoder.new.encodeRequest req).finish).decodeRequest = .ok req :=
  ProtocolDecoder.decodeRequest_encodeRequest h.1 h.2

/-- The request of such a message. -/
theorem requestOf_encodeRequest {req : Request} (h : Sendable req) :
    requestOf (ProtocolEncoder.new.encodeRequest req).finish = req := by
  rw [requestOf, decodeRequest_of_sendable h]
  rfl

section

variable [Texts] {m m' : HashMap Key Field} {req : Request} {res : Response}

/-- A message that a client encoded is answered as the map answers the request. -/
theorem remote_of_serves (hreq : Sendable req)
    (h : Serves m (ProtocolEncoder.new.encodeRequest req).finish res m') : Remote m req res m' := by
  have hsent := decodeRequest_of_sendable hreq
  cases h with
  | invalid hdecode => exact absurd hsent (hdecode.ne_ok req)
  | answered hdecode hanswer =>
    rw [hsent] at hdecode
    cases hdecode
    exact .answered hanswer
  | refused e hdecode hentry =>
    rw [hsent] at hdecode
    cases hdecode
    exact .refused e hentry

/-- What is answered from contents of clients can be encoded, and only a list
of all keys can be too long. -/
theorem fits_of_remote (htexts : Texts.Short) (hm : FromClients m) (hreq : Sendable req)
    (h : Remote m req res m') : FromClients m' ∧ Readable req res := by
  cases h with
  | refused e hentry =>
    have hshort := htexts.error (.io e)
    refine ⟨hm, trivial, fun _ => ?_⟩
    rw [Response.payload]
    omega
  | answered hanswer =>
    cases hanswer with
    | ping => exact ⟨hm, trivial, fun _ => by decide⟩
    | found hfield =>
      have hsent := hm.sent hfield
      obtain ⟨body, -, hdecode⟩ := id hsent
      exact ⟨hm, (encodable_of_decodeRequest hdecode).2.1.1, fun _ => hsent.length⟩
    | missing hnone => exact ⟨hm, trivial, fun _ => by decide⟩
    | set key field =>
      exact ⟨hm.set ⟨_, hreq.2, decodeRequest_of_sendable hreq⟩, trivial, fun _ => by decide⟩
    | del key => exact ⟨hm.del key, trivial, fun _ => by decide⟩
    | keys hnodup hmem =>
      refine ⟨hm, ?_, fun hne => absurd rfl (hne _)⟩
      intro key hkey
      obtain ⟨field, hfield⟩ :=
        Option.isSome_iff_exists.mp (Finmap.lookup_isSome.mpr ((hmem key).mp hkey))
      obtain ⟨body, -, hdecode⟩ := hm.sent hfield
      exact (encodable_of_decodeRequest hdecode).1

end

/-- What the clients send, in any chunks. -/
def SentBy (clients : List (List Request)) (inputs : List (List Bytes × Ending)) : Prop :=
  inputs.map (fun input => input.1.flatten) = clients.map fun reqs => reqs.flatMap sendRequest

instance (clients : List (List Request)) (inputs : List (List Bytes × Ending)) :
    Decidable (SentBy clients inputs) :=
  inferInstanceAs (Decidable (inputs.map (fun input => input.1.flatten) =
    clients.map fun reqs => reqs.flatMap sendRequest))

section

variable {clients : List (List Request)} {inputs : List (List Bytes × Ending)} {i : ℕ}

/-- Every client has its input. -/
theorem SentBy.length (h : SentBy clients inputs) : inputs.length = clients.length := by
  have hlength := congrArg List.length h
  rwa [List.length_map, List.length_map] at hlength

/-- The input of a client is what it sends. -/
theorem SentBy.input {reqs : List Request} (h : SentBy clients inputs)
    (hreqs : clients[i]? = some reqs) :
    ∃ input, inputs[i]? = some input ∧ input.1.flatten = reqs.flatMap sendRequest := by
  have hat := congrArg (fun l : List Bytes => l[i]?) h
  simp only [List.getElem?_map, hreqs, Option.map_some] at hat
  obtain ⟨input, hinput, hflatten⟩ := Option.map_eq_some_iff.mp hat
  exact ⟨input, hinput, hflatten⟩

/-- The messages of the requests of a client. -/
def bodiesOf (reqs : List Request) : List Bytes :=
  reqs.map fun req => (ProtocolEncoder.new.encodeRequest req).finish

/-- Requests are sent as framed messages. -/
theorem flatMap_sendRequest (reqs : List Request) :
    reqs.flatMap sendRequest = (bodiesOf reqs).flatMap frameOf := by
  rw [bodiesOf, List.flatMap_map]
  rfl

/-- The messages are short enough for their lengths. -/
theorem length_of_mem_bodiesOf {reqs : List Request} (hreqs : ∀ req ∈ reqs, Sendable req) :
    ∀ body ∈ bodiesOf reqs, body.length < 2 ^ 32 := by
  intro body hbody
  obtain ⟨req, hreq, rfl⟩ := List.mem_map.mp hbody
  exact (hreqs req hreq).2

/-- The requests of a client are those in its messages. -/
theorem map_requestOf_bodiesOf {reqs : List Request} (hreqs : ∀ req ∈ reqs, Sendable req) :
    (bodiesOf reqs).map requestOf = reqs := by
  rw [bodiesOf, List.map_map]
  conv_rhs => rw [← List.map_id reqs]
  exact List.map_congr_left fun req hreq => requestOf_encodeRequest (hreqs req hreq)

/-- The exchanges of a client that sends requests are with the first of these. -/
theorem Transcript.prefix_requests {reqs : List Request} {input : Bytes}
    {exchanges : List (Bytes × Response)} {c : Connection} (h : Transcript input exchanges c)
    (hinput : input = reqs.flatMap sendRequest) (hreqs : ∀ req ∈ reqs, Sendable req) :
    exchanges.map Prod.fst <+: bodiesOf reqs ∧ c.stream.written <+: answered exchanges := by
  obtain ⟨behind, hbehind, -, hwritten⟩ := h.requests
  have hlen := length_of_mem_bodiesOf hreqs
  obtain ⟨rest, hbodies, hrest⟩ :=
    asked_rest hlen h.lengths ((flatMap_sendRequest reqs).symm.trans (hinput.symm.trans hbehind))
  refine ⟨⟨rest, hbodies.symm⟩, hwritten.resolve_right ?_⟩
  rintro ⟨⟨hlong, hincomplete⟩, -⟩
  rw [hrest] at hlong hincomplete
  cases rest with
  | nil => cases hlong
  | cons body rest => exact not_incomplete_frameOf (hlen body (by rw [hbodies]; simp)) hincomplete

variable {h : List (Event Bytes Response)} {conns : List Connection}

/-- Every message of a history is one that a client encoded. -/
theorem Witnessed.sendable (hw : Witnessed inputs h conns) (hsent : SentBy clients inputs)
    (hclients : ∀ reqs ∈ clients, ∀ req ∈ reqs, Sendable req) {e : Event Bytes Response}
    (he : e ∈ h) :
    ∃ req, Sendable req ∧ e.op = (ProtocolEncoder.new.encodeRequest req).finish := by
  have hplace : e.place < clients.length := hsent.length ▸ hw.places e he
  have hreqs := List.getElem?_eq_getElem hplace
  obtain ⟨input, hinput, hflatten⟩ := hsent.input hreqs
  have hconn := List.getElem?_eq_getElem (hw.length.symm ▸ hw.places e he)
  have htranscript := hw.transcript _ _ _ hinput hconn
  have hsendable := hclients _ (List.getElem_mem hplace)
  obtain ⟨hfront, -⟩ := htranscript.prefix_requests hflatten hsendable
  have hop : e.op ∈ (callsOf e.place h).map Prod.fst := List.mem_map_of_mem (mem_callsOf he)
  obtain ⟨req, hreq, heq⟩ := List.mem_map.mp (hfront.subset hop)
  exact ⟨req, hsendable req hreq, heq.symm⟩

/-- What holds of the answers of a history holds of those of a client. -/
theorem readable_callsOf
    (hanswers : ∀ e ∈ h.map (Event.rename requestOf), Readable e.op e.res) :
    ∀ e ∈ callsOf i h, Readable (requestOf e.1) e.2 := by
  intro e he
  obtain ⟨x, hx, hxe⟩ := List.mem_filterMap.mp he
  obtain ⟨-, hcall⟩ := Option.ite_none_right_eq_some.mp hxe
  obtain rfl := Option.some.inj hcall
  exact hanswers _ (List.mem_map_of_mem hx)

/-- When no list of keys is too long, nothing is. -/
theorem fits_of_readable {exchanges : List (Bytes × Response)}
    (hreadable : ∀ e ∈ exchanges, Readable (requestOf e.1) e.2)
    (hkeys : ∀ keys, (Request.keys, Response.keys keys) ∈ exchanges.map
      (fun call => (requestOf call.1, call.2)) →
      5 + (Response.keys keys).payload.length < 2 ^ 32) :
    ∀ e ∈ exchanges, 5 + e.2.payload.length < 2 ^ 32 := by
  intro e he
  by_cases hlist : ∃ keys, (requestOf e.1, e.2) = (.keys, .keys keys)
  · obtain ⟨keys, heq⟩ := hlist
    have hmem := List.mem_map_of_mem (f := fun call : Bytes × Response =>
      (requestOf call.1, call.2)) he
    rw [heq] at hmem
    rw [(Prod.mk.inj heq).2]
    exact hkeys keys hmem
  · exact (hreadable e he).2 (not_exists.mp hlist)

/-- What the connections can tell is what the clients share. -/
theorem Witnessed.shared (hw : Witnessed inputs h conns) (hsent : SentBy clients inputs)
    (hclients : ∀ reqs ∈ clients, ∀ req ∈ reqs, Sendable req)
    (hanswers : ∀ e ∈ h.map (Event.rename requestOf), Readable e.op e.res) :
    Shared clients (h.map (Event.rename requestOf)) conns := by
  have hreadable := fun i => readable_callsOf (i := i) hanswers
  refine ⟨?_, ?_, ?_⟩
  · intro e he
    obtain ⟨x, hx, rfl⟩ := List.mem_map.mp he
    exact hsent.length ▸ hw.places x hx
  · intro i reqs hreqs
    obtain ⟨input, hinput, hflatten⟩ := hsent.input hreqs
    obtain ⟨hi, -⟩ := List.getElem?_eq_some_iff.mp hinput
    have hconn := List.getElem?_eq_getElem (hw.length.symm ▸ hi)
    have hsendable := hclients reqs (List.mem_of_getElem? hreqs)
    obtain ⟨hfront, -⟩ := (hw.transcript _ _ _ hinput hconn).prefix_requests hflatten hsendable
    have hrequests := hfront.map requestOf
    rw [List.map_map, map_requestOf_bodiesOf hsendable] at hrequests
    rw [callsOf_rename, List.map_map]
    exact hrequests
  · intro i c hc hkeys received hreceived
    obtain ⟨hi, -⟩ := List.getElem?_eq_some_iff.mp hc
    have hreqs := List.getElem?_eq_getElem (hsent.length ▸ hw.length ▸ hi)
    obtain ⟨input, hinput, hflatten⟩ := hsent.input hreqs
    have htranscript := hw.transcript _ _ _ hinput hc
    obtain ⟨-, hwhole⟩ := htranscript.prefix_requests hflatten (hclients _ (List.getElem_mem _))
    rw [callsOf_rename] at hkeys ⊢
    have hfits := fits_of_readable (hreadable i) hkeys
    obtain ⟨shown, late, rest, hcalls, hlate, hidle, hwritten, hrest⟩ :=
      htranscript.written hwhole hfits
    rw [hcalls] at hfits ⊢
    have hform : ∀ e ∈ shown, e.2.WellFormed := by
      intro e he
      exact (hreadable i e (by rw [hcalls]; exact List.mem_append_left _ he)).1
    have hread := readResponses_of_written hform (fun e he => hfits e (List.mem_append_left _ he))
      hrest
      (hreceived.trans hwritten)
    refine ⟨_, _, List.map_append, by rwa [List.length_map], ?_, ?_⟩
    · intro hphase
      rw [hidle hphase]
      rfl
    · rw [hread, List.map_map]
      rfl

variable [Texts] {m m' : HashMap Key Field}

/-- The history of the requests in the messages. -/
theorem legal_requests (hlegal : Legal Serves m h m')
    (hcalls : ∀ e ∈ h, ∃ req, Sendable req ∧
      e.op = (ProtocolEncoder.new.encodeRequest req).finish) :
    Legal (fun m req res m' => Sendable req ∧ Remote m req res m') m
      (h.map (Event.rename requestOf)) m' := by
  refine (hlegal.restrict (Q := fun body => ∃ req, Sendable req ∧
    body = (ProtocolEncoder.new.encodeRequest req).finish) hcalls).rename requestOf ?_
  rintro m body res m' ⟨⟨req, hreq, rfl⟩, hserves⟩
  rw [requestOf_encodeRequest hreq]
  exact ⟨hreq, remote_of_serves hreq hserves⟩

/-- The contents stay those of clients, and the answers can be read. -/
theorem fits_of_legal (htexts : Texts.Short) (hm : FromClients m)
    {g : List (Event Request Response)}
    (hlegal : Legal (fun m req res m' => Sendable req ∧ Remote m req res m') m g m') :
    FromClients m' ∧ ∀ e ∈ g, Readable e.op e.res := by
  refine hlegal.invariant (I := fun g m' => FromClients m' ∧ ∀ e ∈ g, Readable e.op e.res)
    ⟨hm, by simp⟩ ?_
  rintro g e m₁ m₂ ⟨hm₁, hbefore⟩ ⟨hreq, hremote⟩
  obtain ⟨hm₂, hreadable⟩ := fits_of_remote htexts hm₁ hreq hremote
  refine ⟨hm₂, ?_⟩
  intro e' he'
  rcases List.mem_append.mp he' with he' | he'
  · exact hbefore e' he'
  · rw [List.mem_singleton.mp he']
    exact hreadable

/-- Over the encoders, the server and the decoders, the clients share one map:
whatever they send in whatever chunks, and however their connections interleave
and fail, there is one order of all calls of a behaviour in which a map gives
the answers that each client reads to its own requests. At every time the calls
until then are the first ones, so that the order agrees with real time. -/
theorem remote_map_linearizable [Crc] (htexts : Texts.Short) {db₀ : Database}
    (hdb : FromClients db₀.state.fields)
    (hclients : ∀ reqs ∈ clients, ∀ req ∈ reqs, Sendable req)
    (hsent : SentBy clients inputs) {σ : ℕ → Pool Database Connection}
    (hstart : σ 0 = ⟨db₀, accepted inputs⟩) (hσ : Behaviour Connection.step anyStep σ) :
    ∃ g : ℕ → List (Event Request Response), (∀ m n, m ≤ n → g m <+: g n) ∧ ∀ n,
      Legal Remote db₀.state.fields (g n) (σ n).shared.state.fields ∧
        Shared clients (g n) (σ n).tasks := by
  obtain ⟨h, hgrows, hhistory⟩ := exists_history hstart hσ
  refine ⟨fun n => (h n).map (Event.rename requestOf), fun m n hmn => (hgrows m n hmn).map _,
    fun n => ?_⟩
  obtain ⟨hlegal, hplaces, hlength, hperformed⟩ := hhistory n
  have hw := Performed.witnessed hperformed hplaces hlength
  have hrequests := legal_requests hlegal fun e he => hw.sendable hsent hclients he
  obtain ⟨-, hanswers⟩ := fits_of_legal htexts hdb hrequests
  exact ⟨hrequests.mono fun _ _ _ _ hstep => hstep.2, hw.shared hsent hclients hanswers⟩

end

open scoped IsoHdlc LinuxTexts

/-- The requests of the two clients. -/
def setThenGet : List (List Request) :=
  [[.set (.ofText "k") (.primitive (.integer 9))], [.get (.ofText "k")]]

/-- The two clients send their requests. -/
theorem sentBy_setThenGet : SentBy setThenGet setAndGet := by decide +kernel

/-- The texts of this operating system are short. -/
theorem shortTexts : Texts.Short := by
  have hutf8 : (stringBytes "invalid utf-8").length ≤ 1024 := by decide +kernel
  exact ⟨by decide +kernel, by decide +kernel, fun _ => hutf8⟩

/-- The second client may read the key before the first one has its answer. -/
theorem remote_map_linearizable_setThenGet :
    let σ := played Connection.step anyStep setAndGetSchedule setAndGetPool
    ∃ g : ℕ → List (Event Request Response), (∀ m n, m ≤ n → g m <+: g n) ∧ ∀ n,
      Legal Remote ∅ (g n) (σ n).shared.state.fields ∧ Shared setThenGet (g n) (σ n).tasks :=
  remote_map_linearizable shortTexts .empty (by decide +kernel) sentBy_setThenGet
    (played_zero setAndGetSchedule setAndGetPool) (behaviour_played _ _)

end PeachDB.Server
