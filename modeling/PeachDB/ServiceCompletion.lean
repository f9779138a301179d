import PeachDB.RemoteMap

/-!
# Every message is answered

Connections to which no write fails, on any inputs and with any verdicts on the
log. Every section of a connection is paid for by the bytes of its client, so
that the service comes to an end. When no section is left, every client has the
responses to all of its whole messages, and what is left of its input is no
whole message, or one on which the decoder panics. An allocator that refuses the
capacity of an array ends the process, and the run with it.
-/

namespace PeachDB.Server

open LittleEndian Dtypes RecordCodec FileHandler WriteAheadLog Interleaving Db Protocol
  Linearization

/-- Steps in which no write to the client fails. -/
def Connection.stepDelivered [Crc] [Texts] (choice : ConnChoice) (db : Database) (c : Connection) :
    Option (Database × Connection) :=
  if choice.net = .done then c.step choice db else none

/-- What `handle_connection` returns when `behind` is no whole message. -/
def closing (behind : Bytes) : Ending → PDBResult Unit
  | .failed e => if behind.length < 4 then failWith (.io e) else .ok ()
  | .eof => .ok ()
  | .reset => .ok ()

/-- A client to which nothing is left to be written: it has been answered up to
the end of its input, or up to a message that made the decoder panic. -/
inductive Completed (input : Bytes) (ending : Ending) (exchanges : List (Bytes × Response)) :
    Connection → Prop
  /-- The connection has come to the end of the input. -/
  | ended {stream : TcpStream} (behind : Bytes) (hinput : input = asked exchanges ++ behind)
      (hlengths : ∀ e ∈ exchanges, e.1.length < 2 ^ 32) (hincomplete : Incomplete behind)
      (hout : stream.written = answered exchanges ++ lastWords behind) :
      Completed input ending exchanges ⟨stream, .closed (closing behind ending)⟩
  /-- The decoder has panicked. -/
  | panicked {stream : TcpStream} {body : Bytes} (behind : Bytes)
      (hinput : input = asked exchanges ++ (frameOf body ++ behind))
      (hlengths : ∀ e ∈ exchanges, e.1.length < 2 ^ 32) (hlength : body.length < 2 ^ 32)
      (hdecode : Panics (ProtocolDecoder.new body).decodeRequest)
      (hout : stream.written = answered exchanges) :
      Completed input ending exchanges ⟨stream, .closed (.error .panic)⟩

/-- A connection that is in service, or has come to its end. -/
inductive InSession [Texts] (input : Bytes) (ending : Ending) (exchanges : List (Bytes × Response))
    (c : Connection) : Prop
  /-- The connection goes on. -/
  | going (hservice : InService input exchanges c) (hopen : ∀ result, c.phase ≠ .closed result)
      (hending : c.stream.ending = ending) : InSession input ending exchanges c
  /-- The connection has ended. -/
  | completed (h : Completed input ending exchanges c) : InSession input ending exchanges c

/-- The sessions of the client at each place. -/
def InSessionAt [Texts] (clients : List (List Bytes × Ending)) (i : ℕ)
    (exchanges : List (Bytes × Response)) (c : Connection) : Prop :=
  ∃ client, clients[i]? = some client ∧ InSession client.1.flatten client.2 exchanges c

/-- Every exchange of a history is one of a client, and every client has been
answered in full. The frames in which responses are written carry them. -/
structure AllCompleted (clients : List (List Bytes × Ending)) (h : List (Event Bytes Response))
    (conns : List Connection) : Prop where
  /-- Every exchange is one of a client. -/
  places : ∀ e ∈ h, e.place < clients.length
  /-- Every client has a connection. -/
  length : conns.length = clients.length
  /-- Every client has been answered. -/
  completed : ∀ i client c, clients[i]? = some client → conns[i]? = some c →
    Completed client.1.flatten client.2 (callsOf i h) c
  /-- A frame carries its response. -/
  frames : ∀ e ∈ h, e.res.WellFormed → 5 + e.res.payload.length < 2 ^ 32 →
    Carries (framed e.res) e.res

section

variable {buf body : Bytes} {req : Request} {task : Task} {result : PDBResult (Option Field)}
  {returned : PDBResult Unit}

/-- A call that has a result is about to respond. -/
theorem rank_of_resultOf (h : resultOf task = some result) : (Phase.call req task).rank = 3 := by
  unfold resultOf at h
  split at h
  · rfl
  · rfl
  · rfl
  · cases h

/-- A message closes the connection only by a panic. -/
theorem panic_of_handleMessage {grants : ℕ → Bool}
    (h : handleMessage grants buf = some (.closed returned)) :
    Panics (ProtocolDecoder.new buf).decodeRequest ∧ returned = .error .panic := by
  rcases handleMessage_cases h with ⟨req, -, heq⟩ | ⟨e, -, heq⟩ | ⟨hpanics, heq⟩
  · cases req <;> cases heq
  · cases heq
  · cases heq
    exact ⟨hpanics, rfl⟩

/-- Behind a message a connection is at most at the append of an entry. -/
theorem rank_handleMessage {grants : ℕ → Bool} {phase : Phase}
    (h : handleMessage grants buf = some phase) :
    phase.rank ≤ 5 := by
  rcases handleMessage_cases h with ⟨req, -, rfl⟩ | ⟨e, -, rfl⟩ | ⟨-, rfl⟩
  · cases req <;> simp [handleRequest, Phase.rank]
  · simp [Phase.rank]
  · simp [Phase.rank]

end

section

variable [Crc] [Texts] {db db' : Database} {c c' : Connection} {choice : ConnChoice} {input : Bytes}
  {exchanges : List (Bytes × Response)} {stream : TcpStream} {returned : PDBResult Unit}

omit [Crc] [Texts] in
/-- A read leaves the end of the stream as it is. -/
theorem ending_readExact (stream : TcpStream) (n : ℕ) :
    (stream.readExact n).2.ending = stream.ending := by
  unfold TcpStream.readExact
  split <;> rfl

omit [Crc] [Texts] in
/-- A write leaves the end of the stream as it is. -/
theorem ending_writeAll (io : Verdict) (stream : TcpStream) (bytes : Bytes) :
    (stream.writeAll io bytes).2.ending = stream.ending := by
  cases io <;> rfl

/-- What comes behind the bytes of the client does not change. -/
theorem ending_of_step (h : c.step choice db = some (db', c')) :
    c'.stream.ending = c.stream.ending := by
  have hread : ∀ {n : ℕ} {out : Except Ending Bytes × TcpStream}, c.stream.readExact n =
      out →
      out.2.ending = c.stream.ending := by
    rintro n out rfl
    exact ending_readExact _ _
  unfold Connection.step at h
  split at h
  · split at h
    all_goals
      next heq =>
      cases h
      exact hread heq
  · split at h
    · next heq =>
      obtain ⟨phase, -, hout⟩ := Option.map_eq_some_iff.mp h
      cases hout
      exact hread heq
    · next heq =>
      cases h
      exact hread heq
  · split at h
    · cases h
      rfl
    · obtain ⟨out, -, heq⟩ := Option.map_eq_some_iff.mp h
      cases heq
      rfl
  · obtain ⟨-, heq⟩ := Option.ite_none_right_eq_some.mp h
    cases heq
    rfl
  · cases h
    exact ending_writeAll _ _ _
  · cases h
    exact ending_writeAll _ _ _
  · cases h

/-- Reading a length is paid for. -/
theorem budget_readLen_lt
    (hstep : Connection.step choice db ⟨stream, .readLen⟩ = some (db', c')) :
    c'.budget < Connection.budget ⟨stream, .readLen⟩ := by
  simp only [Connection.step] at hstep
  split at hstep
  · next hread =>
    cases hstep
    obtain ⟨hlength, hflatten, -⟩ := readExact_ok hread
    simp only [Connection.budget, Phase.rank, hflatten, List.length_append]
    omega
  all_goals
    next hread =>
    cases hstep
    obtain ⟨rfl, -⟩ := readExact_error hread
    simp [Connection.budget, Phase.rank]

/-- Reading a message is paid for. -/
theorem budget_readBody_lt {n : ℕ}
    (hstep : Connection.step choice db ⟨stream, .readBody n⟩ = some (db', c')) :
    c'.budget < Connection.budget ⟨stream, .readBody n⟩ := by
  simp only [Connection.step] at hstep
  split at hstep
  · next hread =>
    obtain ⟨phase, hphase, heq⟩ := Option.map_eq_some_iff.mp hstep
    cases heq
    obtain ⟨-, hflatten, -⟩ := readExact_ok hread
    have hbefore : (Phase.readBody n).rank = 6 := rfl
    have hafter := rank_handleMessage hphase
    simp only [Connection.budget, hflatten, List.length_append]
    omega
  · next hread =>
    cases hstep
    obtain ⟨rfl, -⟩ := readExact_error hread
    simp [Connection.budget, Phase.rank]

/-- Every section of a connection is paid for. -/
theorem InService.budget_lt (h : InService input exchanges c)
    (hstep : c.step choice db = some (db', c')) :
    c'.budget < c.budget := by
  cases h with
  | readLen => exact budget_readLen_lt hstep
  | readBody => exact budget_readBody_lt hstep
  | waiting h hlength hdecode htask hout =>
    cases htask with
    | get key =>
      cases hstep
      simp [Connection.budget, Phase.rank]
    | append hentry =>
      simp only [Connection.step, resultOf, Task.step, Option.map_some, Option.some.injEq,
        Prod.mk.injEq] at hstep
      obtain ⟨-, rfl⟩ := hstep
      cases (Wal.appendEntry choice.task.first choice.task.second db.wal _).1 <;>
        simp [Connection.budget, proceed, Phase.rank]
    | update hentry =>
      cases hstep
      simp [Connection.budget, Phase.rank]
  | listKeys h hlength hdecode hout =>
    simp only [Connection.step, Option.ite_none_right_eq_some] at hstep
    cases hstep.2
    simp [Connection.budget, Phase.rank]
  | @called front stream body req task result res h hresult hres hout =>
    simp only [Connection.step, hresult] at hstep
    cases hstep
    have hbefore : (Phase.call req task).rank = 3 := rank_of_resultOf hresult
    have hafter : (Phase.send res).rank = 2 := rfl
    simp only [Connection.budget, hres]
    omega
  | @send front stream body res h hout =>
    cases hstep
    cases choice.net <;> simp [Connection.budget, Phase.rank]
  | @giveUp _ stream pending behind h hcut hout =>
    cases hstep
    cases choice.net <;> simp [Connection.budget, Phase.rank]
  | closed => cases hstep

omit [Crc] [Texts] in
/-- A message that is cut off closes the connection without an error. -/
theorem closing_of_long {behind : Bytes} (h : 4 ≤ behind.length) (ending : Ending) :
    closing behind ending = .ok () := by
  cases ending with
  | failed e => rw [closing, if_neg (Nat.not_lt.mpr h)]
  | eof => rfl
  | reset => rfl

/-- A connection closes when no length can be read. -/
theorem step_of_short (hshort : stream.incoming.flatten.length < 4) :
    Connection.step choice db ⟨stream, .readLen⟩ =
      some (db, ⟨{ stream with incoming := [] },
        .closed (closing stream.incoming.flatten stream.ending)⟩) := by
  simp only [Connection.step, readExact_short hshort]
  cases hending : stream.ending with
  | eof => rfl
  | reset => rfl
  | failed e => simp only [closing, if_pos hshort]

/-- A connection that closes where a length is to be read has been answered. -/
theorem completed_of_readLen (h : Heard input exchanges [] stream)
    (hout : stream.written = answered exchanges)
    (hstep : Connection.step choice db ⟨stream, .readLen⟩ = some (db', c'))
    (hclosed : c'.phase = .closed returned) :
    db' = db ∧ Completed input stream.ending exchanges c' := by
  by_cases hshort : stream.incoming.flatten.length < 4
  · rw [step_of_short hshort] at hstep
    cases hstep
    refine ⟨rfl, .ended _ h.input h.lengths ?_ ?_⟩
    · rw [Incomplete]
      omega
    · rw [lastWords, if_pos hshort, List.append_nil]
      exact hout
  · obtain ⟨incoming, hread, -⟩ :=
      readExact_of_flatten (List.take_append_drop 4 stream.incoming.flatten).symm
        (List.length_take_of_le (Nat.not_lt.mp hshort))
    simp only [Connection.step, hread] at hstep
    cases hstep
    cases hclosed

/-- A connection that closes behind a message has panicked in decoding it. -/
theorem completed_of_readBody {n : UInt32} (h : Heard input exchanges (beU32 n) stream)
    (hout : stream.written = answered exchanges)
    (hstep : Connection.step choice db ⟨stream, .readBody n.toNat⟩ = some (db', c'))
    (hclosed : c'.phase = .closed returned) :
    db' = db ∧ Completed input stream.ending exchanges c' := by
  simp only [Connection.step] at hstep
  split at hstep
  · next hread =>
    obtain ⟨phase, hphase, heq⟩ := Option.map_eq_some_iff.mp hstep
    cases heq
    obtain ⟨hheard, hlength⟩ := h.message hread
    dsimp only at hclosed
    subst hclosed
    obtain ⟨hdecode, rfl⟩ := panic_of_handleMessage hphase
    exact ⟨rfl, .panicked _ hheard.input h.lengths hlength hdecode
      ((readExact_ok hread).2.2.trans hout)⟩
  · cases hstep
    cases hclosed

/-- A section that closes the connection leaves nothing to be written. -/
theorem InService.completes (h : InService input exchanges c) (hnet : choice.net = .done)
    (hstep : c.step choice db = some (db', c')) (hclosed : c'.phase = .closed returned) :
    db' = db ∧ Completed input c.stream.ending exchanges c' := by
  cases h with
  | readLen h hout => exact completed_of_readLen h hout hstep hclosed
  | readBody h hout => exact completed_of_readBody h hout hstep hclosed
  | waiting h hlength hdecode htask hout =>
    cases htask with
    | get key =>
      cases hstep
      cases hclosed
    | append hentry =>
      cases hstep
      cases hclosed
    | update hentry =>
      cases hstep
      cases hclosed
  | listKeys h hlength hdecode hout =>
    simp only [Connection.step, Option.ite_none_right_eq_some] at hstep
    cases hstep.2
    cases hclosed
  | called h hresult hres hout =>
    simp only [Connection.step, hresult] at hstep
    cases hstep
    rw [hres] at hclosed
    cases hclosed
  | @send front stream body res h hout =>
    simp only [Connection.step, hnet, TcpStream.writeAll] at hstep
    cases hstep
    cases hclosed
  | @giveUp _ stream pending behind h hcut hout =>
    simp only [Connection.step, hnet, TcpStream.writeAll] at hstep
    cases hstep
    have hinput := h.input
    rw [List.flatten_singleton] at hinput
    rw [← closing_of_long hcut.1 stream.ending]
    refine ⟨rfl, .ended _ hinput h.lengths hcut.2 ?_⟩
    rw [lastWords, if_neg (Nat.not_lt.mpr hcut.1), hout]
    rfl
  | closed => cases hstep

/-- A connection that has not been closed has a section to do. -/
theorem InService.exists_step (h : InService input exchanges c)
    (hopen : ∀ returned, c.phase ≠ .closed returned) (db : Database) :
    ∃ choice out, c.stepDelivered choice db = some out := by
  obtain ⟨order, horder⟩ := IterOrder.exists_of db.state.fields
  have hstep : ∃ out, c.step { ConnChoice.plain with fields := order } db = some out := by
    cases h with
    | readLen h hout =>
      simp only [Connection.step]
      split <;> exact ⟨_, rfl⟩
    | readBody h hout =>
      simp only [Connection.step]
      split
      · next buf _ _ =>
        obtain ⟨phase, hphase⟩ := exists_handleMessage buf
        exact ⟨_, congrArg (Option.map _) hphase⟩
      · exact ⟨_, rfl⟩
    | waiting h hlength hdecode htask hout => cases htask <;> exact ⟨_, rfl⟩
    | listKeys h hlength hdecode hout => exact ⟨_, if_pos horder⟩
    | called h hresult hres hout =>
      simp only [Connection.step, hresult]
      exact ⟨_, rfl⟩
    | send h hout => exact ⟨_, rfl⟩
    | giveUp behind h hcut hout => exact ⟨_, rfl⟩
    | closed => exact absurd rfl (hopen _)
  obtain ⟨out, hout⟩ := hstep
  have hdone : ({ ConnChoice.plain with fields := order } : ConnChoice).net = .done := rfl
  refine ⟨{ ConnChoice.plain with fields := order }, out, ?_⟩
  rw [Connection.stepDelivered, if_pos hdone]
  exact hout

/-- A section of a connection does at most one exchange with the map, and when
it is the last one the client has been answered in full. -/
theorem commits_sessions (clients : List (List Bytes × Ending)) :
    Commits Connection.stepDelivered anyStep Serves (fun db => db.state.fields)
      (InSessionAt clients) := by
  rintro i exchanges choice db others c db' c' - hstep ⟨client, hclient, hsession⟩
  obtain ⟨hnet, hstep⟩ := Option.ite_none_right_eq_some.mp hstep
  cases hsession with
  | completed h =>
    cases h <;> cases hstep
  | going hservice hopen hending =>
    by_cases hclosed : ∃ returned, c'.phase = .closed returned
    · obtain ⟨returned, hreturned⟩ := hclosed
      obtain ⟨rfl, hcompleted⟩ := hservice.completes hnet hstep hreturned
      exact .inl ⟨rfl, client, hclient, .completed (hending ▸ hcompleted)⟩
    · have hopen' := not_exists.mp hclosed
      have hending' := (ending_of_step hstep).trans hending
      obtain ⟨new, heffect, hservice'⟩ := hservice.step hstep
      rcases heffect.serves with ⟨rfl, hfields⟩ | ⟨body, res, rfl, hserves⟩
      · rw [List.append_nil] at hservice'
        exact .inl ⟨hfields, client, hclient, .going hservice' hopen' hending'⟩
      · exact .inr ⟨body, res, hserves, client, hclient, .going hservice' hopen' hending'⟩

/-- A run goes on, or every client has been answered in full. -/
theorem allCompleted_of_run {clients : List (List Bytes × Ending)} {db₀ : Database}
    {trace : List Connection} {pool : Pool Database Connection}
    (hrun : Run Connection.stepDelivered anyStep ⟨db₀, accepted clients⟩ trace pool) :
    (∃ c pool', Step Connection.stepDelivered anyStep pool c pool') ∨
      ∃ h, Legal Serves db₀.state.fields h pool.shared.state.fields ∧
      AllCompleted clients h pool.tasks := by
  have hstart : Performed (InSessionAt clients) [] (accepted clients) := by
    intro i c hc
    obtain ⟨client, hclient, hservice⟩ := performed_accepted clients i c hc
    rw [accepted, List.getElem?_map, hclient] at hc
    cases hc
    exact ⟨client, hclient, .going hservice (by rintro _ ⟨⟩) rfl⟩
  obtain ⟨h, hlegal, hplaces, hlength, hperformed⟩ := hstart.run (commits_sessions clients) hrun
  rw [List.nil_append] at hperformed
  have haccepted : (accepted clients).length = clients.length := List.length_map _
  rw [haccepted] at hplaces hlength
  by_cases hgoes : ∃ c pool', Step Connection.stepDelivered anyStep pool c pool'
  · exact .inl hgoes
  · refine .inr ⟨h, hlegal, hplaces, hlength, ?_, fun e _ hform hfits =>
      carries_framed hform hfits⟩
    intro i client c hclient hc
    obtain ⟨client', hclient', hsession⟩ := hperformed i c hc
    rw [hclient] at hclient'
    cases hclient'
    cases hsession with
    | completed hcompleted => exact hcompleted
    | going hservice hopen hending =>
      obtain ⟨choice, out, hout⟩ := hservice.exists_step hopen pool.shared
      exact absurd ⟨c, _, .of_place hc trivial hout⟩ hgoes

/-- The bytes of the clients pay for every section. -/
theorem length_le_of_run {clients : List (List Bytes × Ending)} {db₀ : Database}
    {trace : List Connection} {pool : Pool Database Connection}
    (hrun : Run Connection.stepDelivered anyStep ⟨db₀, accepted clients⟩ trace pool) :
    trace.length ≤ (clients.map fun client => 2 * client.1.flatten.length + 1).sum := by
  have hbudget := hrun.length_le (P := fun c => ∃ input exchanges, InService input exchanges c)
    (b := Connection.budget) ?_ ?_
  · rw [accepted, List.map_map] at hbudget
    exact (Nat.le_add_right _ _).trans hbudget
  · rintro choice db others c db' c' - hstep ⟨input, exchanges, hservice⟩
    obtain ⟨-, hstep⟩ := Option.ite_none_right_eq_some.mp hstep
    obtain ⟨new, -, hservice'⟩ := hservice.step hstep
    exact ⟨⟨input, _, hservice'⟩, hservice.budget_lt hstep⟩
  · intro c hc
    obtain ⟨client, -, rfl⟩ := List.mem_map.mp hc
    exact ⟨_, _, inService_accept _ _⟩

/-- Every client gets its responses: whatever the clients send, in whatever
chunks, and however their connections interleave, the service takes a bounded
number of sections, and when none is left there is one order of all exchanges
in which a map gives the responses and every client has been answered in full. -/
theorem every_message_answered {clients : List (List Bytes × Ending)} {db₀ : Database}
    {trace : List Connection} {pool : Pool Database Connection}
    (hrun : Run Connection.stepDelivered anyStep ⟨db₀, accepted clients⟩ trace pool) :
    trace.length ≤ (clients.map fun client => 2 * client.1.flatten.length + 1).sum ∧
      ((∃ c pool', Step Connection.stepDelivered anyStep pool c pool') ∨
        ∃ h, Legal Serves db₀.state.fields h pool.shared.state.fields ∧
        AllCompleted clients h pool.tasks) :=
  ⟨length_le_of_run hrun, allCompleted_of_run hrun⟩

end

/-- What the clients have at the end: the calls of each client are all of its
requests, and it reads the answers to them. -/
structure AllAnswered (clients : List (List Request)) (h : List (Event Request Response))
    (conns : List Connection) : Prop where
  /-- Every call is one of a client. -/
  places : ∀ e ∈ h, e.place < clients.length
  /-- The calls of a client are its requests. -/
  requests : ∀ i reqs, clients[i]? = some reqs → (callsOf i h).map Prod.fst = reqs
  /-- It reads the answers to all of them. -/
  responses : ∀ i c, conns[i]? = some c →
    (∀ keys, (Request.keys, Response.keys keys) ∈ callsOf i h →
      5 + (Response.keys keys).payload.length < 2 ^ 32) →
    ∀ received : TcpStream, received.incoming.flatten = c.stream.written →
      readResponses received = (callsOf i h).map fun call => .ok call.2

section

variable {clients : List (List Request)} {inputs : List (List Bytes × Ending)}
  {h : List (Event Bytes Response)} {conns : List Connection}

/-- A client that sends requests has been answered all of them. -/
theorem Completed.all_requests {reqs : List Request} {input : Bytes} {ending : Ending}
    {exchanges : List (Bytes × Response)} {c : Connection} (h : Completed input ending exchanges c)
    (hinput : input = reqs.flatMap sendRequest) (hreqs : ∀ req ∈ reqs, Sendable req) :
    exchanges.map Prod.fst = bodiesOf reqs ∧ c.stream.written = answered exchanges := by
  have hlen := length_of_mem_bodiesOf hreqs
  have hframes := (flatMap_sendRequest reqs).symm.trans hinput.symm
  cases h with
  | ended behind hasked hlengths hincomplete hout =>
    obtain ⟨rest, hbodies, rfl⟩ := asked_rest hlen hlengths (hframes.trans hasked)
    cases rest with
    | nil =>
      rw [hbodies, List.append_nil]
      exact ⟨rfl, hout.trans (List.append_nil _)⟩
    | cons body rest =>
      exact absurd hincomplete (not_incomplete_frameOf (hlen body (by rw [hbodies]; simp)))
  | @panicked _ body behind hasked hlengths hlength hdecode hout =>
    obtain ⟨rest, hbodies, hrest⟩ := asked_rest hlen hlengths (hframes.trans hasked)
    cases rest with
    | nil =>
      have hnil := congrArg List.length hrest
      rw [frameOf, List.append_assoc, List.length_append, length_beU32, List.flatMap_nil,
        List.length_nil] at hnil
      omega
    | cons body' rest =>
      have hmem : body' ∈ bodiesOf reqs := by
        rw [hbodies]
        simp
      obtain ⟨rfl, -⟩ := frameOf_append_inj hlength (hlen body' hmem) hrest
      obtain ⟨req, hreq, rfl⟩ := List.mem_map.mp hmem
      exact absurd (decodeRequest_of_sendable (hreqs req hreq)) (hdecode.ne_ok req)

/-- A client that has been answered in full has been answered to all its
requests. -/
theorem AllCompleted.all_requests (hall : AllCompleted inputs h conns)
    (hsent : SentBy clients inputs)
    (hclients : ∀ reqs ∈ clients, ∀ req ∈ reqs, Sendable req) {i : ℕ}
    {reqs : List Request} (hreqs : clients[i]? = some reqs) :
    ∃ c, conns[i]? = some c ∧ (callsOf i h).map Prod.fst = bodiesOf reqs ∧
      c.stream.written = answered (callsOf i h) := by
  obtain ⟨input, hinput, hflatten⟩ := hsent.input hreqs
  obtain ⟨hi, -⟩ := List.getElem?_eq_some_iff.mp hinput
  have hconn := List.getElem?_eq_getElem (hall.length.symm ▸ hi)
  exact ⟨_, hconn, (hall.completed i _ _ hinput hconn).all_requests hflatten
    (hclients reqs (List.mem_of_getElem? hreqs))⟩

/-- Every call of a client returns: the service takes a bounded number of
sections, and when none is left every client that sent requests reads the
answers to all of them, which a map gives in one order of all calls. -/
theorem every_call_answered [Crc] [Texts] (htexts : Texts.Short) {db₀ : Database}
    (hdb : FromClients db₀.state.fields)
    (hclients : ∀ reqs ∈ clients, ∀ req ∈ reqs, Sendable req)
    (hsent : SentBy clients inputs) {trace : List Connection} {pool : Pool Database Connection}
    (hrun : Run Connection.stepDelivered anyStep ⟨db₀, accepted inputs⟩ trace pool) :
    trace.length ≤ (clients.map fun reqs => 2 * (reqs.flatMap sendRequest).length + 1).sum ∧
      ((∃ c pool', Step Connection.stepDelivered anyStep pool c pool') ∨
        ∃ g, Legal Remote db₀.state.fields g pool.shared.state.fields ∧
        AllAnswered clients g pool.tasks) := by
  refine ⟨?_, ?_⟩
  · have hbytes := congrArg (List.map fun bytes : Bytes => 2 * bytes.length + 1) hsent
    rw [List.map_map, List.map_map] at hbytes
    exact (length_le_of_run hrun).trans (congrArg List.sum hbytes).le
  rcases allCompleted_of_run hrun with hgoes | ⟨h, hlegal, hall⟩
  · exact .inl hgoes
  have hcalls : ∀ e ∈ h, ∃ req, Sendable req ∧
      e.op = (ProtocolEncoder.new.encodeRequest req).finish := by
    intro e he
    have hreqs := List.getElem?_eq_getElem (hsent.length ▸ hall.places e he)
    obtain ⟨-, -, hops, -⟩ := hall.all_requests hsent hclients hreqs
    have hop : e.op ∈ bodiesOf _ := hops ▸ List.mem_map_of_mem (mem_callsOf he)
    obtain ⟨req, hreq, heq⟩ := List.mem_map.mp hop
    exact ⟨req, hclients _ (List.getElem_mem _) req hreq, heq.symm⟩
  have hrequests := legal_requests hlegal hcalls
  obtain ⟨-, hanswers⟩ := fits_of_legal htexts hdb hrequests
  refine .inr ⟨_, hrequests.mono fun _ _ _ _ hstep => hstep.2, ?_, ?_, ?_⟩
  · intro e he
    obtain ⟨x, hx, rfl⟩ := List.mem_map.mp he
    exact hsent.length ▸ hall.places x hx
  · intro i reqs hreqs
    obtain ⟨-, -, hops, -⟩ := hall.all_requests hsent hclients hreqs
    have hself := congrArg (List.map requestOf) hops
    rw [map_requestOf_bodiesOf (hclients reqs (List.mem_of_getElem? hreqs)), List.map_map] at hself
    rw [callsOf_rename, List.map_map]
    exact hself
  · intro i c hc hkeys received hreceived
    obtain ⟨hi, -⟩ := List.getElem?_eq_some_iff.mp hc
    have hreqs := List.getElem?_eq_getElem (hsent.length ▸ hall.length ▸ hi)
    obtain ⟨c', hc', -, hwritten⟩ := hall.all_requests hsent hclients hreqs
    rw [hc] at hc'
    cases hc'
    have hreadable := readable_callsOf (i := i) hanswers
    rw [callsOf_rename] at hkeys ⊢
    rw [readResponses_of_written (fun e he => (hreadable e he).1) (fits_of_readable hreadable hkeys)
      incomplete_nil (by rw [hreceived, hwritten, List.append_nil]), List.map_map]
    rfl

end

open scoped IsoHdlc LinuxTexts

/-- Both clients are served to the end. -/
theorem setAndGet_served : (drive Connection.stepDelivered anyStep
    [(0, .plain), (1, .plain), (0, .plain), (0, .plain), (0, .plain), (1, .plain), (1, .plain),
      (0, .plain), (1, .plain), (1, .plain), (0, .plain), (0, .plain), (1, .plain)]
    ⟨Database.new "db" [] ⟨[], []⟩, accepted setAndGet⟩).isSome := by
  decide +kernel

/-- Two clients whose messages have all been answered. -/
theorem every_message_answered_setAndGet :
    let out := (drive Connection.stepDelivered anyStep _ _).get setAndGet_served
    out.1.length ≤ (setAndGet.map fun client => 2 * client.1.flatten.length + 1).sum ∧
      ((∃ c pool', Step Connection.stepDelivered anyStep out.2 c pool') ∨
        ∃ h, Legal Serves ∅ h out.2.shared.state.fields ∧
        AllCompleted setAndGet h out.2.tasks) :=
  every_message_answered (run_get_drive setAndGet_served)

/-- Two clients whose calls have all returned. -/
theorem every_call_answered_setThenGet :
    let out := (drive Connection.stepDelivered anyStep _ _).get setAndGet_served
    out.1.length ≤ (setThenGet.map fun reqs => 2 * (reqs.flatMap sendRequest).length + 1).sum ∧
      ((∃ c pool', Step Connection.stepDelivered anyStep out.2 c pool') ∨
        ∃ g, Legal Remote ∅ g out.2.shared.state.fields ∧
        AllAnswered setThenGet g out.2.tasks) :=
  every_call_answered shortTexts .empty (by decide +kernel) sentBy_setThenGet
    (run_get_drive setAndGet_served)

end PeachDB.Server
