import PeachDB.FineRefinement

/-!
# Every call comes to an end

However the calls on a database and the tasks that own its files are
scheduled, no call waits forever, for the mutex or for a reply or for room in
a channel, and none runs forever: a flush works on the entries that it has
popped, of which there are finitely many.
-/

namespace PeachDB.Db

open LittleEndian Dtypes RecordCodec IndexCodec FileHandler WriteAheadLog Interleaving Mailbox
  CriticalSection

section

variable [Crc]

omit [Crc] in
/-- The flush has not taken its batch yet, so it may be of any length. -/
def Task.unbounded : Task → ℕ
  | .flush f => if f.stage = .pop then 1 else 0
  | _ => 0

omit [Crc] in
/-- Sections of a flush that are left, when its batch is known. -/
def Flush.left (f : Flush) : ℕ :=
  match f.stage with
  | .pop => 0
  | .plan => 13 + Multiset.card f.net.entries
  | .batch => 12 + f.todo.length
  | .publish => 11
  | .countFields => 10
  | .writeCount => 9
  | .cloneIndex => 8
  | .truncIndex => 7
  | .writeIndex => 6
  | .syncIndex => 5
  | .checkpoint => 4
  | .done => 0

omit [Crc] in
/-- Sections of a task that are left. -/
def Task.left : Task → ℕ
  | .write _ .append => 6
  | .write _ .update => 1
  | .get _ none => 1
  | .flush f => f.left
  | _ => 0

omit [Crc] in
/-- Sections that are left, first of all those that end the popping. -/
def Fine.left : Fine → ℕ ×ₗ ℕ
  | .outside t => toLex (t.unbounded, t.left)
  | .inside (.append _) => toLex (0, 5)
  | .inside (.push _) => toLex (0, 4)
  | .inside (.truncate _) => toLex (0, 3)
  | .inside (.sync next) => toLex (next.unbounded, next.left + 2)
  | .inside (.release next) => toLex (next.unbounded, next.left + 1)

omit [Crc] in
/-- A flush whose next section is no command can go on when the mutex is free. -/
theorem exists_compute_flush [Crc] (m : Memory) (hfree : m.locked = false) {f : Flush}
    (hcommand : f.command = none) :
    f.stage = .done ∨ ∃ choice out, f.compute choice m = some out := by
  obtain ⟨stage, net, deletePlan, todo, indexes, count, index, encoded⟩ := f
  cases stage with
  | pop | checkpoint =>
    refine .inr ⟨.plain, _, if_neg ?_⟩
    rw [hfree]
    exact Bool.false_ne_true
  | plan =>
    obtain ⟨order, horder⟩ := IterOrder.exists_of net
    exact .inr ⟨{ Choice.plain with batch := order }, _, if_pos horder⟩
  | cloneIndex =>
    obtain ⟨order, horder⟩ := IterOrder.exists_of m.state.index
    exact .inr ⟨{ Choice.plain with index := order }, _, if_pos horder⟩
  | batch =>
    cases todo with
    | nil => cases hcommand
    | cons entry todo =>
      cases entry with
      | set key field => cases hcommand
      | delete key => exact .inr ⟨.plain, _, if_pos (Option.map_eq_none_iff.mp hcommand)⟩
  | publish | countFields => exact .inr ⟨.plain, _, rfl⟩
  | done => exact .inl rfl
  | writeCount | truncIndex | writeIndex | syncIndex => cases hcommand

/-- A call that sends no command can go on when the mutex is free, or it has
returned. -/
theorem exists_compute (m : Memory) (hfree : m.locked = false) {t : Task}
    (hcommand : (Fine.outside t).command = none) :
    t.Finished ∨ ∃ choice out, (Fine.outside t).compute choice m = some out := by
  cases t with
  | write entry stage =>
    cases stage with
    | append =>
      refine .inr ⟨.plain, _, if_neg ?_⟩
      rw [hfree]
      exact Bool.false_ne_true
    | update => exact .inr ⟨.plain, _, rfl⟩
    | done => exact .inl (.inl rfl)
  | get key result =>
    cases result with
    | none => exact .inr ⟨.plain, _, rfl⟩
    | some result => exact .inl (.inl rfl)
  | flush f =>
    rcases exists_compute_flush m hfree hcommand with hdone | hcompute
    · exact .inl (.inl hdone)
    · exact .inr hcompute
  | failed e => exact .inl (.inr ⟨e, rfl⟩)

/-- A task with the mutex sends a command, or can go on. -/
theorem Inside.exists_compute {files : Verdict → Prop} [DecidablePred files] {wal wal' : Wal}
    {t : Task} {l : Fine} (h : Inside files wal t l wal') (m : Memory) :
    l.command.isSome ∨ ∃ out, l.compute .plain m = some out := by
  cases h with
  | append entry => exact .inl rfl
  | push hio happend => exact .inr ⟨_, rfl⟩
  | truncate hstage => exact .inl rfl
  | sync hio hnext hsync => exact .inl rfl
  | release choice hsection => exact .inr ⟨_, rfl⟩

/-- A task that can go on takes the system along. -/
theorem step_of_task {s : FineSystem} {i : ℕ} {status : Status FileId Reply Fine}
    (horderly : Orderly program s) (hstatus : s.tasks[i]? = some status)
    (hgoes : ∀ l, status = .running l → l.command.isSome ∨
      ∃ choice out, l.compute choice s.memory = some out) :
    ∃ s', FineStep s s' := by
  have : Nonempty Verdict := ⟨.done⟩
  have hcapacity : 0 < channelCapacity := by decide
  cases status with
  | running l =>
    cases hcommand : l.command with
    | some sent =>
      have hcalling : (Status.running l : Status FileId Reply Fine).Calling program := by
        change l.command.isSome
        rw [hcommand]
        rfl
      exact horderly.progress hcapacity hstatus hcalling
    | none =>
      rcases hgoes l rfl with hsome | ⟨choice, ⟨m, l'⟩, hcompute⟩
      · rw [hcommand] at hsome
        cases hsome
      · exact ⟨_, .compute choice hstatus hcommand hcompute⟩
  | waiting a l => exact horderly.progress hcapacity hstatus trivial
  | replied l r => exact horderly.progress hcapacity hstatus trivial

/-- Calls never block each other forever: whatever steps they and the tasks
that own the files have made, all calls have returned or failed, or there is a
next step. -/
theorem fine_progress {db : Database} {tasks : List Task} {s : FineSystem}
    (hrun : FineRun (fineStart db tasks) s) :
    (∀ status ∈ s.tasks, ∃ t : Task, status = .running (.outside t) ∧ t.Finished) ∨
      ∃ s', FineStep s s' := by
  obtain ⟨holder, wal, trace, c, -, hrelated, -⟩ :=
    related_of_run (fun io => io) (fun _ => True) trivial (fun _ => trivial) hrun
  have horderly := (orderly_start _ _ _).run hrun
  cases holder with
  | some i =>
    obtain ⟨-, l, t, hl, -, hinside⟩ := hrelated.inside i rfl
    obtain ⟨status, hstatus, hsettled⟩ := exists_task hl
    refine .inr (step_of_task horderly hstatus ?_)
    rintro l' rfl
    cases hsettled
    rcases hinside.exists_compute s.memory with hsome | ⟨out, hout⟩
    · exact .inl hsome
    · exact .inr ⟨.plain, out, hout⟩
  | none =>
    by_cases hall : ∀ status ∈ s.tasks, ∃ t : Task, status = .running (.outside t) ∧
      t.Finished
    · exact .inl hall
    · obtain ⟨status, hstatus⟩ := not_forall.mp hall
      obtain ⟨hmem, hunfinished⟩ := Classical.not_imp.mp hstatus
      obtain ⟨i, hi, rfl⟩ := List.getElem_of_mem hmem
      have hstatus := List.getElem?_eq_getElem hi
      refine .inr (step_of_task horderly hstatus ?_)
      intro l hl
      have hpool : (s.pool program).tasks[i]? = some l := by
        rw [pool_task hstatus, hl]
        rfl
      have hlen : i < c.tasks.length := hrelated.length ▸ (List.getElem?_eq_some_iff.mp hpool).1
      have hout : l = .outside c.tasks[i] :=
        hrelated.outside i _ _ (by simp) hpool (List.getElem?_eq_getElem hlen)
      cases hcommand : l.command with
      | some sent => exact .inl rfl
      | none =>
        rw [hout] at hcommand hl ⊢
        rcases exists_compute s.memory (hrelated.free rfl).1 hcommand with hfinished | hcompute
        · exact absurd ⟨_, hl, hfinished⟩ hunfinished
        · exact .inr hcompute

omit [Crc] in
/-- A smaller second part makes a pair smaller. -/
theorem fewer {n a b : ℕ} (h : a < b) : (toLex (n, a) : ℕ ×ₗ ℕ) < toLex (n, b) :=
  Prod.Lex.toLex_lt_toLex.mpr (.inr ⟨rfl, h⟩)

/-- Behind a command there is one section less in a flush. -/
theorem left_after {f : Flush} {sent : FileId × FileCmd} (h : f.command = some sent) :
    (Fine.outside (.flush f.after)).left < (Fine.outside (.flush f)).left := by
  obtain ⟨stage, net, deletePlan, todo, indexes, count, index, encoded⟩ := f
  cases stage with
  | batch =>
    cases todo with
    | nil => exact fewer (by simp [Task.left, Flush.left, Flush.after])
    | cons entry todo => exact fewer (by simp [Task.left, Flush.left, Flush.after])
  | writeCount | truncIndex | writeIndex | syncIndex =>
    exact fewer (by simp [Task.left, Flush.left, Flush.after])
  | pop | plan | publish | countFields | cloneIndex | checkpoint | done => cases h

omit [Crc] in
/-- A failed call has nothing left to do. -/
theorem left_failed_le (e : Abort) (x : ℕ ×ₗ ℕ) : (Fine.outside (.failed e)).left ≤ x := by
  obtain ⟨unbounded, left⟩ := x
  refine Prod.Lex.toLex_le_toLex.mpr ?_
  rcases Nat.eq_zero_or_pos unbounded with rfl | hpos
  · exact .inr ⟨rfl, Nat.zero_le left⟩
  · exact .inl hpos

/-- A reply leaves a flush less to do. -/
theorem left_resume {f : Flush} {sent : FileId × FileCmd} (h : f.command = some sent)
    (reply : Reply) :
    (Fine.outside (f.resume reply)).left < (Fine.outside (.flush f)).left := by
  have hafter := left_after h
  have hfailed : ∀ e, (Fine.outside (.failed e)).left < (Fine.outside (.flush f)).left := fun e =>
    lt_of_le_of_lt (left_failed_le e _) hafter
  cases reply with
  | readAll result | writeAt result | setLen result | syncAll result =>
    cases result with
    | ok x => exact hafter
    | error e => exact hfailed e
  | append result =>
    cases result with
    | ok recordStart =>
      simp only [Flush.resume]
      split
      · exact hafter
      · exact hafter
    | error e => exact hfailed e

omit [Crc] in
/-- A section of a flush without a command leaves fewer of them. -/
theorem left_computeFlush {choice : Choice} {m m' : Memory} {f : Flush} {l : Fine}
    (h : f.compute choice m = some (m', l)) : l.left < (Fine.outside (.flush f)).left := by
  obtain ⟨stage, net, deletePlan, todo, indexes, count, index, encoded⟩ := f
  cases stage with
  | pop =>
    obtain ⟨-, hout⟩ := Option.ite_none_left_eq_some.mp h
    cases hout
    exact Prod.Lex.toLex_lt_toLex.mpr (.inl Nat.zero_lt_one)
  | plan =>
    obtain ⟨hbatch, hout⟩ := Option.ite_none_right_eq_some.mp h
    cases hout
    have hcard : choice.batch.length = Multiset.card net.entries := by
      rw [← hbatch, Multiset.coe_card, List.length_map]
    refine fewer ?_
    simp only [Task.left, Flush.left, List.length_map, hcard]
    omega
  | batch =>
    cases todo with
    | nil => cases h
    | cons entry todo =>
      cases entry with
      | set key field => cases h
      | delete key =>
        obtain ⟨-, hout⟩ := Option.ite_none_right_eq_some.mp h
        cases hout
        exact fewer (Nat.lt_succ_self _)
  | publish | countFields =>
    cases h
    exact fewer (Nat.lt_succ_self _)
  | cloneIndex =>
    obtain ⟨-, hout⟩ := Option.ite_none_right_eq_some.mp h
    cases hout
    exact fewer (Nat.lt_succ_self _)
  | checkpoint =>
    obtain ⟨-, hout⟩ := Option.ite_none_left_eq_some.mp h
    cases hout
    exact fewer (Nat.lt_succ_self _)
  | writeCount | truncIndex | writeIndex | syncIndex | done => cases h

/-- A command and its reply leave fewer sections. -/
theorem left_reply {l : Fine} {id : FileId} {cmd : FileCmd} (h : l.command = some (id, cmd))
    (io : Verdict) (file : Bytes) : (l.resume (cmd.serve io file).1).left < l.left := by
  cases l with
  | outside t =>
    cases t with
    | flush f => exact left_resume h _
    | write entry stage | get key result | failed e => cases h
  | inside holding =>
    cases holding with
    | append entry =>
      cases h
      simp only [FileCmd.serve]
      cases FileHandler.append io file (walBytes entry) with
      | mk result file =>
        cases result with
        | ok pos => exact fewer (Nat.lt_succ_self _)
        | error e => exact fewer (n := 0) (by simp [Task.left])
    | truncate f =>
      cases h
      simp only [FileCmd.serve]
      cases FileHandler.setLen io file (0 : UInt64).toNat with
      | mk result file =>
        cases result with
        | ok u => exact fewer (Nat.lt_succ_self _)
        | error e => exact fewer (n := 0) (by simp [Task.left])
    | sync next =>
      cases h
      simp only [FileCmd.serve]
      cases syncAll io with
      | ok u => exact fewer (Nat.lt_succ_self _)
      | error e =>
        refine lt_of_le_of_lt ?_ (fewer (Nat.lt_succ_self (next.left + 1)))
        refine Prod.Lex.toLex_le_toLex.mpr ?_
        rcases Nat.eq_zero_or_pos next.unbounded with hzero | hpos
        · exact .inr ⟨hzero.symm, Nat.succ_le_succ (Nat.zero_le next.left)⟩
        · exact .inl hpos
    | push entry | release next => cases h

omit [Crc] in
/-- A section without a command leaves fewer of them. -/
theorem left_compute {choice : Choice} {m m' : Memory} {l l' : Fine}
    (h : l.compute choice m = some (m', l')) : l'.left < l.left := by
  cases l with
  | outside t =>
    cases t with
    | flush f => exact left_computeFlush h
    | write entry stage =>
      cases stage with
      | append =>
        obtain ⟨-, hout⟩ := Option.ite_none_left_eq_some.mp h
        cases hout
        exact fewer (Nat.lt_succ_self _)
      | update =>
        cases h
        exact fewer (Nat.lt_succ_self _)
      | done => cases h
    | get key result =>
      cases result with
      | none =>
        cases h
        exact fewer (Nat.lt_succ_self _)
      | some result => cases h
    | failed e => cases h
  | inside holding =>
    cases holding with
    | push entry | release next =>
      cases h
      exact fewer (Nat.lt_succ_self _)
    | append entry | truncate f | sync next => cases h

/-- Every section leaves fewer of them. -/
theorem left_section {choice : Choice ⊕ Verdict} {w w' : World} {l l' : Fine}
    (h : callSections (fun io => io) choice w l = some (w', l')) : l'.left < l.left := by
  cases hcommand : program.command l with
  | some sent =>
    cases choice with
    | inl choice =>
      simp only [callSections, atomically, hcommand] at h
      cases h
    | inr io =>
      simp only [callSections, atomically, hcommand, Option.some.injEq, Prod.mk.injEq] at h
      obtain ⟨-, rfl⟩ := h
      exact left_reply hcommand io _
  | none =>
    cases choice with
    | inr io =>
      simp only [callSections, atomically, hcommand] at h
      cases h
    | inl choice =>
      simp only [callSections, atomically, hcommand] at h
      obtain ⟨out, hout, heq⟩ := Option.map_eq_some_iff.mp h
      cases heq
      exact left_compute hout

/-- Every call returns or fails: from every state that the calls on a database
and the tasks that own its files can reach, they go on for finitely many steps,
whatever the schedule, and as long as some call has neither returned nor
failed there is a next step. -/
theorem fine_terminates {db : Database} {tasks : List Task} {s : FineSystem}
    (hrun : FineRun (fineStart db tasks) s) :
    (∀ σ : ℕ → FineSystem, σ 0 = s → ∃ n, ¬ FineStep (σ n) (σ (n + 1))) ∧
      ((∀ status ∈ s.tasks, ∃ t : Task, status = .running (.outside t) ∧ t.Finished) ∨
        ∃ s', FineStep s s') := by
  have horderly := (orderly_start _ _ _).run hrun
  have hsmaller := InvImage.wf Fine.left (wellFounded_lt (α := ℕ ×ₗ ℕ))
  refine ⟨fun σ hstart => horderly.terminates hsmaller ?_ σ hstart, fine_progress hrun⟩
  intro choice w l w' l' hsection
  exact left_section hsection

end

open scoped IsoHdlc

/-- The calls go on behind the sync, and then come to an end. -/
theorem fine_terminates_twoSets :
    let s := (finePerform _ _).get firstSyncs_runs
    (∀ σ : ℕ → FineSystem, σ 0 = s → ∃ n, ¬ FineStep (σ n) (σ (n + 1))) ∧
      ((∀ status ∈ s.tasks, ∃ t : Task, status = .running (.outside t) ∧ t.Finished) ∨
        ∃ s', FineStep s s') :=
  fine_terminates (run_get_performAll firstSyncs_runs)

end PeachDB.Db
