import PeachDB.Interleaving

/-!
# One cell of a write-behind store

A writer appends its update of a cell to a log. Flushers take the last update
from the log, write it to a table of records with addresses and then truncate
the log; an index holds the address of the record. Under a guard on the
flushers the update is never lost: it is the last one in the log, or in the
hands of a flusher, or in the table.
-/

namespace PeachDB.WriteBehind

open Interleaving

variable {ι V : Type*}

/-- The cell in the shared state. An update is a value, or none to remove it. -/
structure Cell (ι V : Type*) where
  /-- The last update in the log. -/
  log : Option (Option V)
  /-- The records in the table with their addresses, oldest first. -/
  live : List (ι × V)
  /-- The address in the index. -/
  index : Option ι

/-- How far a flusher has come with the cell. -/
inductive Progress
  /-- Nothing has been taken. -/
  | start
  /-- The log has been read. -/
  | taken
  /-- The address to free has been looked up. -/
  | planned
  /-- The update has been written to the table, if there is any. -/
  | written
  /-- The log has been truncated. -/
  | done
  deriving DecidableEq

/-- A flusher, as far as the cell is concerned. -/
structure Flusher (ι V : Type*) where
  /-- How far it has come. -/
  progress : Progress
  /-- The update that was taken from the log. -/
  update : Option (Option V)
  /-- The address that is to be freed. -/
  plan : Option ι
  /-- The addresses of the records that were added. -/
  pending : List ι

/-- A flusher that has not begun. -/
def Flusher.start : Flusher ι V := ⟨.start, none, none, []⟩

/-- The flusher has written the update that it took. -/
def Flusher.Written (f : Flusher ι V) : Prop := f.progress = .written ∨ f.progress = .done

/-- A flusher with a plan has not written yet. -/
theorem not_written_of_planned {f : Flusher ι V} (hf : f.progress = .planned) : ¬ f.Written := by
  rw [Flusher.Written, hf]
  simp

/-- An actor, as far as the cell is concerned. -/
inductive Actor (ι V : Type*)
  /-- A writer that is about to append its update of the cell. -/
  | writer (update : Option V)
  /-- A flusher of the log. -/
  | flusher (f : Flusher ι V)
  /-- An actor that does not touch the cell. -/
  | other

/-- The actor has still to write an update other than the given one. -/
def Actor.Owes (update : Option V) : Actor ι V → Prop
  | .flusher f => f.update ≠ none ∧ f.update ≠ some update ∧ f.progress ≠ .written ∧
    f.progress ≠ .done
  | _ => False

/-- The actor has taken the update and has not returned. -/
def Actor.Holds (update : Option V) : Actor ι V → Prop
  | .flusher f => f.update = some update ∧ f.progress ≠ .done
  | _ => False

instance [DecidableEq V] (update : Option V) : DecidablePred (Actor.Owes (ι := ι) update)
  | .flusher f =>
    inferInstanceAs (Decidable (f.update ≠ none ∧ f.update ≠ some update ∧ _ ∧ _))
  | .writer _ | .other => isFalse id

instance [DecidableEq V] (update : Option V) : DecidablePred (Actor.Holds (ι := ι) update)
  | .flusher f => inferInstanceAs (Decidable (f.update = some update ∧ _))
  | .writer _ | .other => isFalse id

/-- The records that are left when an address is freed. -/
def freed [DecidableEq ι] (plan : Option ι) (live : List (ι × V)) : List (ι × V) :=
  match plan with
  | some a => live.filter fun x => x.1 ≠ a
  | none => live

/-- A flusher looks up the address to free, if its update removes the value. -/
def Flusher.lookUp (f : Flusher ι V) (index : Option ι) : Flusher ι V :=
  match f.update with
  | none => { f with progress := .written, plan := none }
  | some none => { f with progress := .planned, plan := index }
  | some (some _) => { f with progress := .planned, plan := none }

/-- One step of an actor, under the guards that keep the update. -/
inductive Acts [DecidableEq ι] (others : List (Actor ι V)) (s : Cell ι V) :
    Actor ι V → Cell ι V → Actor ι V → Prop
  /-- Nothing happens to the cell. -/
  | stay (t : Actor ι V) (ht : ∀ u, t ≠ .writer u) : Acts others s t s t
  /-- A writer appends its update to the log. -/
  | append (u : Option V) : Acts others s (.writer u) { s with log := some u } .other
  /-- No other flusher has still to write an older update. -/
  | take (hguard : ∀ u, s.log = some u → ∀ x ∈ others, ¬ x.Owes u) :
      Acts others s (.flusher .start) s (.flusher ⟨.taken, s.log, none, []⟩)
  /-- A record to be removed is the only one, and the index knows it. -/
  | plan (f : Flusher ι V) (hf : f.progress = .taken)
      (hguard : f.update = some none → s.live.length ≤ if s.index.isSome then 1 else 0) :
      Acts others s (.flusher f) s (.flusher (f.lookUp s.index))
  /-- A flusher adds a record to the table. -/
  | put (f : Flusher ι V) (a : ι) (v : V) (hf : f.progress = .planned)
      (hupdate : f.update = some (some v)) :
      Acts others s (.flusher f) { s with live := s.live ++ [(a, v)] }
        (.flusher { f with progress := .written, pending := f.pending ++ [a] })
  /-- A flusher frees the address that it has looked up. -/
  | remove (f : Flusher ι V) (hf : f.progress = .planned) (hupdate : f.update = some none) :
      Acts others s (.flusher f) { s with live := freed f.plan s.live }
        (.flusher { f with progress := .written })
  /-- A flusher publishes the address of its record. -/
  | publish (f : Flusher ι V) (hf : f.progress = .written) :
      Acts others s (.flusher f)
        { s with index := if f.plan.isSome then none else f.pending.getLast?.or s.index }
        (.flusher f)
  /-- The update that goes from the log is in the hands of a flusher. -/
  | checkpoint (f : Flusher ι V) (hf : f.progress = .written)
      (hguard : ∀ u, s.log = some u → ∃ x ∈ .flusher f :: others, x.Holds u) :
      Acts others s (.flusher f) { s with log := none } (.flusher { f with progress := .done })

/-- A flusher may stay as it is. -/
theorem Acts.idle [DecidableEq ι] {others : List (Actor ι V)} {s : Cell ι V} (f : Flusher ι V) :
    Acts others s (.flusher f) s (.flusher f) := by
  refine .stay _ fun u heq => ?_
  cases heq

/-- An actor that does not see the cell does nothing. -/
theorem Acts.unseen [DecidableEq ι] {others : List (Actor ι V)} {s : Cell ι V} :
    Acts others s .other s .other := by
  refine .stay _ fun u heq => ?_
  cases heq

/-- The records say what the update says. -/
def Shows (live : List (ι × V)) (u : Option V) : Prop := live.getLast?.map Prod.snd = u

/-- The address is the one of a record. -/
def HasAt (live : List (ι × V)) (a : ι) : Prop := ∃ v, (a, v) ∈ live

/-- A flusher while no flusher has taken the update of the writer: it can only
have the one from before, `old`. -/
structure Early (old : Option (Option V)) (live : List (ι × V)) (f : Flusher ι V) : Prop where
  /-- It can only have taken the old update. -/
  update : ∀ u, f.update = some u → old = some u
  /-- It frees no address. -/
  plan : f.plan = none
  /-- Its records are in the table. -/
  pending : ∀ a ∈ f.pending, HasAt live a

/-- A flusher when the update `new` has been taken. -/
structure Late (new : Option V) (live : List (ι × V)) (f : Flusher ι V) : Prop where
  /-- An older update that it has taken has been written. -/
  stale : ∀ u, f.update = some u → u ≠ new → f.Written
  /-- When it has written the new update, the records show it. -/
  shows_new : f.update = some new → f.Written → Shows live new
  /-- When it is about to remove the value, it knows the only record. -/
  planned : new = none → f.update = some new → f.progress = .planned →
    live = [] ∨ ∃ a v, live = [(a, v)] ∧ f.plan = some a
  /-- Its records are in the table, as long as there are any. -/
  pending : new = none → live ≠ [] → ∀ a ∈ f.pending, HasAt live a

/-- Where the update `new` of the writers is; `old` was in the log before. -/
inductive Kept (old : Option (Option V)) (new : Option V) (s : Cell ι V)
    (actors : List (Actor ι V)) :
    Prop
  /-- It is still to be appended or in the log, and no flusher has taken it. -/
  | early (hne : old ≠ some new)
      (hlog : (s.log = old ∨ s.log = none) ∧ .writer new ∈ actors ∨ s.log = some new)
      (hlive : (∀ v, old ≠ some (some v)) → s.live = [])
      (hindex : ∀ a, s.index = some a → HasAt s.live a)
      (hflushers : ∀ f, .flusher f ∈ actors → Early old s.live f)
  /-- It is in the log, in the hands of a flusher or in the table. -/
  | late
      (hlog : s.log = some new ∨ s.log = none ∧
        ((∃ x ∈ actors, x.Holds new) ∨ Shows s.live new))
      (hindex : new = none → s.live ≠ [] → ∀ a, s.index = some a → HasAt s.live a)
      (hflushers : ∀ f, .flusher f ∈ actors → Late new s.live f)

section

variable {old : Option (Option V)} {new : Option V} {s s' : Cell ι V} {f : Flusher ι V}
  {pre post : List (Actor ι V)} {t t' : Actor ι V}

/-- A new record moves no record. -/
theorem HasAt.append {live : List (ι × V)} {a : ι} (h : HasAt live a) (x : ι × V) :
    HasAt (live ++ [x]) a := by
  obtain ⟨v, hv⟩ := h
  exact ⟨v, List.mem_append_left _ hv⟩

/-- A flusher at its start is early. -/
theorem Early.start (old : Option (Option V)) (live : List (ι × V)) : Early old live .start :=
  ⟨nofun, rfl, nofun⟩

/-- A flusher at its start is late. -/
theorem Late.start (new : Option V) (live : List (ι × V)) : Late new live .start :=
  ⟨nofun, nofun, nofun, nofun⟩

/-- The flushers of a pool after one of its actors has moved. -/
theorem forall_flushers {P P' : Flusher ι V → Prop}
    (h : ∀ f, .flusher f ∈ pre ++ t :: post → P f) (hold : ∀ f, P f → P' f)
    (hnew : ∀ f, t' = .flusher f → P' f) :
    ∀ f, .flusher f ∈ pre ++ t' :: post → P' f := by
  intro f hf
  rcases mem_tasks_iff.mp hf with rfl | hother
  · exact hnew f rfl
  · exact hold f (h f (mem_tasks_iff.mpr (.inr hother)))

/-- The index after an update of the state has addresses of records. -/
theorem hasAt_of_publish {live : List (ι × V)} {plan index : Option ι} {pending : List ι}
    (hpending : ∀ a ∈ pending, HasAt live a) (hindex : ∀ a, index = some a → HasAt live a)
    {a : ι} (ha : (if plan.isSome then none else pending.getLast?.or index) = some a) :
    HasAt live a := by
  cases plan with
  | some b => cases ha
  | none =>
    cases hlast : pending.getLast? with
    | none =>
      rw [hlast] at ha
      exact hindex a ha
    | some b =>
      rw [hlast] at ha
      cases ha
      exact hpending _ (List.mem_of_getLast? hlast)

/-- A flusher that takes the update from before. -/
theorem Early.taken {live : List (ι × V)} (hlog : s.log = old ∨ s.log = none) :
    Early old live ⟨.taken, s.log, none, []⟩ := by
  refine ⟨fun u hu => ?_, rfl, nofun⟩
  change s.log = some u at hu
  rcases hlog with hlog | hlog
  · rw [← hlog]
    exact hu
  · rw [hu] at hlog
    cases hlog

/-- It frees nothing: when the value from before was removed, there is no
record, and none in the index. -/
theorem Early.lookUp (h : Early old s.live f)
    (hlive : (∀ v, old ≠ some (some v)) → s.live = [])
    (hindex : ∀ a, s.index = some a → HasAt s.live a) :
    Early old s.live (f.lookUp s.index) := by
  unfold Flusher.lookUp
  split
  · exact ⟨h.update, rfl, h.pending⟩
  · rename_i hupdate
    have hempty : s.live = [] := hlive fun v => by
      rw [h.update none hupdate]
      exact nofun
    have hnone : s.index = none := by
      cases hlookup : s.index with
      | none => rfl
      | some a =>
        obtain ⟨v, hv⟩ := hindex a hlookup
        rw [hempty] at hv
        cases hv
    exact ⟨h.update, hnone, h.pending⟩
  · exact ⟨h.update, rfl, h.pending⟩

/-- When another flusher takes the update of the writer, a flusher that has
written what it took before goes on. -/
theorem Early.late {live : List (ι × V)} (h : Early old live f) (hne : old ≠ some new)
    (howes : ¬ (Actor.flusher f).Owes new) : Late new live f := by
  have hhand : f.update ≠ some new := fun hu => hne (h.update new hu)
  refine ⟨fun u hu hother => ?_, fun hu => absurd hu hhand, fun _ hu => absurd hu hhand,
    fun _ _ => h.pending⟩
  by_contra hnot
  rw [Flusher.Written, not_or] at hnot
  refine howes ⟨?_, hhand, hnot⟩
  rw [hu]
  exact Option.some_ne_none u

/-- A flusher that takes the update, or finds nothing in the log. -/
theorem Late.taken {live : List (ι × V)} (hlog : s.log = some new ∨ s.log = none) :
    Late new live ⟨.taken, s.log, none, []⟩ := by
  refine ⟨fun u hu hne => ?_, fun _ hw => ?_, nofun, nofun⟩
  · change s.log = some u at hu
    rw [hu] at hlog
    rcases hlog with hlog | hlog
    · exact absurd (Option.some.inj hlog) hne
    · cases hlog
  · rcases hw with hw | hw <;> cases hw

/-- A flusher that has not written its update has the new one. -/
theorem Late.update_eq {live : List (ι × V)} (h : Late new live f) (hnot : ¬ f.Written)
    {u : Option V} (hu : f.update = some u) : u = new := by
  by_contra hne
  exact hnot (h.stale u hu hne)

/-- The address to free, if the update removes the value: of the only record. -/
theorem Late.lookUp (h : Late new s.live f) (hf : f.progress = .taken)
    (hguard : f.update = some none → s.live.length ≤ if s.index.isSome then 1 else 0)
    (hindex : new = none → s.live ≠ [] → ∀ a, s.index = some a → HasAt s.live a) :
    Late new s.live (f.lookUp s.index) := by
  have hupdate {u : Option V} (hu : f.update = some u) : u = new := by
    refine h.update_eq ?_ hu
    rw [Flusher.Written, hf]
    simp
  unfold Flusher.lookUp
  split
  · rename_i hnone
    refine ⟨fun u hu => ?_, fun hu => ?_, fun _ _ => nofun, h.pending⟩
    · rw [show f.update = some u from hu] at hnone
      cases hnone
    · rw [show f.update = some new from hu] at hnone
      cases hnone
  · rename_i hremove
    refine ⟨fun u hu hne => absurd (hupdate hu) hne, fun _ hw => ?_, fun hnew _ _ => ?_, h.pending⟩
    · rcases hw with hw | hw <;> cases hw
    · -- the guard leaves one record at most, and the index knows it
      have hguard := hguard hremove
      have hindex := hindex hnew
      cases hlive : s.live with
      | nil => exact .inl rfl
      | cons x rest =>
        rw [hlive, List.length_cons] at hguard
        rw [hlive] at hindex
        cases hlookup : s.index with
        | none =>
          rw [hlookup] at hguard
          exact absurd hguard (by simp)
        | some a =>
          rw [hlookup, Option.isSome_some, if_pos rfl] at hguard
          obtain rfl : rest = [] := List.length_eq_zero_iff.mp (by omega)
          obtain ⟨v, hv⟩ := hindex (List.cons_ne_nil _ _) a hlookup
          rw [List.mem_singleton] at hv
          rw [← hv]
          exact .inr ⟨a, v, rfl, rfl⟩
  · rename_i v hput
    refine ⟨fun u hu hne => absurd (hupdate hu) hne, fun _ hw => ?_, fun hnew hu => ?_, h.pending⟩
    · rcases hw with hw | hw <;> cases hw
    · rw [hnew, show f.update = some (some v) from hput] at hu
      cases hu

/-- A flusher that has taken the update keeps it when it makes its plan. -/
theorem holds_lookUp {index : Option ι} (h : (Actor.flusher f).Holds new) :
    (Actor.flusher (f.lookUp index)).Holds new := by
  unfold Flusher.lookUp
  split
  · rename_i hnone
    rw [Actor.Holds, hnone] at h
    cases h.1
  · exact ⟨h.1, nofun⟩
  · exact ⟨h.1, nofun⟩

/-- A writer stays in the pool when a flusher moves. -/
theorem writer_stays (hmem : .writer new ∈ pre ++ .flusher f :: post) :
    .writer new ∈ pre ++ t' :: post := by
  rcases mem_tasks_iff.mp hmem with heq | hother
  · cases heq
  · exact mem_tasks_iff.mpr (.inr hother)

/-- An actor that holds the update stays when it does not move. -/
theorem holder_stays (hkeep : t.Holds new → t'.Holds new)
    (h : ∃ x ∈ pre ++ t :: post, x.Holds new) : ∃ x ∈ pre ++ t' :: post, x.Holds new := by
  obtain ⟨x, hx, hholds⟩ := h
  rcases mem_tasks_iff.mp hx with rfl | hother
  · exact ⟨t', mem_tasks_iff.mpr (.inl rfl), hkeep hholds⟩
  · exact ⟨x, mem_tasks_iff.mpr (.inr hother), hholds⟩

/-- No actor holds the update of the writer while all flushers are early. -/
theorem not_holds_of_early (hne : old ≠ some new)
    (hflushers : ∀ g, .flusher g ∈ pre ++ .flusher f :: post → Early old s.live g) :
    ¬ ∃ x ∈ .flusher f :: (pre ++ post), x.Holds new := by
  rintro ⟨x, hx, hholds⟩
  cases x with
  | flusher g =>
    have hmem : .flusher g ∈ pre ++ .flusher f :: post := by
      rcases List.mem_cons.mp hx with heq | hother
      · exact mem_tasks_iff.mpr (.inl heq)
      · exact mem_tasks_iff.mpr (.inr hother)
    exact hne ((hflushers g hmem).update new hholds.1)
  | writer u => exact hholds.elim
  | other => exact hholds.elim

/-- An early flusher goes on. -/
theorem Early.advance {live : List (ι × V)} {progress : Progress} (h : Early old live f) :
    Early old live { f with progress } := ⟨h.update, h.plan, h.pending⟩

/-- An early flusher does not mind another record. -/
theorem Early.grow {live : List (ι × V)} (h : Early old live f) (x : ι × V) :
    Early old (live ++ [x]) f :=
  ⟨h.update, h.plan, fun b hb => (h.pending b hb).append x⟩

/-- An early flusher has added a record. -/
theorem Early.put {live : List (ι × V)} (h : Early old live f) (a : ι) (v : V) :
    Early old (live ++ [(a, v)]) { f with progress := .written, pending := f.pending ++ [a] } := by
  refine ⟨h.update, h.plan, fun b hb => ?_⟩
  rcases List.mem_append.mp hb with hb | hb
  · exact (h.pending b hb).append _
  · rw [List.mem_singleton.mp hb]
    exact ⟨v, List.mem_append_right _ List.mem_cons_self⟩

/-- A flusher that has written any older update, when the table shows the new
value. -/
theorem Late.of_shows {live : List (ι × V)} {v : V}
    (hstale : ∀ u, f.update = some u → u ≠ some v → f.Written) (hshows : Shows live (some v)) :
    Late (some v) live f := ⟨hstale, fun _ _ => hshows, nofun, nofun⟩

/-- A flusher that has written any older update, when the table is empty. -/
theorem Late.of_nil (hstale : ∀ u, f.update = some u → u ≠ none → f.Written) :
    Late none ([] : List (ι × V)) f :=
  ⟨hstale, fun _ _ => rfl, fun _ _ _ => .inl rfl, fun _ hne => absurd rfl hne⟩

/-- A flusher that has returned. -/
theorem Late.returned {live : List (ι × V)} (h : Late new live f) (hf : f.Written) :
    Late new live { f with progress := .done } :=
  ⟨fun _ _ _ => .inr rfl, fun hu _ => h.shows_new hu hf, fun _ _ => nofun, h.pending⟩

/-- When a flusher returns, another one holds the update, or the table shows
it. -/
theorem holds_or_shows_of_return {live : List (ι × V)} (hlate : Late new live f)
    (hf : f.Written) (h : ∃ x ∈ .flusher f :: (pre ++ post), x.Holds new) :
    (∃ x ∈ pre ++ .flusher { f with progress := .done } :: post, x.Holds new) ∨
      Shows live new := by
  obtain ⟨x, hx, hholds⟩ := h
  rcases List.mem_cons.mp hx with rfl | hother
  · exact .inr (hlate.shows_new hholds.1 hf)
  · exact .inl ⟨x, mem_tasks_iff.mpr (.inr hother), hholds⟩

variable [DecidableEq ι]

/-- Until the update of the writer is taken, the table has records of the
value from before only. -/
theorem kept_of_early (hact : Acts (pre ++ post) s t s' t')
    (hwriter : ∀ u, t = .writer u → u = new) (hne : old ≠ some new)
    (hlog : (s.log = old ∨ s.log = none) ∧ .writer new ∈ pre ++ t :: post ∨
      s.log = some new)
    (hlive : (∀ v, old ≠ some (some v)) → s.live = [])
    (hindex : ∀ a, s.index = some a → HasAt s.live a)
    (hflushers : ∀ f, .flusher f ∈ pre ++ t :: post → Early old s.live f) :
    Kept old new s' (pre ++ t' :: post) := by
  cases hact with
  | stay t ht => exact .early hne hlog hlive hindex hflushers
  | append u =>
    obtain rfl := hwriter u rfl
    exact .early hne (.inr rfl) hlive hindex (forall_flushers hflushers (fun _ h => h) nofun)
  | take hguard =>
    rcases hlog with ⟨hlog, hmem⟩ | hlog
    · refine .early hne (.inl ⟨hlog, writer_stays hmem⟩) hlive hindex
        (forall_flushers hflushers (fun _ h => h) fun f hf => ?_)
      cases hf
      exact .taken hlog
    · -- the update is taken, and the others have written what they took before
      refine .late (.inl hlog) (fun _ _ => hindex) fun f hf => ?_
      rcases mem_tasks_iff.mp hf with heq | hother
      · cases heq
        exact .taken (.inl hlog)
      · exact (hflushers f (mem_tasks_iff.mpr (.inr hother))).late hne (hguard new hlog _ hother)
  | plan f hf hguard =>
    have hearly := hflushers f (mem_tasks_iff.mpr (.inl rfl))
    refine .early hne (hlog.imp_left fun h => ⟨h.1, writer_stays h.2⟩) hlive hindex
      (forall_flushers hflushers (fun _ h => h) fun g hg => ?_)
    cases hg
    exact hearly.lookUp hlive hindex
  | put f a v hf hupdate =>
    have hearly := hflushers f (mem_tasks_iff.mpr (.inl rfl))
    have hold := hearly.update _ hupdate
    refine .early hne (hlog.imp_left fun h => ⟨h.1, writer_stays h.2⟩)
      (fun h => absurd hold (h v)) (fun b hb => (hindex b hb).append _)
      (forall_flushers hflushers (fun _ h => h.grow _) fun g hg => ?_)
    cases hg
    exact hearly.put a v
  | remove f hf hupdate =>
    have hearly := hflushers f (mem_tasks_iff.mpr (.inl rfl))
    have hfreed : freed f.plan s.live = s.live := by
      rw [hearly.plan]
      rfl
    rw [hfreed]
    refine .early hne (hlog.imp_left fun h => ⟨h.1, writer_stays h.2⟩) hlive hindex
      (forall_flushers hflushers (fun _ h => h) fun g hg => ?_)
    cases hg
    exact hearly.advance
  | publish f hf =>
    have hearly := hflushers f (mem_tasks_iff.mpr (.inl rfl))
    refine .early hne (hlog.imp_left fun h => ⟨h.1, writer_stays h.2⟩) hlive
      (fun a ha => hasAt_of_publish hearly.pending hindex ha)
      (forall_flushers hflushers (fun _ h => h) fun g hg => ?_)
    cases hg
    exact hearly
  | checkpoint f hf hguard =>
    rcases hlog with ⟨-, hmem⟩ | hlog
    · refine .early hne (.inl ⟨.inr rfl, writer_stays hmem⟩) hlive hindex
        (forall_flushers hflushers (fun _ h => h) fun g hg => ?_)
      cases hg
      exact (hflushers f (mem_tasks_iff.mpr (.inl rfl))).advance
    · -- no flusher holds the update of the writer, so that the guard forbids the step
      exact absurd (hguard new hlog) (not_holds_of_early hne hflushers)

/-- The records of the cell after the address to free is freed: none. -/
theorem Late.freed_eq_nil (h : Late new s.live f) (hnew : new = none)
    (hupdate : f.update = some none) (hf : f.progress = .planned) : freed f.plan s.live = [] := by
  subst hnew
  rcases h.planned rfl hupdate hf with hnil | ⟨a, v, hlive, hplan⟩
  · rw [hnil]
    cases f.plan <;> rfl
  · rw [hlive, hplan]
    simp [freed]

/-- Once it is taken, the update of the writer stays in hands until the table
shows it. -/
theorem kept_of_late (hact : Acts (pre ++ post) s t s' t')
    (hwriter : ∀ u, t = .writer u → u = new)
    (hlog : s.log = some new ∨ s.log = none ∧
      ((∃ x ∈ pre ++ t :: post, x.Holds new) ∨ Shows s.live new))
    (hindex : new = none → s.live ≠ [] → ∀ a, s.index = some a → HasAt s.live a)
    (hflushers : ∀ f, .flusher f ∈ pre ++ t :: post → Late new s.live f) :
    Kept old new s' (pre ++ t' :: post) := by
  cases hact with
  | stay t ht => exact .late hlog hindex hflushers
  | append u =>
    obtain rfl := hwriter u rfl
    exact .late (.inl rfl) hindex
      (forall_flushers hflushers (fun _ h => h) nofun)
  | take hguard =>
    refine .late ?_ hindex (forall_flushers hflushers (fun _ h => h) fun g hg => ?_)
    · refine hlog.imp_right fun h => ⟨h.1, h.2.imp_left (holder_stays fun hholds => ?_)⟩
      cases hholds.1
    · cases hg
      exact .taken (hlog.imp_right And.left)
  | plan f hf hguard =>
    have hlate := hflushers f (mem_tasks_iff.mpr (.inl rfl))
    refine .late ?_ hindex (forall_flushers hflushers (fun _ h => h) fun g hg => ?_)
    · exact hlog.imp_right fun h => ⟨h.1, h.2.imp_left (holder_stays holds_lookUp)⟩
    · cases hg
      exact hlate.lookUp hf hguard hindex
  | put f a v hf hupdate =>
    have hlate := hflushers f (mem_tasks_iff.mpr (.inl rfl))
    obtain rfl := hlate.update_eq (not_written_of_planned hf) hupdate
    have hshows : Shows (s.live ++ [(a, v)]) (some v) := by
      rw [Shows, List.getLast?_concat]
      rfl
    refine .late (hlog.imp_right fun h => ⟨h.1, .inr hshows⟩) nofun
      (forall_flushers hflushers (fun _ h => .of_shows h.stale hshows) fun g hg => ?_)
    cases hg
    exact .of_shows (fun _ _ _ => .inl rfl) hshows
  | remove f hf hupdate =>
    have hlate := hflushers f (mem_tasks_iff.mpr (.inl rfl))
    obtain rfl := hlate.update_eq (not_written_of_planned hf) hupdate
    rw [hlate.freed_eq_nil rfl hupdate hf]
    have hshows : Shows ([] : List (ι × V)) none := rfl
    refine .late (hlog.imp_right fun h => ⟨h.1, .inr hshows⟩) (fun _ hne => absurd rfl hne)
      (forall_flushers hflushers (fun _ h => .of_nil h.stale) fun g hg => ?_)
    cases hg
    exact .of_nil fun _ _ _ => .inl rfl
  | publish f hf =>
    have hlate := hflushers f (mem_tasks_iff.mpr (.inl rfl))
    refine .late hlog (fun hnew hne a ha => hasAt_of_publish (hlate.pending hnew hne)
      (hindex hnew hne) ha)
      (forall_flushers hflushers (fun _ h => h) fun g hg => ?_)
    cases hg
    exact hlate
  | checkpoint f hf hguard =>
    have hlate := hflushers f (mem_tasks_iff.mpr (.inl rfl))
    refine .late (.inr ⟨rfl, ?_⟩) hindex
      (forall_flushers hflushers (fun _ h => h) fun g hg => ?_)
    · rcases hlog with hlog | ⟨-, ⟨x, hx, hholds⟩ | hshows⟩
      · exact holds_or_shows_of_return hlate (.inl hf) (hguard new hlog)
      · exact holds_or_shows_of_return hlate (.inl hf)
          ⟨x, List.mem_cons.mpr (mem_tasks_iff.mp hx), hholds⟩
      · exact .inr hshows
    · cases hg
      exact hlate.returned (.inl hf)

/-- Every step under the guards keeps the update. -/
theorem Kept.step (h : Kept old new s (pre ++ t :: post)) (hact : Acts (pre ++ post) s t s' t')
    (hwriter : ∀ u, t = .writer u → u = new) : Kept old new s' (pre ++ t' :: post) := by
  cases h with
  | early hne hlog hlive hindex hflushers =>
    exact kept_of_early hact hwriter hne hlog hlive hindex hflushers
  | late hlog hindex hflushers => exact kept_of_late hact hwriter hlog hindex hflushers

end

end PeachDB.WriteBehind
