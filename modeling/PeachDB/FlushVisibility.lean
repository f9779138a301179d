import PeachDB.Opening

/-!
# What a flush does to the fields in memory

Only the state update of a flush can touch the fields, and it removes the keys
of a delete plan that was made from older snapshots of the log and the index.
It is invisible to readers exactly when the last state update of every planned
key was a delete: the delete that was planned has updated the state, and no set
of the key has followed it.
-/

namespace PeachDB.Db

open Dtypes RecordCodec WriteAheadLog Interleaving

/-- The state updates of writes among the steps of a run, in order. -/
def stateUpdates (trace : List Task) : List WalEntry :=
  trace.filterMap fun
    | .write entry .update => some entry
    | _ => none

/-- The last state update of a key was a delete. A key without a state update
was not there at the start. -/
def DeletedLast (fields₀ : HashMap Key Field) (updates : List WalEntry) (k : Key) : Prop :=
  match lastValue k updates with
  | some value => value = none
  | none => k ∉ fields₀

instance (fields₀ : HashMap Key Field) (updates : List WalEntry) (k : Key) :
    Decidable (DeletedLast fields₀ updates k) := by
  unfold DeletedLast
  split <;> infer_instance

/-- A flush that updates the state does so after these state updates, and each
key of its delete plan was deleted by the last one of the key. -/
def PlanDeleted (fields₀ : HashMap Key Field) (updates : List WalEntry) : Task → Prop
  | .flush f => f.stage = .publish → ∀ k ∈ f.deletePlan.keys, DeletedLast fields₀ updates k
  | _ => True

instance (fields₀ : HashMap Key Field) (updates : List WalEntry) :
    DecidablePred (PlanDeleted fields₀ updates)
  | .flush f => inferInstanceAs
      (Decidable (f.stage = .publish →
        ∀ k ∈ f.deletePlan.keys, DeletedLast fields₀ updates k))
  | .write _ _ | .get _ _ | .failed _ => isTrue trivial

/-- Every state update of a flush in the run finds its planned keys deleted by
the state updates of the run before it. -/
def PlansDeleted (fields₀ : HashMap Key Field) (trace : List Task) : Prop :=
  ∀ i (h : i < trace.length), PlanDeleted fields₀ (stateUpdates (trace.take i))
    (trace.get ⟨i, h⟩)

instance (fields₀ : HashMap Key Field) (trace : List Task) :
    Decidable (PlansDeleted fields₀ trace) :=
  inferInstanceAs (Decidable (∀ i (h : i < trace.length),
    PlanDeleted fields₀ (stateUpdates (trace.take i)) (trace.get ⟨i, h⟩)))

/-- State updates come in the order of the steps. -/
theorem stateUpdates_append (trace trace' : List Task) :
    stateUpdates (trace ++ trace') = stateUpdates trace ++ stateUpdates trace' :=
  List.filterMap_append ..

/-- The condition on a run is the one on the run before its last step and the
one on that step. -/
theorem plansDeleted_concat {fields₀ : HashMap Key Field} {trace : List Task} {t : Task}
    (h : PlansDeleted fields₀ (trace ++ [t])) :
    PlansDeleted fields₀ trace ∧ PlanDeleted fields₀ (stateUpdates trace) t := by
  constructor
  · intro i hi
    have hplan := h i (by rw [List.length_append]; omega)
    rwa [List.take_append_of_le_length hi.le, List.get_eq_getElem,
      List.getElem_append_left hi] at hplan
  · have hplan := h trace.length (by simp)
    rwa [List.take_left, List.get_eq_getElem, List.getElem_concat_length rfl] at hplan

/-- A key was deleted by its last state update exactly when the state updates
leave it out. -/
theorem deletedLast_iff {fields₀ : HashMap Key Field} {updates : List WalEntry} {k : Key} :
    DeletedLast fields₀ updates k ↔ k ∉ replay fields₀ updates := by
  rw [DeletedLast, ← Finmap.lookup_eq_none (s := replay fields₀ updates), lookup_replay]
  split
  · rename_i value hlast
    rw [hlast, Option.getD_some]
  · rename_i hlast
    rw [hlast, Option.getD_none, Finmap.lookup_eq_none]

/-- Removing keys changes a map exactly when it holds one of them. -/
theorem removeKeys_eq_self_iff {m : HashMap Key Field} {p : HashMap Key IndexCodec.IndexEntry} :
    removeKeys m p = m ↔ ∀ k ∈ p.keys, k ∉ m := by
  constructor
  · intro h k hk hm
    have hlookup := lookup_removeKeys m p k
    rw [h, if_pos (Finmap.mem_keys.mp hk)] at hlookup
    exact Finmap.lookup_eq_none.mp hlookup hm
  · intro h
    apply Finmap.ext_lookup
    intro k
    rw [lookup_removeKeys]
    split
    · rename_i hk
      exact (Finmap.lookup_eq_none.mpr (h k (Finmap.mem_keys.mpr hk))).symm
    · rfl

section

variable [Crc] {choice : Choice} {db db' : Database} {t t' : Task}

/-- A batch item leaves the state alone, whether its command fails or not. -/
theorem state_batchItem (io : FileHandler.Verdict) (db : Database) (f : Flush)
    (todo : List WalEntry) (entry : WalEntry) :
    (f.batchItem io db todo entry).1.state = db.state := by
  cases entry with
  | set key field =>
    rw [Flush.batchItem]
    split <;> rfl
  | delete key =>
    rw [Flush.batchItem]
    split <;> rfl

/-- The fields after one section of a flush. -/
theorem fields_flushStep {f : Flush} (h : f.step choice db = some (db', t')) :
    db'.state.fields =
      if f.stage = .publish then removeKeys db.state.fields f.deletePlan else db.state.fields := by
  unfold Flush.step at h
  split at h
  all_goals rename_i hstage
  all_goals simp only [hstage, reduceCtorEq, if_false, if_true]
  case h_2 | h_7 =>
    split at h
    · cases h
      rfl
    · cases h
  case h_3 =>
    split at h
    · cases h
      rfl
    · rw [← state_batchItem choice.first db f _ _, Option.some.inj h]
  case h_12 => cases h
  all_goals
    cases h
    rfl

/-- A flush leaves the fields that the state updates have made as they are
exactly when it meets the condition. -/
theorem fields_flushStep_eq_iff {fields₀ : HashMap Key Field} {updates : List WalEntry}
    {f : Flush} (hfields : db.state.fields = replay fields₀ updates)
    (h : f.step choice db = some (db', t')) :
    db'.state.fields = db.state.fields ↔ PlanDeleted fields₀ updates (.flush f) := by
  rw [fields_flushStep h, PlanDeleted]
  simp only [deletedLast_iff, ← hfields]
  split
  · rename_i hstage
    rw [removeKeys_eq_self_iff]
    exact ⟨fun h _ => h, fun h => h hstage⟩
  · rename_i hstage
    exact ⟨fun _ h => absurd h hstage, fun _ => rfl⟩

/-- One section that meets the condition changes the fields by its own state
update only. -/
theorem fields_step {fields₀ : HashMap Key Field} {updates : List WalEntry}
    (hfields : db.state.fields = replay fields₀ updates)
    (h : Task.step choice db t = some (db', t')) (hplan : PlanDeleted fields₀ updates t) :
    db'.state.fields = replay fields₀ (updates ++ stateUpdates [t]) := by
  have hsame : ∀ {u : Task}, stateUpdates [u] = [] → db'.state.fields = db.state.fields →
      db'.state.fields = replay fields₀ (updates ++ stateUpdates [u]) := by
    intro u hupdates hdb'
    rw [hupdates, List.append_nil, hdb', hfields]
  cases t with
  | write entry stage =>
    cases stage with
    | append =>
      cases h
      exact hsame rfl rfl
    | update =>
      cases h
      change applyEntry db.state.fields entry = replay fields₀ (updates ++ [entry])
      rw [replay_concat, hfields]
    | done => cases h
  | get key result =>
    cases result with
    | none =>
      cases h
      exact hsame rfl rfl
    | some result => cases h
  | flush f => exact hsame rfl ((fields_flushStep_eq_iff hfields h).mpr hplan)
  | failed e => cases h

/-- In a run in which every flush that updates the state finds its planned keys
deleted by their last state updates, the fields are those of the state updates
alone and `get` answers from these; and the next step of a flush leaves the
fields alone exactly when it meets the condition. -/
theorem flush_invisible_iff {c c₁ : Pool Database Task} {trace : List Task}
    (hrun : Run Task.step anyStep c trace c₁)
    (hplans : PlansDeleted c.shared.state.fields trace) :
    c₁.shared.state.fields = replay c.shared.state.fields (stateUpdates trace) ∧
      ∀ t choice db' t', Task.step choice c₁.shared t = some (db', t') →
        (∀ key, t = .get key none →
          t' = .get key (some (readOf (replay c.shared.state.fields (stateUpdates trace)) key))) ∧
        (∀ f, t = .flush f → (db'.state.fields = c₁.shared.state.fields ↔
          PlanDeleted c.shared.state.fields (stateUpdates trace) t)) := by
  have hfields : c₁.shared.state.fields = replay c.shared.state.fields (stateUpdates trace) := by
    induction hrun with
    | refl => rfl
    | @snoc trace _ _ t _ hstep ih =>
      obtain ⟨hbefore, hplan⟩ := plansDeleted_concat hplans
      obtain ⟨pre, post, choice, -, hexec⟩ := hstep
      rw [stateUpdates_append]
      exact fields_step (ih hbefore) hexec hplan
  refine ⟨hfields, fun t choice db' t' hstep => ⟨?_, ?_⟩⟩
  · rintro key rfl
    cases hstep
    rw [get_eq, hfields]
  · rintro f rfl
    exact fields_flushStep_eq_iff hfields hstep

end

open scoped IsoHdlc

/-- Two writes and a delete of one key with a flush after the first write and
one after the delete, and a reader. -/
def keyTwice : Pool Database Task where
  shared := Database.new "db" [] ⟨[], []⟩
  tasks :=
    [.write (.set (.ofText "k") (.primitive (.integer 1))) .append, .flush .start,
      .write (.delete (.ofText "k")) .append, .flush .start,
      .write (.set (.ofText "k") (.primitive (.integer 2))) .append, .get (.ofText "k") none]

/-- The first write, the first flush and the delete run one after another;
the second flush stops before its state update. -/
def deleteInFlight : List (ℕ × Choice) :=
  sections 0 2 ++ takeBatch 1 [(.ofText "k", .set (.ofText "k") (.primitive (.integer 1)))] ++
    sections 1 5 ++ copyIndex 1 [(.ofText "k", ⟨114, 1, 9⟩)] ++ sections 1 4 ++ sections 2 2 ++
    takeBatch 3 [(.ofText "k", .delete (.ofText "k"))] ++ sections 3 2

/-- The key is set again behind the state update of the second flush. -/
theorem keyTwice_setAfter_runs :
    (drive Task.step anyStep (deleteInFlight ++ sections 3 1 ++ sections 4 2) keyTwice).isSome := by
  decide +kernel

/-- Then every answer is the one of the state updates. -/
theorem flush_invisible_iff_setAfter :
    let out := (drive Task.step anyStep (deleteInFlight ++ sections 3 1 ++ sections 4 2)
      keyTwice).get keyTwice_setAfter_runs
    let fields := replay keyTwice.shared.state.fields (stateUpdates out.1)
    out.2.shared.state.fields = fields ∧
      ∀ t choice db' t', Task.step choice out.2.shared t = some (db', t') →
        (∀ key, t = .get key none → t' = .get key (some (readOf fields key))) ∧
        (∀ f, t = .flush f → (db'.state.fields = out.2.shared.state.fields ↔
          PlanDeleted keyTwice.shared.state.fields (stateUpdates out.1) t)) :=
  flush_invisible_iff (run_get_drive keyTwice_setAfter_runs) (by decide +kernel)

/-- The key is set again before the state update of the second flush. -/
theorem keyTwice_setBefore_runs :
    (drive Task.step anyStep (deleteInFlight ++ sections 4 2 ++ sections 3 1 ++ sections 5 1)
      keyTwice).isSome := by
  decide +kernel

/-- Then the flush takes the new field away, and the reader does not find it. -/
theorem flush_hides_later_set :
    let out := (drive Task.step anyStep
      (deleteInFlight ++ sections 4 2 ++ sections 3 1 ++ sections 5 1)
      keyTwice).get keyTwice_setBefore_runs
    Run Task.step anyStep keyTwice out.1 out.2 ∧
      .get (.ofText "k") (some (failWith .keyNotFound)) ∈ out.2.tasks ∧
      readOf (replay keyTwice.shared.state.fields (stateUpdates out.1)) (.ofText "k") =
        .ok (.primitive (.integer 2)) :=
  ⟨run_get_drive keyTwice_setBefore_runs, by decide +kernel, by decide +kernel⟩

end PeachDB.Db
