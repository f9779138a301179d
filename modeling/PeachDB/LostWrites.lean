import PeachDB.DataFileSteps
import PeachDB.WriteBehind

/-!
# Writes beside flushes

The database seen from one key is a cell of a write-behind store: each section
of each task is a step on the cell. Where the flushes keep to the guards of
the cell, the only write of a key without a record is found in the data file
or in the log when all tasks have returned.
-/

namespace PeachDB.Db

open Dtypes RecordCodec IndexCodec FileHandler WriteAheadLog Interleaving WriteBehind

/-- How far a flush has come with a key. -/
def Flush.progress (k : Key) (f : Flush) : Progress :=
  match f.stage with
  | .pop => .start
  | .plan => .taken
  | .done => .done
  | _ => if ∃ entry ∈ f.todo, entry.key = k then .planned else .written

/-- A flush as the key sees it. -/
def Flush.seenFrom (k : Key) (f : Flush) : Flusher ℕ Field where
  progress := f.progress k
  update := (f.net.lookup k).map WalEntry.value
  plan := (f.deletePlan.lookup k).map fun e => e.offset.toNat
  pending := (itemsOf k f.indexes).map fun e => e.offset.toNat

/-- A task as the key sees it. -/
def Task.seenFrom (k : Key) : Task → Actor ℕ Field
  | .write entry .append => if entry.key = k then .writer entry.value else .other
  | .flush f => .flusher (f.seenFrom k)
  | .write _ _ | .get _ _ | .failed _ => .other

/-- Only a write of the key that has not begun is seen as a writer. -/
theorem eq_of_seenFrom_writer {k : Key} {t : Task} {u : Option Field}
    (h : t.seenFrom k = .writer u) :
    ∃ entry, t = .write entry .append ∧ entry.key = k ∧ entry.value = u := by
  cases t with
  | write entry stage =>
    cases stage with
    | append =>
      rw [Task.seenFrom] at h
      split at h
      · rename_i hkey
        cases h
        exact ⟨entry, rfl, hkey, rfl⟩
      · cases h
    | update => cases h
    | done => cases h
  | get key result => cases h
  | flush f => cases h
  | failed e => cases h

/-- Only a flush is seen as a flusher. -/
theorem eq_of_seenFrom_flusher {k : Key} {t : Task} {g : Flusher ℕ Field}
    (h : t.seenFrom k = .flusher g) : ∃ f, t = .flush f ∧ f.seenFrom k = g := by
  cases t with
  | write entry stage =>
    cases stage with
    | append =>
      rw [Task.seenFrom] at h
      split at h <;> cases h
    | update => cases h
    | done => cases h
  | get key result => cases h
  | flush f =>
    cases h
    exact ⟨f, rfl, rfl⟩
  | failed e => cases h

/-- The shared state and the data file as the key sees them. -/
def cellOf (k : Key) (df : DataFile) (db : Database) : Cell ℕ Field where
  log := lastValue k db.wal.entries
  live := (df.liveOf k).map fun x => (x.offset, x.value)
  index := (db.state.index.lookup k).map fun e => e.offset.toNat

section

variable [Crc] {k : Key} {df df' : DataFile} {db db' : Database} {t t' : Task} {f : Flush}
  {others : List Task}

/-- What keeps the only write of a key. A flush takes the log when no other
one has still to write an older update of the key. It plans to delete the key
when the index knows all its live records. It truncates the log when the last
update in the log has been taken by it or by another flush in progress. -/
def KeepsWrite (k : Key) (db : Database) (others : List Task) (t : Task) : Prop :=
  match t with
  | .flush f =>
    match f.stage with
    | .pop => ∀ u ∈ lastValue k db.wal.entries, ∀ x ∈ others, ¬ (x.seenFrom k).Owes u
    | .plan => (f.net.lookup k).map WalEntry.value = some none →
        liveCount db.file k ≤ if (db.state.index.lookup k).isSome then 1 else 0
    | .checkpoint =>
      ∀ u ∈ lastValue k db.wal.entries, ∃ x ∈ .flush f :: others, (x.seenFrom k).Holds u
    | _ => True
  | _ => True

instance (k : Key) (db : Database) (others : List Task) (t : Task) :
    Decidable (KeepsWrite k db others t) := by
  unfold KeepsWrite
  split
  · split <;> infer_instance
  · infer_instance

omit [Crc] in
/-- Before the item of a key is written, its update is planned. -/
theorem seenFrom_before {entry : WalEntry} {todo : List WalEntry} (ht : FlushSound df f)
    (hstage : f.stage = .batch) (htodo : f.todo = entry :: todo) :
    (f.seenFrom entry.key).progress = .planned ∧
      (f.seenFrom entry.key).update = some entry.value := by
  constructor
  · simp only [Flush.seenFrom, Flush.progress, hstage, htodo]
    exact if_pos ⟨entry, List.mem_cons_self, rfl⟩
  · simp only [Flush.seenFrom, ht.todo entry (htodo ▸ List.mem_cons_self), Option.map_some]

omit [Crc] in
/-- When the item of a key has been written, nothing is left to be written for it. -/
theorem seenFrom_after {entry : WalEntry} {todo : List WalEntry} (ht : FlushSound df f)
    (hstage : f.stage = .batch) (htodo : f.todo = entry :: todo)
    (indexes : List (Key × IndexEntry)) :
    ({ f with todo, indexes } : Flush).seenFrom entry.key =
      { f.seenFrom entry.key with
        progress := .written
        pending := (itemsOf entry.key indexes).map fun e => e.offset.toNat } := by
  have hne := (ht.key_ne htodo).1
  have hprogress : ({ f with todo, indexes } : Flush).progress entry.key = .written := by
    simp only [Flush.progress, hstage]
    exact if_neg fun ⟨e, he, heq⟩ => hne e he heq
  rw [Flush.seenFrom, hprogress]
  rfl

omit [Crc] in
/-- Writing the item of another key is nothing to a key. -/
theorem progress_other {entry : WalEntry} {todo : List WalEntry} (hstage : f.stage = .batch)
    (htodo : f.todo = entry :: todo) (hk : entry.key ≠ k) (indexes : List (Key × IndexEntry)) :
    ({ f with todo, indexes } : Flush).progress k = f.progress k := by
  simp only [Flush.progress, hstage, htodo, List.mem_cons, exists_eq_or_imp, hk, false_or]

omit [Crc] in
/-- A flush with nothing left to write is written for every key. -/
theorem progress_idle (hstage : f.stage = .publish ∨ f.stage = .checkpoint)
    (htodo : f.todo = []) :
    (f.seenFrom k).progress = .written := by
  have hnone : ¬ ∃ entry ∈ f.todo, entry.key = k := by simp [htodo]
  obtain hstage | hstage := hstage <;>
    simp only [Flush.seenFrom, Flush.progress, hstage, if_neg hnone]

omit [Crc] in
/-- A section of a flush that the key does not see is no step of the cell. -/
theorem acts_of_flush {g : Flush} (hcell : cellOf k df' db' = cellOf k df db)
    (htask : g.seenFrom k = f.seenFrom k) :
    Acts (others.map (Task.seenFrom k)) (cellOf k df db) (.flusher (f.seenFrom k))
      (cellOf k df' db') (.flusher (g.seenFrom k)) := by
  rw [hcell, htask]
  exact .idle _

omit [Crc] in
/-- The item of another key is written. -/
theorem acts_of_item {entry : WalEntry} {todo : List WalEntry} {indexes : List (Key × IndexEntry)}
    (hstage : f.stage = .batch) (htodo : f.todo = entry :: todo) (hk : entry.key ≠ k)
    (hcell : cellOf k df' db' = cellOf k df db) (hitems : itemsOf k indexes = itemsOf k f.indexes) :
    Acts (others.map (Task.seenFrom k)) (cellOf k df db) (.flusher (f.seenFrom k))
      (cellOf k df' db') (.flusher (Flush.seenFrom k { f with todo, indexes })) := by
  refine acts_of_flush hcell ?_
  rw [Flush.seenFrom, progress_other hstage htodo hk, hitems]
  rfl

omit [Crc] in
/-- The delete of the key is written: the address that was looked up, if any,
is freed. -/
theorem acts_of_remove {key : Key} {todo : List WalEntry} (ht : FlushSound df f)
    (hstage : f.stage = .batch) (htodo : f.todo = .delete key :: todo)
    (hcell : cellOf key df' db' =
      { cellOf key df db with live := freed (f.seenFrom key).plan (cellOf key df db).live }) :
    Acts (others.map (Task.seenFrom key)) (cellOf key df db) (.flusher (f.seenFrom key))
      (cellOf key df' db') (.flusher (Flush.seenFrom key { f with todo })) := by
  obtain ⟨hplanned, hupdate⟩ := seenFrom_before ht hstage htodo
  have htask : Flush.seenFrom key { f with todo } = { f.seenFrom key with progress := .written } :=
    seenFrom_after ht hstage htodo f.indexes
  rw [hcell, htask]
  exact .remove _ hplanned hupdate

omit [Crc] in
/-- Behind the batch the key sees the stage of a flush no more, until it is done. -/
theorem acts_of_stage {g : Flush} (hcell : cellOf k df' db' = cellOf k df db)
    (hprogress : g.progress k = f.progress k)
    (hsame : g.net = f.net ∧ g.deletePlan = f.deletePlan ∧ g.indexes = f.indexes) :
    Acts (others.map (Task.seenFrom k)) (cellOf k df db) (.flusher (f.seenFrom k))
      (cellOf k df' db') (.flusher (g.seenFrom k)) := by
  obtain ⟨hnet, hplan, hindexes⟩ := hsame
  refine acts_of_flush hcell ?_
  rw [Flush.seenFrom, hprogress, hnet, hplan, hindexes]
  rfl

omit [Crc] in
/-- Making the delete plan looks up the address to free. -/
theorem seenFrom_plan {batch : List (Key × WalEntry)} {index : HashMap Key IndexEntry}
    (ht : FlushSound df f) (hbatch : IterOrder f.net batch) :
    ({ f with
        stage := .batch
        deletePlan := deletePlanOf f.net index
        todo := batch.map Prod.snd } : Flush).seenFrom k =
      (f.seenFrom k).lookUp ((index.lookup k).map fun e => e.offset.toNat) := by
  have hitem : (∃ entry ∈ batch.map Prod.snd, entry.key = k) ↔ f.net.lookup k ≠ none := by
    rw [Option.ne_none_iff_exists']
    constructor
    · rintro ⟨entry, hmem, rfl⟩
      obtain ⟨x, hx, rfl⟩ := List.mem_map.mp hmem
      have hlookup := hbatch.mem_iff.mp (show (x.1, x.2) ∈ batch from hx)
      rw [(ht.net _ _ hlookup).1]
      exact ⟨_, hlookup⟩
    · rintro ⟨entry, hlookup⟩
      exact ⟨entry, List.mem_map_of_mem (hbatch.mem_iff.mpr hlookup), (ht.net k entry hlookup).1⟩
  simp only [Flush.seenFrom, Flush.progress, Flusher.lookUp, hitem, lookup_deletePlanOf]
  cases f.net.lookup k with
  | none => rfl
  | some entry => cases entry <;> rfl

omit [Crc] in
/-- An entry comes into the log. -/
theorem acts_append (entry : WalEntry) (df : DataFile) (db : Database) :
    Acts (others.map (Task.seenFrom k)) (cellOf k df db) (Task.seenFrom k (.write entry .append))
      (cellOf k df
        { db with wal := ⟨db.wal.file ++ walBytes entry, db.wal.entries ++ [entry]⟩ })
      .other := by
  have hlog : cellOf k df
      { db with wal := ⟨db.wal.file ++ walBytes entry, db.wal.entries ++ [entry]⟩ } =
        { cellOf k df db with
          log := if k = entry.key then some entry.value else lastValue k db.wal.entries } := by
    rw [cellOf, lastValue_concat]
    rfl
  rw [hlog]
  by_cases hk : entry.key = k
  · rw [if_pos hk.symm, Task.seenFrom, if_pos hk]
    exact .append entry.value
  · rw [if_neg fun heq => hk heq.symm, Task.seenFrom, if_neg hk]
    exact .unseen

omit [Crc] in
/-- A flush takes the last update of the key. -/
theorem acts_pop (df : DataFile)
    (hguard : ∀ u ∈ lastValue k db.wal.entries, ∀ x ∈ others, ¬ (x.seenFrom k).Owes u) :
    Acts (others.map (Task.seenFrom k)) (cellOf k df db) (.flusher .start) (cellOf k df db)
      (Task.seenFrom k
        (.flush { Flush.start with stage := .plan, net := netOf db.wal.entries })) := by
  have hnet : ((netOf db.wal.entries).lookup k).map WalEntry.value =
      lastValue k db.wal.entries := by
    rw [lookup_netOf, map_value_lastEntry]
  have hnew : Task.seenFrom k
      (.flush { Flush.start with stage := .plan, net := netOf db.wal.entries }) =
        .flusher ⟨.taken, (cellOf k df db).log, none, []⟩ := by
    rw [Task.seenFrom, Flush.seenFrom, hnet]
    rfl
  rw [hnew]
  refine .take fun u hu x hx => ?_
  obtain ⟨y, hy, rfl⟩ := List.mem_map.mp hx
  exact hguard u hu y hy

/-- A flush looks the key up. -/
theorem acts_plan {batch : List (Key × WalEntry)} (hdb : Sound df db) (ht : FlushSound df f)
    (hstage : f.stage = .plan) (hbatch : IterOrder f.net batch)
    (hguard : KeepsWrite k db others (.flush f)) :
    Acts (others.map (Task.seenFrom k)) (cellOf k df db) (.flusher (f.seenFrom k)) (cellOf k df db)
      (.flusher (Flush.seenFrom k { f with
        stage := .batch
        deletePlan := deletePlanOf f.net db.state.index
        todo := batch.map Prod.snd })) := by
  rw [seenFrom_plan ht hbatch]
  refine .plan _ (by simp only [Flush.seenFrom, Flush.progress, hstage]) fun hdelete => ?_
  rw [KeepsWrite, hstage] at hguard
  have hlive := hguard hdelete
  rw [hdb.file, liveCount_bytes] at hlive
  simpa only [cellOf, List.length_map, Option.isSome_map] using hlive

/-- A record of the key itself is appended. -/
theorem acts_put {key : Key} {field : Field} {todo : List WalEntry} (hdb : Sound df db)
    (ht : FlushSound df f) (hstage : f.stage = .batch) (htodo : f.todo = .set key field :: todo)
    (hfits : db.file.length ≤ maxFileLen) (hkey : key.Encodable) (hfield : field.Encodable) :
    Acts (others.map (Task.seenFrom key)) (cellOf key df db) (.flusher (f.seenFrom key))
      (cellOf key (df.append (.ofPair key field hkey hfield))
        { db with file := db.file ++ encode key field })
      (.flusher (Flush.seenFrom key
        { f with todo, indexes := f.indexes ++ [(key, entryAt db.file.length key field)] })) := by
  obtain ⟨hplanned, hupdate⟩ := seenFrom_before ht hstage htodo
  have hoffset : (entryAt db.file.length key field).offset.toNat = df.bytes.length := by
    rw [hdb.file] at hfits ⊢
    exact UInt64.toNat_ofNat_of_lt' (hfits.trans_lt (by decide))
  have hcell : cellOf key (df.append (.ofPair key field hkey hfield))
      { db with file := db.file ++ encode key field } =
        { cellOf key df db with
          live := (cellOf key df db).live ++ [(df.bytes.length, field)] } := by
    rw [cellOf, DataFile.liveOf_append, if_pos rfl, List.map_append]
    rfl
  have hpending : (itemsOf key (f.indexes ++ [(key, entryAt db.file.length key field)])).map
      (fun e => e.offset.toNat) = (f.seenFrom key).pending ++ [df.bytes.length] := by
    rw [itemsOf_append, itemsOf_singleton, if_pos rfl, List.map_append, List.map_singleton, hoffset]
    rfl
  have htask : Flush.seenFrom key
      { f with todo, indexes := f.indexes ++ [(key, entryAt db.file.length key field)] } =
        { f.seenFrom key with
          progress := .written
          pending := (f.seenFrom key).pending ++ [df.bytes.length] } := by
    rw [← hpending]
    exact seenFrom_after ht hstage htodo _
  rw [hcell, htask]
  exact .put _ _ _ hplanned hupdate

/-- A record is appended. -/
theorem acts_appendItem {key : Key} {field : Field} {todo : List WalEntry} (hdb : Sound df db)
    (ht : FlushSound df f) (hstage : f.stage = .batch) (htodo : f.todo = .set key field :: todo)
    (hfits : db.file.length ≤ maxFileLen) :
    Acts (others.map (Task.seenFrom k)) (cellOf k df db) (.flusher (f.seenFrom k))
      (cellOf k (df.after (.flush f)) { db with file := db.file ++ encode key field })
      (.flusher (Flush.seenFrom k
        { f with todo, indexes := f.indexes ++ [(key, entryAt db.file.length key field)] })) := by
  have henc := ht.encodable htodo
  have hkey : key.Encodable := henc.1
  have hfield : field.Encodable := henc.2 field rfl
  rw [DataFile.after_set hstage htodo hkey hfield]
  by_cases hk : key = k
  · subst hk
    exact acts_put hdb ht hstage htodo hfits hkey hfield
  · have hcell : cellOf k (df.append (.ofPair key field hkey hfield))
        { db with file := db.file ++ encode key field } = cellOf k df db := by
      rw [cellOf, DataFile.liveOf_append, if_neg hk]
      rfl
    refine acts_of_item hstage htodo hk hcell ?_
    rw [itemsOf_append, itemsOf_singleton, if_neg hk, List.append_nil]

omit [Crc] in
/-- A delete of a key that the index does not know is passed over. -/
theorem acts_skipItem {key : Key} {todo : List WalEntry} (ht : FlushSound df f)
    (hstage : f.stage = .batch) (htodo : f.todo = .delete key :: todo)
    (hplan : f.deletePlan.lookup key = none) :
    Acts (others.map (Task.seenFrom k)) (cellOf k df db) (.flusher (f.seenFrom k))
      (cellOf k (df.after (.flush f)) db) (.flusher (Flush.seenFrom k { f with todo })) := by
  rw [DataFile.after_skip hstage htodo hplan]
  by_cases hk : key = k
  · subst hk
    refine acts_of_remove ht hstage htodo ?_
    simp only [Flush.seenFrom, hplan, Option.map_none, freed]
  · exact acts_of_item hstage htodo hk rfl rfl

omit [Crc] in
/-- A record is made a tombstone. -/
theorem acts_tombstoneItem {key : Key} {todo : List WalEntry} {entry : IndexEntry}
    (ht : FlushSound df f) (hstage : f.stage = .batch) (htodo : f.todo = .delete key :: todo)
    (hplan : f.deletePlan.lookup key = some entry) :
    Acts (others.map (Task.seenFrom k)) (cellOf k df db) (.flusher (f.seenFrom k))
      (cellOf k (df.after (.flush f))
        { db with file := overwrite db.file entry.offset.toNat (tombstoneOf entry) })
      (.flusher (Flush.seenFrom k { f with todo })) := by
  rw [DataFile.after_delete hstage htodo hplan]
  by_cases hk : key = k
  · subst hk
    have hfreed : ((df.tombstone entry.offset.toNat).liveOf key).map (fun x =>
        (x.offset, x.value)) =
        freed (f.seenFrom key).plan (cellOf key df db).live := by
      rw [DataFile.liveOf_tombstone, Flush.seenFrom, hplan]
      simp only [freed, cellOf, Option.map_some, List.filter_map]
      rfl
    refine acts_of_remove ht hstage htodo ?_
    rw [← hfreed]
    rfl
  · refine acts_of_item hstage htodo hk ?_ rfl
    rw [cellOf, DataFile.liveOf_tombstone_of_ne (ht.plan key entry hplan) fun heq => hk heq.symm]
    rfl

omit [Crc] in
/-- The state is updated. -/
theorem acts_publish (ht : FlushSound df f) (hstage : f.stage = .publish) :
    Acts (others.map (Task.seenFrom k)) (cellOf k df db) (.flusher (f.seenFrom k))
      (cellOf k df { db with state := Db.publish db.state f.indexes f.deletePlan })
      (Task.seenFrom k (.flush { f with stage := .countFields })) := by
  have hwritten := progress_idle (k := k) (.inl hstage) (ht.idle (by simp [hstage]))
  have htask : Task.seenFrom k (.flush { f with stage := .countFields }) =
      .flusher (f.seenFrom k) := by
    simp only [Task.seenFrom, Flush.seenFrom, Flush.progress, hstage]
  have hcell : cellOf k df { db with state := Db.publish db.state f.indexes f.deletePlan } =
      { cellOf k df db with
        index := if (f.seenFrom k).plan.isSome then none
          else (f.seenFrom k).pending.getLast?.or (cellOf k df db).index } := by
    rw [cellOf, lookup_index_publish]
    simp only [cellOf, Flush.seenFrom, Option.isSome_map, Finmap.lookup_isSome, List.getLast?_map,
      lastOf_eq_getLast?]
    split
    · rfl
    · cases (itemsOf k f.indexes).getLast? <;> rfl
  rw [hcell, htask]
  exact .publish _ hwritten

/-- The log is truncated. -/
theorem acts_checkpoint (ht : FlushSound df f) (hstage : f.stage = .checkpoint)
    (hguard : KeepsWrite k db others (.flush f)) :
    Acts (others.map (Task.seenFrom k)) (cellOf k df db) (.flusher (f.seenFrom k))
      (cellOf k df { db with wal := ⟨[], []⟩ })
      (Task.seenFrom k (.flush { f with stage := .done })) := by
  have hwritten := progress_idle (k := k) (.inr hstage) (ht.idle (by simp [hstage]))
  refine Acts.checkpoint (s := cellOf k df db) (f.seenFrom k) hwritten fun u hu => ?_
  rw [KeepsWrite, hstage] at hguard
  obtain ⟨x, hx, hholds⟩ := hguard u hu
  exact ⟨x.seenFrom k, List.mem_map_of_mem hx, hholds⟩

/-- Each section is a step of the cell. -/
theorem Moves.acts (h : Moves db t db' t') (hdb : Sound df db) (ht : TaskSound df t)
    (hguard : KeepsWrite k db others t) :
    Acts (others.map (Task.seenFrom k)) (cellOf k df db) (t.seenFrom k) (cellOf k (df.after t) db')
      (t'.seenFrom k) := by
  have hquiet : ∀ {f g : Flush} {db' : Database}, t = .flush f → f.stage ≠ .batch →
      f.stage ≠ .writeCount → cellOf k df db' = cellOf k df db →
      g.progress k = f.progress k →
      (g.net = f.net ∧ g.deletePlan = f.deletePlan ∧ g.indexes = f.indexes) →
      Acts (others.map (Task.seenFrom k)) (cellOf k df db) (t.seenFrom k)
        (cellOf k (df.after t) db') (Task.seenFrom k (.flush g)) := by
    rintro f g db' rfl hbatch hcount hcell hprogress hsame
    rw [DataFile.after_of_stage hbatch hcount]
    exact acts_of_stage hcell hprogress hsame
  cases h with
  | append entry => exact acts_append entry df db
  | update entry => exact .unseen
  | get key => exact .unseen
  | pop f hstage =>
    obtain rfl := ht.start hstage
    exact acts_pop df hguard
  | plan f batch hstage hbatch =>
    rw [DataFile.after_of_stage (by simp [hstage]) (by simp [hstage])]
    exact acts_plan hdb ht hstage hbatch hguard
  | appendItem f key field todo hstage htodo hfits =>
    exact acts_appendItem hdb ht hstage htodo hfits
  | skipItem f key todo hstage htodo hplan => exact acts_skipItem ht hstage htodo hplan
  | tombstoneItem f key todo entry hstage htodo hplan =>
    exact acts_tombstoneItem ht hstage htodo hplan
  | sync f hstage htodo =>
    rw [DataFile.after_sync hstage htodo]
    exact acts_of_stage rfl (by simp only [Flush.progress, hstage]) ⟨rfl, rfl, rfl⟩
  | publish f hstage =>
    rw [DataFile.after_of_stage (by simp [hstage]) (by simp [hstage])]
    exact acts_publish ht hstage
  | writeCount f hstage =>
    rw [DataFile.after_count hstage]
    exact acts_of_stage rfl (by simp only [Flush.progress, hstage]) ⟨rfl, rfl, rfl⟩
  | countFields f hstage | cloneIndex f order hstage horder | truncIndex f hstage
  | writeIndex f hstage | syncIndex f hstage =>
    exact hquiet rfl (by simp [hstage]) (by simp [hstage]) rfl
      (by simp only [Flush.progress, hstage]) ⟨rfl, rfl, rfl⟩
  | checkpoint f hstage =>
    rw [DataFile.after_of_stage (by simp [hstage]) (by simp [hstage])]
    exact acts_checkpoint ht hstage hguard

/-- What a run with one update of the key keeps: the data file is whole, the
log file can be read, and the update is not lost. -/
structure KeepsUpdate (w : WalEntry) (old : Option (Option Field)) (df : DataFile)
    (c : Pool Database Task) : Prop where
  /-- The data file is whole. -/
  shared : Sound df c.shared
  /-- What the tasks hold is sound. -/
  tasks : ∀ t ∈ c.tasks, TaskSound df t
  /-- The log file holds the entries in memory. -/
  log : Wal.open c.shared.wal.file = .ok c.shared.wal
  /-- The key has one writer, or several with the same effect. -/
  writes : ∀ entry stage, .write entry stage ∈ c.tasks → entry.key = w.key → entry = w
  /-- The cell of the key keeps the update. -/
  kept : Kept old w.value (cellOf w.key df c.shared) (c.tasks.map (Task.seenFrom w.key))

/-- The log file can be read after every section. -/
theorem Moves.log (h : Moves db t db' t') (ht : TaskSound df t)
    (hlog : Wal.open db.wal.file = .ok db.wal) :
    Wal.open db'.wal.file = .ok db'.wal := by
  cases h with
  | append entry => exact open_append hlog ht
  | checkpoint f hstage => rfl
  | _ => exact hlog

/-- A write goes on with its entry. -/
theorem Moves.entry_eq (h : Moves db t db' t') {entry : WalEntry} {stage : WriteStage}
    (ht' : t' = .write entry stage) : ∃ stage', t = .write entry stage' := by
  cases h <;> cases ht' <;> exact ⟨_, rfl⟩

/-- A step under the guard keeps the update. -/
theorem KeepsUpdate.step {w : WalEntry} {old : Option (Option Field)} {c c' : Pool Database Task}
    (h : KeepsUpdate w old df c) (hstep : Step Task.stepOk (KeepsWrite w.key) c t c') :
    ∃ df', KeepsUpdate w old df' c' := by
  cases hstep with
  | move pre post choice hguard hexec =>
    have hmove := moves_of_stepOk hexec
    have ht := h.tasks t (mem_tasks_iff.mpr (.inl rfl))
    obtain ⟨hdb', ht'⟩ := hmove.sound h.shared ht
    have hkept := h.kept
    rw [List.map_append, List.map_cons] at hkept
    refine ⟨_, hdb', fun u hu => ?_, hmove.log ht h.log, fun entry stage hmem => ?_, ?_⟩
    · rcases mem_tasks_iff.mp hu with rfl | hother
      · exact ht'
      · exact (h.tasks u (mem_tasks_iff.mpr (.inr hother))).mono fun _ _ hextent => hextent.after
    · rcases mem_tasks_iff.mp hmem with heq | hother
      · obtain ⟨stage', rfl⟩ := hmove.entry_eq heq.symm
        exact h.writes entry stage' (mem_tasks_iff.mpr (.inl rfl))
      · exact h.writes entry stage (mem_tasks_iff.mpr (.inr hother))
    · have hact := hmove.acts h.shared ht hguard
      rw [List.map_append] at hact
      rw [List.map_append, List.map_cons]
      refine hkept.step hact fun u hu => ?_
      -- a writer of the key appends its only update
      obtain ⟨entry, rfl, hkey, rfl⟩ := eq_of_seenFrom_writer hu
      rw [h.writes entry .append (mem_tasks_iff.mpr (.inl rfl)) hkey]

/-- Before any task has begun, the update is still to be appended. -/
theorem keepsUpdate_initial {w : WalEntry} {tasks : List Task} (hdb : Sound df db)
    (hlog : Wal.open db.wal.file = .ok db.wal) (hlive : df.liveOf w.key = [])
    (hindex : db.state.index.lookup w.key = none) (hinit : ∀ t ∈ tasks, t.Initial)
    (hencodable : ∀ entry stage, .write entry stage ∈ tasks → entry.Encodable)
    (hwrite : .write w .append ∈ tasks)
    (hsingle : ∀ entry stage, .write entry stage ∈ tasks → entry.key = w.key → entry = w) :
    KeepsUpdate w (lastValue w.key db.wal.entries) df ⟨db, tasks⟩ := by
  have hstart : ∀ f, .flusher f ∈ tasks.map (Task.seenFrom w.key) → f = .start := by
    intro f hf
    obtain ⟨t, ht, hseen⟩ := List.mem_map.mp hf
    obtain ⟨g, rfl, rfl⟩ := eq_of_seenFrom_flusher hseen
    obtain rfl : g = .start := hinit _ ht
    rfl
  refine ⟨hdb, fun t ht => taskSound_of_initial (hinit t ht) fun entry stage heq =>
    hencodable entry stage (heq ▸ ht), hlog, hsingle, ?_⟩
  have hcell : cellOf w.key df db = ⟨lastValue w.key db.wal.entries, [], none⟩ := by
    rw [cellOf, hlive, hindex]
    rfl
  rw [hcell]
  by_cases hold : lastValue w.key db.wal.entries = some w.value
  · refine .late (.inl hold) nofun fun f hf => ?_
    rw [hstart f hf]
    exact .start _ _
  · refine .early hold (.inl ⟨.inl rfl, ?_⟩) (fun _ => rfl) nofun fun f hf => ?_
    · have hseen : Task.seenFrom w.key (.write w .append) = .writer w.value := if_pos rfl
      exact hseen ▸ List.mem_map_of_mem hwrite
    · rw [hstart f hf]
      exact .start _ _

/-- One task sets or deletes a key that has no record and no index entry, or
several do with the same effect. In a run whose flushes keep to the guards of
the key, replaying the log file over the data file has exactly that effect on
the key when all tasks have returned. -/
theorem single_write_survives {df₀ : DataFile} {db₀ : Database} {w : WalEntry}
    {tasks trace : List Task} {c : Pool Database Task} (hdb : Sound df₀ db₀)
    (hlog : Wal.open db₀.wal.file = .ok db₀.wal) (hrecord : liveCount db₀.file w.key = 0)
    (hindex : db₀.state.index.lookup w.key = none) (hinit : ∀ t ∈ tasks, t.Initial)
    (hencodable : ∀ entry stage, .write entry stage ∈ tasks → entry.Encodable)
    (hwrite : .write w .append ∈ tasks)
    (hsingle : ∀ entry stage, .write entry stage ∈ tasks → entry.key = w.key → entry = w)
    (hrun : Run Task.stepOk (KeepsWrite w.key) ⟨db₀, tasks⟩ trace c)
    (hdone : ∀ t ∈ c.tasks, t.Returned) :
    ∃ fields info wal,
      (do let d ← (DBDecoder.new c.shared.file).decodeDbFile; d.finish) = .ok (fields, info) ∧
        Wal.open c.shared.wal.file = .ok wal ∧ (replay fields wal.entries).lookup w.key =
          w.value := by
  have hlive : df₀.liveOf w.key = [] := by
    rw [hdb.file, liveCount_bytes] at hrecord
    exact List.length_eq_zero_iff.mp hrecord
  have hkeeps : ∃ df, KeepsUpdate w (lastValue w.key db₀.wal.entries) df c := by
    refine hrun.invariant (I := fun _ c => ∃ df, KeepsUpdate w (lastValue w.key db₀.wal.entries)
      df c)
      ⟨df₀, keepsUpdate_initial hdb hlog hlive hindex hinit hencodable hwrite hsingle⟩ ?_
    rintro _ _ _ _ ⟨df, h⟩ hstep
    exact h.step hstep
  obtain ⟨df, h⟩ := hkeeps
  refine ⟨_, _, _, decodeDbFile_eq_ok_iff.mpr ⟨df, h.shared.file, rfl, rfl⟩, h.log, ?_⟩
  -- a task that has returned is no writer any more and holds nothing
  have hwriter : .writer w.value ∉ c.tasks.map (Task.seenFrom w.key) := by
    intro hmem
    obtain ⟨t, ht, hseen⟩ := List.mem_map.mp hmem
    obtain ⟨entry, rfl, -⟩ := eq_of_seenFrom_writer hseen
    exact absurd (hdone _ ht) nofun
  have hholds : ∀ x ∈ c.tasks.map (Task.seenFrom w.key), ¬ x.Holds w.value := by
    intro x hx hholds
    obtain ⟨t, ht, hseen⟩ := List.mem_map.mp hx
    cases x with
    | flusher g =>
      obtain ⟨f, rfl, rfl⟩ := eq_of_seenFrom_flusher hseen
      refine hholds.2 ?_
      rw [Flush.seenFrom, Flush.progress, show f.stage = .done from hdone _ ht]
    | writer u => exact hholds.elim
    | other => exact hholds.elim
  have hvalue : lastValue w.key c.shared.wal.entries = some w.value ∨
      lastValue w.key c.shared.wal.entries = none ∧
      Shows (cellOf w.key df c.shared).live w.value := by
    cases h.kept with
    | early _ hlog => exact .inl (hlog.resolve_left fun h => hwriter h.2)
    | late hlog =>
      refine hlog.imp_right fun h => ⟨h.1, h.2.resolve_left ?_⟩
      rintro ⟨x, hx, hx'⟩
      exact hholds x hx hx'
  rw [lookup_replay]
  rcases hvalue with hvalue | ⟨hvalue, hshows⟩
  · rw [hvalue, Option.getD_some]
  · rw [hvalue, Option.getD_none, DataFile.lookup_fields, ← hshows, cellOf, List.getLast?_map,
      Option.map_map]
    rfl

end

open scoped IsoHdlc

/-- A writer and two flushes on a new database. -/
def writeBesideFlushes : Pool Database Task where
  shared := Database.new "db" [] ⟨[], []⟩
  tasks :=
    [.write (.set (.ofText "k") (.primitive (.integer 1))) .append, .flush .start, .flush .start]

/-- The flush at place 1 takes the empty log before the key is set, and
truncates it when the flush at place 2 has taken the entry. -/
def handedOver : List (ℕ × Choice) :=
  sections 1 1 ++ sections 0 2 ++
    takeBatch 2 [(.ofText "k", .set (.ofText "k") (.primitive (.integer 1)))] ++
    sections 1 5 ++ copyIndex 1 [] ++ sections 1 4 ++
    sections 2 5 ++ copyIndex 2 [(.ofText "k", ⟨114, 1, 9⟩)] ++ sections 2 4

/-- The run in which the log is handed over. -/
theorem writeBesideFlushes_handedOver_runs :
    (drive Task.stepOk (KeepsWrite (.ofText "k")) handedOver writeBesideFlushes).isSome := by
  decide +kernel

/-- Then the field is in the data file in the end. -/
theorem single_write_survives_handedOver :
    let c := ((drive Task.stepOk (KeepsWrite (.ofText "k")) handedOver writeBesideFlushes).get
      writeBesideFlushes_handedOver_runs).2
    ∃ fields info wal,
      (do let d ← (DBDecoder.new c.shared.file).decodeDbFile; d.finish) = .ok (fields, info) ∧
        Wal.open c.shared.wal.file = .ok wal ∧
        (replay fields wal.entries).lookup (.ofText "k") = some (.primitive (.integer 1)) :=
  single_write_survives (w := .set (.ofText "k") (.primitive (.integer 1))) (sound_new "db") rfl rfl
    rfl
    (by simp [Task.Initial])
    (fun entry stage hmem => by
      simp only [List.mem_cons, Task.write.injEq, reduceCtorEq, List.not_mem_nil,
        or_false] at hmem
      rw [hmem.1]
      decide)
    (by simp) (by simp)
    (run_get_drive writeBesideFlushes_handedOver_runs) (by decide +kernel)

/-- The flush at place 1 takes the empty log before the key is set, and
truncates it afterwards. -/
def truncatedAfter : List (ℕ × Choice) :=
  sections 1 1 ++ sections 0 2 ++ sections 1 5 ++ copyIndex 1 [] ++ sections 1 4

/-- A writer and one flush on a new database. -/
def writeBesideFlush : Pool Database Task where
  shared := Database.new "db" [] ⟨[], []⟩
  tasks := [.write (.set (.ofText "k") (.primitive (.integer 1))) .append, .flush .start]

/-- The run in which the log is truncated too early. -/
theorem writeBesideFlush_truncatedAfter_runs :
    (drive Task.stepOk anyStep truncatedAfter writeBesideFlush).isSome := by
  decide +kernel

/-- Then both calls have returned, and the key is neither in the data file nor
in the log. -/
theorem write_lost_to_flush :
    let out := (drive Task.stepOk anyStep truncatedAfter writeBesideFlush).get
      writeBesideFlush_truncatedAfter_runs
    Database.open "db" ⟨[], [], []⟩ = .ok writeBesideFlush.shared ∧
      Run Task.stepOk anyStep writeBesideFlush out.1 out.2 ∧
      (∀ t ∈ out.2.tasks, t.Returned) ∧
      (do
        let d ← (DBDecoder.new out.2.shared.file).decodeDbFile
        let (fields, _) ← d.finish
        let wal ← Wal.open out.2.shared.wal.file
        .ok ((replay fields wal.entries).lookup (.ofText "k")) : PDBResult (Option Field)) =
          .ok none :=
  ⟨rfl, run_get_drive writeBesideFlush_truncatedAfter_runs, by decide +kernel,
    by decide +kernel⟩

end PeachDB.Db
