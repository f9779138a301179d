import PeachDB.CrashRecovery

/-!
# What a flush leaves in the files

A flush on a data file whose index names the last live record of each of its
keys. What it leaves is a function of the old file, the old index and the last
entry of each key in the log: the order in which the batch is written decides
where records lie, and nothing that is read from the file.
-/

namespace PeachDB

open Dtypes RecordCodec IndexCodec FileHandler WriteAheadLog Interleaving Db

/-- Every index entry is the extent of the last live record of its key. -/
def DataFile.NamesLast (df : DataFile) (index : HashMap Key IndexEntry) : Prop :=
  ∀ k e, index.lookup k = some e → ∃ x, (df.liveOf k).getLast? = some x ∧ x.IsAt k e

/-- An entry that names a last live record is an extent. -/
theorem DataFile.NamesLast.extent {df : DataFile} {index : HashMap Key IndexEntry}
    (h : df.NamesLast index) {k : Key} {e : IndexEntry} (hk : index.lookup k = some e) :
    df.Extent k e := by
  obtain ⟨x, hx, hat⟩ := h k e hk
  have hlive : df.LiveExtent k e := ⟨x, List.mem_of_getLast? hx, hat⟩
  exact hlive.extent

/-- The index of a file names last live records when their offsets can be
represented. -/
theorem DataFile.namesLast_index {df : DataFile} (h : ∀ x ∈ df.live, x.2.offset < 2 ^ 64) :
    df.NamesLast df.index := by
  intro k e hk
  rw [lookup_index] at hk
  obtain ⟨x, hx, rfl⟩ := Option.map_eq_some_iff.mp hk
  have hmem := List.mem_of_getLast? hx
  exact ⟨x, hx, isAt_entry hmem (h (k, x) (mem_itemsOf.mp hmem))⟩

namespace Db

/-- What a key decodes to when its log is flushed. -/
def flushedValue (df₀ : DataFile) (db₀ : Database) (k : Key) : Option Field :=
  match lastEntry k db₀.wal.entries with
  | none => df₀.fields.lookup k
  | some (.set _ field) => some field
  | some (.delete _) =>
    (spared (db₀.state.index.lookup k) (df₀.liveOf k)).getLast?.map Stored.value

/-- Whether a key has an index entry when its log is flushed. -/
def flushedIndexed (db₀ : Database) (k : Key) : Bool :=
  match lastEntry k db₀.wal.entries with
  | none => (db₀.state.index.lookup k).isSome
  | some (.set _ _) => true
  | some (.delete _) => false

section

variable {df₀ df : DataFile} {db₀ : Database} {index : HashMap Key IndexEntry} {k : Key}

/-- The value of a key that has been flushed. -/
theorem FlushedAt.lookup_fields (h : FlushedAt df₀ db₀ df index k) :
    df.fields.lookup k = flushedValue df₀ db₀ k := by
  rw [DataFile.lookup_fields, flushedValue]
  cases h with
  | kept hlast hlive => rw [hlive, hlast, DataFile.lookup_fields]
  | set field x hlast hvalue hlive =>
    rw [hlive, hlast, List.getLast?_concat, Option.map_some, hvalue]
  | deleted hlast hlive => rw [hlive, hlast]

/-- The index knows a key that has been flushed as it should. -/
theorem FlushedAt.isSome_lookup (h : FlushedAt df₀ db₀ df index k) :
    (index.lookup k).isSome = flushedIndexed db₀ k := by
  rw [flushedIndexed]
  cases h with
  | kept hlast _ hindex => rw [hlast, hindex]
  | set field x hlast _ _ hindex =>
    rw [hlast, hindex]
    rfl
  | deleted hlast _ hindex =>
    rw [hlast, hindex]
    rfl

/-- After a flush the index entry of a key names its last live record, if that
was so before for a key that the log does not mention. -/
theorem FlushedAt.isAt_getLast (h : FlushedAt df₀ db₀ df index k)
    (hnames : lastEntry k db₀.wal.entries = none →
      ∀ e, db₀.state.index.lookup k = some e →
      ∃ x, (df₀.liveOf k).getLast? = some x ∧ x.IsAt k e) {e : IndexEntry}
        (hk : index.lookup k = some e) :
    ∃ x, (df.liveOf k).getLast? = some x ∧ x.IsAt k e := by
  cases h with
  | kept hlast hlive hindex =>
    rw [hlive]
    exact hnames hlast e (hindex ▸ hk)
  | set field x _ _ hlive hindex hfits =>
    rw [hindex] at hk
    cases hk
    have hmem : x ∈ df.liveOf k := by
      rw [hlive]
      simp
    have hlast : (df.liveOf k).getLast? = some x := by
      rw [hlive, List.getLast?_concat]
    exact ⟨x, hlast, DataFile.isAt_entry hmem (Nat.lt_of_le_of_lt hfits (by decide))⟩
  | deleted _ _ hindex =>
    rw [hindex] at hk
    cases hk

/-- A flush keeps the index naming last live records. -/
theorem namesLast_of_flushedAt (hnames : df₀.NamesLast db₀.state.index)
    (h : ∀ k, FlushedAt df₀ db₀ df index k) : df.NamesLast index :=
  fun k _ hk => (h k).isAt_getLast (fun _ => hnames k) hk

variable {df₀' df' : DataFile} {db₀' : Database} {index' : HashMap Key IndexEntry}

/-- Flushes after which every key decodes to the same leave the same fields. -/
theorem fields_of_sameValues (h : ∀ k, FlushedAt df₀ db₀ df index k)
    (h' : ∀ k, FlushedAt df₀' db₀' df' index' k)
    (hvalue : ∀ k, flushedValue df₀' db₀' k = flushedValue df₀ db₀ k) :
    df'.fields = df.fields := by
  apply Finmap.ext_lookup
  intro k
  rw [(h k).lookup_fields, (h' k).lookup_fields, hvalue]

/-- Flushes that index the same keys leave indexes of the same keys. -/
theorem mem_iff_of_sameIndexed (h : ∀ k, FlushedAt df₀ db₀ df index k)
    (h' : ∀ k, FlushedAt df₀' db₀' df' index' k)
    (hindexed : ∀ k, flushedIndexed db₀' k = flushedIndexed db₀ k) (k : Key) : k ∈ index ↔
      k ∈ index' := by
  rw [← Finmap.lookup_isSome, ← Finmap.lookup_isSome, (h k).isSome_lookup, (h' k).isSome_lookup,
    hindexed]

end

section

variable [Crc] {df₀ : DataFile} {db₀ : Database}

/-- A database with a data file whose index names last live records, and with
entries that can be encoded. -/
theorem sound_of_namesLast {df : DataFile} {db : Database} (hfile : db.file = df.bytes)
    (hnames : df.NamesLast db.state.index)
    (hentries : ∀ entry ∈ db.wal.entries, entry.Encodable) :
    Sound df db where
  file := hfile
  index _ _ hk := hnames.extent hk
  entries := hentries

/-- A flush that has run alone to its end. -/
theorem alone_of_done {guard : Guard Database Task} {trace : List Task} {c : Pool Database Task}
    (hdb : Sound df₀ db₀) (hrun : Run Task.stepOk guard ⟨db₀, [.flush .start]⟩ trace c)
    (hdone : ∀ t ∈ c.tasks, t.Returned) :
    ∃ df f, Alone df₀ db₀ df c.shared f ∧ f.stage = .done := by
  obtain ⟨df, db, f, rfl, halone⟩ := alone_of_sound hdb hrun
  exact ⟨df, f, halone, hdone _ (List.mem_singleton.mpr rfl)⟩

/-- It has done its part for every key. -/
theorem Alone.flushedAt_done {df : DataFile} {db : Database} {f : Flush}
    (h : Alone df₀ db₀ df db f) (hstage : f.stage = .done) (k : Key) :
    FlushedAt df₀ db₀ df db.state.index k := by
  refine h.flushedAt ?_ k
  rw [hstage]
  decide

/-- It has truncated the log. -/
theorem Alone.wal_done {df : DataFile} {db : Database} {f : Flush} (h : Alone df₀ db₀ df db f)
    (hstage : f.stage = .done) : db.wal = ⟨[], []⟩ := by
  rw [h.wal, if_neg (by rw [hstage]; decide)]

/-- The index file has the index that it has published. -/
theorem Alone.encodes_done {df : DataFile} {db : Database} {f : Flush}
    (h : Alone df₀ db₀ df db f) (hstage : f.stage = .done) :
    Encodes db.indexFile db.state.index := by
  obtain ⟨hcopy, order, horder, hencoded⟩ := h.copied (by rw [hstage]; decide)
  refine ⟨order, hcopy ▸ horder, ?_⟩
  rw [h.indexFile_new (by rw [hstage]; decide), hencoded]

/-- Two flushes of one database, whatever their iteration orders, leave data
files that decode to the same fields and indexes with the same keys, each
entry naming the last live record of its key. A key that the log sets last
decodes to its field, a key that the log does not mention to what it was
before, and a key that the log deletes last is not in the index. -/
theorem flush_order_independent {df : DataFile} {db : Database} {trace₁ trace₂ : List Task}
    {c₁ c₂ : Pool Database Task} (hfile : db.file = df.bytes)
    (hnames : df.NamesLast db.state.index)
    (hentries : ∀ entry ∈ db.wal.entries, entry.Encodable)
    (hrun₁ : Run Task.stepOk anyStep ⟨db, [.flush .start]⟩ trace₁ c₁)
    (hdone₁ : ∀ t ∈ c₁.tasks, t.Returned)
    (hrun₂ : Run Task.stepOk anyStep ⟨db, [.flush .start]⟩ trace₂ c₂)
    (hdone₂ : ∀ t ∈ c₂.tasks, t.Returned) :
    ∃ (df₁ df₂ : DataFile) (fields : HashMap Key Field),
      (c₁.shared.file = df₁.bytes ∧
        decodeFile c₁.shared.file = .ok (fields, df₁.header.info)) ∧
      (c₂.shared.file = df₂.bytes ∧
        decodeFile c₂.shared.file = .ok (fields, df₂.header.info)) ∧
      (∀ k, k ∈ c₁.shared.state.index ↔ k ∈ c₂.shared.state.index) ∧
      df₁.NamesLast c₁.shared.state.index ∧ df₂.NamesLast c₂.shared.state.index ∧
      (∀ k field, lastValue k db.wal.entries = some (some field) →
        fields.lookup k = some field) ∧
      (∀ k, lastValue k db.wal.entries = none → fields.lookup k = df.fields.lookup k) ∧
      ∀ k, lastValue k db.wal.entries = some none → k ∉ c₁.shared.state.index := by
  have hsound := sound_of_namesLast hfile hnames hentries
  obtain ⟨df₁, f₁, halone₁, hstage₁⟩ := alone_of_done hsound hrun₁ hdone₁
  obtain ⟨df₂, f₂, halone₂, hstage₂⟩ := alone_of_done hsound hrun₂ hdone₂
  have hflushed₁ := halone₁.flushedAt_done hstage₁
  have hflushed₂ := halone₂.flushedAt_done hstage₂
  have hfile₁ := halone₁.sound.file
  have hfile₂ := halone₂.sound.file
  have hfields := fields_of_sameValues hflushed₁ hflushed₂ fun _ => rfl
  refine ⟨df₁, df₂, df₁.fields, ⟨hfile₁, ?_⟩, ⟨hfile₂, ?_⟩,
    mem_iff_of_sameIndexed hflushed₁ hflushed₂ fun _ => rfl,
    namesLast_of_flushedAt hnames hflushed₁, namesLast_of_flushedAt hnames hflushed₂,
    fun k field hk => ?_, fun k hk => ?_, fun k hk => ?_⟩
  · rw [hfile₁, decodeFile_bytes]
  · rw [hfile₂, decodeFile_bytes, hfields]
  · rw [(hflushed₁ k).lookup_fields, flushedValue, lastEntry_of_set hk]
  · rw [← map_value_lastEntry, Option.map_eq_none_iff] at hk
    rw [(hflushed₁ k).lookup_fields, flushedValue, hk]
  · rw [← Finmap.lookup_isSome, (hflushed₁ k).isSome_lookup, flushedIndexed,
      lastEntry_of_delete hk]
    exact Bool.false_ne_true

end

open scoped IsoHdlc

/-- Two keys are set and one is deleted. -/
def mixedEntries : List WalEntry :=
  [.set (.ofText "a") (.primitive (.integer 1)), .set (.ofText "b") (.primitive (.integer 2)),
    .delete (.ofText "k")]

/-- A key has been set and flushed; then two other keys were set, and it was
deleted. -/
def mixedBatch : Database where
  state := ⟨replay oneRecord.fields mixedEntries, oneRecord.index⟩
  wal := ⟨mixedEntries.flatMap walBytes, mixedEntries⟩
  file := oneRecord.bytes
  indexFile := entryBytes (.ofText "k", ⟨114, 1, 9⟩)

/-- The batch is written in the order of the log. -/
def forwards : List (ℕ × Choice) :=
  takeBatch 0 [(.ofText "a", .set (.ofText "a") (.primitive (.integer 1))),
    (.ofText "b", .set (.ofText "b") (.primitive (.integer 2))),
    (.ofText "k", .delete (.ofText "k"))] ++
  sections 0 7 ++ copyIndex 0 [(.ofText "a", ⟨138, 1, 9⟩), (.ofText "b", ⟨162, 1, 9⟩)] ++
    sections 0 4

/-- The batch is written in the opposite order. -/
def backwards : List (ℕ × Choice) :=
  takeBatch 0 [(.ofText "k", .delete (.ofText "k")),
    (.ofText "b", .set (.ofText "b") (.primitive (.integer 2))),
    (.ofText "a", .set (.ofText "a") (.primitive (.integer 1)))] ++
  sections 0 7 ++ copyIndex 0 [(.ofText "b", ⟨138, 1, 9⟩), (.ofText "a", ⟨162, 1, 9⟩)] ++
    sections 0 4

/-- The flush in one order comes to its end. -/
theorem mixedBatch_forwards_runs :
    (drive Task.stepOk anyStep forwards ⟨mixedBatch, [.flush .start]⟩).isSome := by
  decide +kernel

/-- The flush in the other order comes to its end. -/
theorem mixedBatch_backwards_runs :
    (drive Task.stepOk anyStep backwards ⟨mixedBatch, [.flush .start]⟩).isSome := by
  decide +kernel

/-- The data files differ and decode to the same fields. -/
theorem flush_order_independent_mixedBatch :
    let c₁ := ((drive Task.stepOk anyStep forwards _).get mixedBatch_forwards_runs).2
    let c₂ := ((drive Task.stepOk anyStep backwards _).get mixedBatch_backwards_runs).2
    c₁.shared.file ≠ c₂.shared.file ∧ ∃ fields info₁ info₂,
      decodeFile c₁.shared.file = .ok (fields, info₁) ∧
      decodeFile c₂.shared.file = .ok (fields, info₂) := by
  dsimp only
  have hnames : oneRecord.NamesLast mixedBatch.state.index := DataFile.namesLast_index (by decide)
  obtain ⟨df₁, df₂, fields, h₁, h₂, -⟩ := flush_order_independent rfl hnames (by decide)
    (run_get_drive mixedBatch_forwards_runs) (by decide +kernel)
    (run_get_drive mixedBatch_backwards_runs) (by decide +kernel)
  exact ⟨by decide +kernel, fields, df₁.header.info, df₂.header.info, h₁.2, h₂.2⟩

end Db

end PeachDB
