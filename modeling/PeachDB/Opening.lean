import PeachDB.DatabaseSteps

/-!
# Opening a database

What `Database::open` makes of the three files. On a data file with records it
decodes the file, replays the log over it and takes the index from the index
file or from a scan. On an empty data file it starts with no fields at all,
whatever the log holds.
-/

namespace PeachDB.Db

open LittleEndian Dtypes RecordCodec IndexCodec FileHandler WriteAheadLog Interleaving

/-- What `get` answers over a map. -/
def readOf (fields : HashMap Key Field) (k : Key) : PDBResult Field :=
  (fields.lookup k).elim (failWith .keyNotFound) .ok

/-- `get` reads the fields. -/
theorem get_eq (db : Database) (k : Key) : db.get k = readOf db.state.fields k := by
  rw [Database.get, readOf]
  cases db.state.fields.lookup k <;> rfl

/-- Maps answer alike exactly on the keys that they hold alike. -/
theorem readOf_eq_iff {m m' : HashMap Key Field} {k : Key} :
    readOf m k = readOf m' k ↔ m.lookup k = m'.lookup k := by
  constructor
  · intro h
    cases hm : m.lookup k <;> cases hm' : m'.lookup k <;> simp_all [readOf]
  · intro h
    rw [readOf, readOf, h]

section

variable [Crc]

/-- The fields that the data file of a database stands for: none when it is
empty, those that the decoder returns otherwise. -/
def Contents (file : Bytes) (fields : HashMap Key Field) : Prop :=
  if file = [] then fields = ∅
  else ∃ info, (do let d ← (DBDecoder.new file).decodeDbFile; d.finish) = .ok (fields, info)

/-- A data file stands for one map. -/
theorem Contents.unique {file : Bytes} {m m' : HashMap Key Field} (h : Contents file m)
    (h' : Contents file m') : m = m' := by
  unfold Contents at h h'
  split at h
  · rename_i hfile
    rw [if_pos hfile] at h'
    rw [h, h']
  · rename_i hfile
    rw [if_neg hfile] at h'
    obtain ⟨info, hdecode⟩ := h
    obtain ⟨info', hdecode'⟩ := h'
    rw [hdecode] at hdecode'
    cases hdecode'
    rfl

/-- Opening refuses a long name and then the log. -/
theorem databaseOpen_eq_ok_iff {name : String} {disk : Disk} {db : Database} :
    Database.open name disk = .ok db ↔ (stringBytes name).length ≤ 64 ∧
      ∃ wal, Wal.open disk.wal = .ok wal ∧
      (if disk.file = [] then .ok (Database.new name disk.indexFile wal)
        else Database.init disk.file disk.indexFile wal) = .ok db := by
  rw [Database.open]
  split
  · rename_i hname
    simp only [reduceCtorEq, false_iff, not_and]
    intro hle
    omega
  · rename_i hname
    simp only [bind_eq_ok_iff, not_lt.mp hname, true_and]

/-- Opening takes the path of `Database::new` exactly on an empty data file. -/
theorem open_eq_ok_iff_new {name : String} {disk : Disk} {db : Database} (hfile : disk.file = []) :
    Database.open name disk = .ok db ↔ (stringBytes name).length ≤ 64 ∧
      ∃ wal, Wal.open disk.wal = .ok wal ∧ db = Database.new name disk.indexFile wal := by
  simp only [databaseOpen_eq_ok_iff, if_pos hfile, Except.ok.injEq, eq_comm (b := db)]

/-- Opening takes the path of `Database::init` on every other one. -/
theorem open_eq_ok_iff_init {name : String} {disk : Disk} {db : Database}
    (hfile : disk.file ≠ []) :
    Database.open name disk = .ok db ↔ (stringBytes name).length ≤ 64 ∧
      ∃ wal, Wal.open disk.wal = .ok wal ∧
        ∃ fields info, (do let d ← (DBDecoder.new disk.file).decodeDbFile; d.finish) =
          .ok (fields, info) ∧
        ∃ index, Database.initIndex disk.file disk.indexFile = .ok index ∧
          db = ⟨⟨replay fields wal.entries, index⟩, wal, disk.file, disk.indexFile⟩ := by
  simp only [databaseOpen_eq_ok_iff, if_neg hfile, bind_eq_ok_iff, Database.init, Prod.exists,
    Except.ok.injEq, eq_comm (b := db)]
  rfl

/-- Opening a data file with records replays the log over its map. -/
theorem open_bytes {name : String} {df : DataFile} {indexFile walFile : Bytes} {wal : Wal}
    {index : HashMap Key IndexEntry} (hname : (stringBytes name).length ≤ 64)
    (hwal : Wal.open walFile = .ok wal)
    (hindex : Database.initIndex df.bytes indexFile = .ok index) :
    Database.open name ⟨df.bytes, indexFile, walFile⟩ =
      .ok ⟨⟨replay df.fields wal.entries, index⟩, wal, df.bytes, indexFile⟩ :=
  (open_eq_ok_iff_init df.bytes_ne_nil).mpr ⟨hname, wal, hwal, _, _,
    decodeDbFile_eq_ok_iff.mpr ⟨df, rfl, rfl, rfl⟩, index, hindex, rfl⟩

omit [Crc] in
/-- Replay over the empty map leaves nothing exactly when no key is set last. -/
theorem replay_empty_eq_empty_iff (entries : List WalEntry) :
    replay ∅ entries = ∅ ↔ ∀ k field, lastValue k entries ≠ some (some field) := by
  constructor
  · intro h k field hset
    have hk := lookup_replay ∅ entries k
    rw [h, hset, Finmap.lookup_empty] at hk
    cases hk
  · intro h
    apply Finmap.ext_lookup
    intro k
    rw [lookup_replay, Finmap.lookup_empty]
    cases hk : lastValue k entries with
    | none => rfl
    | some value =>
      cases value with
      | none => rfl
      | some field => exact absurd hk (h k field)

/-- An opened database answers from the replayed log exactly when its data
file was not empty or the log leaves no key set. -/
theorem open_get_eq_replay_iff {name : String} {disk : Disk} {db : Database} {es : List WalEntry}
    {fields : HashMap Key Field} (hwal : Wal.open disk.wal = .ok ⟨disk.wal, es⟩)
    (hfields : Contents disk.file fields) (hopen : Database.open name disk = .ok db) :
    (∀ k, db.get k = readOf (replay fields es) k) ↔
      disk.file ≠ [] ∨ ∀ k field, lastValue k es ≠ some (some field) := by
  by_cases hfile : disk.file = []
  · rw [Contents, if_pos hfile] at hfields
    obtain ⟨-, wal, -, rfl⟩ := (open_eq_ok_iff_new hfile).mp hopen
    rw [← replay_empty_eq_empty_iff, hfields]
    simp only [get_eq, readOf_eq_iff, Database.new, hfile, ne_eq, not_true_eq_false, false_or]
    constructor
    · intro h
      apply Finmap.ext_lookup
      exact fun k => (h k).symm
    · intro h k
      rw [h]
  · rw [Contents, if_neg hfile] at hfields
    obtain ⟨info, hdecode⟩ := hfields
    obtain ⟨-, wal, hwal', _, _, hdecode', index, -, rfl⟩ := (open_eq_ok_iff_init hfile).mp hopen
    rw [hwal] at hwal'
    rw [hdecode] at hdecode'
    cases hwal'
    cases hdecode'
    simp only [get_eq, hfile, ne_eq, not_false_eq_true, true_or, implies_true]

/-- The data file that `Database::new` writes: a header and no records. -/
def emptyFile (name : String) : DataFile := ⟨.ofMeta ⟨1, 0, name⟩, []⟩

/-- A new database writes a header. -/
theorem new_file (name : String) (indexFile : Bytes) (wal : Wal) :
    (Database.new name indexFile wal).file = (emptyFile name).bytes := by
  rw [DataFile.bytes, emptyFile, Header.bytes_ofMeta, List.flatMap_nil, List.append_nil]
  rfl

/-- What an opened database has in its files. -/
theorem of_open {name : String} {disk : Disk} {db : Database}
    (hopen : Database.open name disk = .ok db) :
    db.indexFile = disk.indexFile ∧ Wal.open db.wal.file = .ok db.wal ∧
      ∃ df : DataFile, db.file = df.bytes ∧ Contents disk.file df.fields ∧
        if disk.file = [] then df = emptyFile name ∧ db.state = ⟨∅, ∅⟩
        else db.state.fields = replay df.fields db.wal.entries ∧
          Database.initIndex db.file db.indexFile = .ok db.state.index := by
  have hwalFile : ∀ {file wal}, Wal.open file = .ok wal → Wal.open wal.file = .ok wal := by
    intro file wal h
    obtain ⟨fs, rfl, rfl⟩ := open_eq_ok_iff.mp h
    exact h
  by_cases hfile : disk.file = []
  · obtain ⟨-, wal, hwal, rfl⟩ := (open_eq_ok_iff_new hfile).mp hopen
    refine ⟨rfl, hwalFile hwal, emptyFile name, new_file _ _ _, ?_, ?_⟩
    · rw [Contents, if_pos hfile]
      rfl
    · rw [if_pos hfile]
      exact ⟨rfl, rfl⟩
  · obtain ⟨-, wal, hwal, fields, info, hdecode, index, hindex, rfl⟩ :=
      (open_eq_ok_iff_init hfile).mp hopen
    obtain ⟨df, hbytes, rfl, -⟩ := decodeDbFile_eq_ok_iff.mp hdecode
    refine ⟨rfl, hwalFile hwal, df, hbytes, ?_, ?_⟩
    · rw [Contents, if_neg hfile]
      exact ⟨info, hdecode⟩
    · rw [if_neg hfile]
      exact ⟨rfl, hindex⟩

/-- An opened database has the replayed log over the contents of its data file,
unless it has forgotten the log. -/
theorem fields_of_open {name : String} {disk : Disk} {db : Database} {base : HashMap Key Field}
    (hopen : Database.open name disk = .ok db) (hbase : Contents disk.file base)
    (hlog : disk.file ≠ [] ∨ ∀ k field, lastValue k db.wal.entries ≠ some (some field)) :
    db.state.fields = replay base db.wal.entries := by
  obtain ⟨-, -, df, -, hcontents, hstate⟩ := of_open hopen
  obtain rfl := hbase.unique hcontents
  by_cases hempty : disk.file = []
  · rw [if_pos hempty] at hstate
    obtain ⟨rfl, hdb⟩ := hstate
    rw [hdb]
    exact ((replay_empty_eq_empty_iff _).mpr (hlog.resolve_left fun h => h hempty)).symm
  · rw [if_neg hempty] at hstate
    exact hstate.1

/-- What is opened has the fields of a data file with the log replayed. -/
theorem dataFile_of_open {name : String} {disk : Disk} {db : Database} {wal : Wal}
    (hfile : disk.file ≠ []) (hwal : Wal.open disk.wal = .ok wal)
    (hopen : Database.open name disk = .ok db) :
    ∃ df : DataFile, disk.file = df.bytes ∧ db.state.fields = replay df.fields wal.entries := by
  obtain ⟨-, wal', hwal', fields, info, hdecode, index, -, rfl⟩ :=
    (open_eq_ok_iff_init hfile).mp hopen
  rw [hwal] at hwal'
  cases hwal'
  obtain ⟨df, hbytes, rfl, -⟩ := decodeDbFile_eq_ok_iff.mp hdecode
  exact ⟨df, hbytes, rfl⟩

/-- Opening the files of an opened database again gives the replay of the log
that is there. -/
theorem fields_of_reopen {name : String} {disk : Disk} {db₀ db : Database}
    {base : HashMap Key Field} {file : Bytes} {wal : Wal}
    (hopen : Database.open name disk = .ok db₀) (hbase : Contents disk.file base)
    (hwal : Wal.open file = .ok wal)
    (hagain : Database.open name ⟨db₀.file, db₀.indexFile, file⟩ = .ok db) :
    db.state.fields = replay base wal.entries := by
  obtain ⟨-, -, df, hfile, hcontents, -⟩ := of_open hopen
  obtain rfl := hbase.unique hcontents
  rw [hfile] at hagain
  obtain ⟨df', hbytes, hfields⟩ := dataFile_of_open df.bytes_ne_nil hwal hagain
  have hdf := decodeDbFile_eq_ok_iff.mpr ⟨df, rfl, rfl, rfl⟩
  rw [decodeDbFile_eq_ok_iff.mpr ⟨df', hbytes, rfl, rfl⟩] at hdf
  rw [hfields, show df'.fields = df.fields from congrArg Prod.fst (Except.ok.inj hdf)]

/-- The files of an opened database can be opened again behind any log that
can be replayed. -/
theorem reopens_behind {name : String} {disk : Disk} {db₀ : Database} {base : HashMap Key Field}
    {file : Bytes} {wal : Wal} (hopen : Database.open name disk = .ok db₀)
    (hbase : Contents disk.file base) (hindex : disk.file ≠ [] ∨ disk.indexFile = [])
    (hwal : Wal.open file = .ok wal) :
    ∃ db, Database.open name ⟨db₀.file, db₀.indexFile, file⟩ = .ok db ∧
      db.state.fields = replay base wal.entries := by
  obtain ⟨hindexFile₀, -, df, hfile₀, hcontents, hstate⟩ := of_open hopen
  obtain rfl := hbase.unique hcontents
  have hname : (stringBytes name).length ≤ 64 := (databaseOpen_eq_ok_iff.mp hopen).1
  have hinit : ∃ index, Database.initIndex df.bytes disk.indexFile = .ok index := by
    by_cases hempty : disk.file = []
    · rw [if_pos hempty] at hstate
      obtain ⟨rfl, -⟩ := hstate
      rw [hindex.resolve_left fun hne => hne hempty]
      exact ⟨_, decodeIndexFromFile_bytes
        (by simp [DataFile.live, DataFile.slots, emptyFile, slotsFrom])⟩
    · rw [if_neg hempty, hfile₀, hindexFile₀] at hstate
      exact ⟨_, hstate.2⟩
  obtain ⟨index, hinit⟩ := hinit
  refine ⟨⟨⟨replay df.fields wal.entries, index⟩, wal, df.bytes, disk.indexFile⟩, ?_, rfl⟩
  rw [hfile₀, hindexFile₀]
  exact open_bytes hname hwal hinit

end

open scoped IsoHdlc

/-- A log with one set entry over an empty data file. -/
theorem open_get_eq_replay_iff_empty_file :
    let entry := WalEntry.set (.ofText "k") (.primitive (.integer 1))
    (∀ k, (Database.new "db" [] ⟨walBytes entry, [entry]⟩).get k = readOf (replay ∅ [entry])
      k) ↔
      ([] : Bytes) ≠ [] ∨ ∀ k field, lastValue k [entry] ≠ some (some field) := by
  intro entry
  have hwal : Wal.open (walBytes entry) = .ok ⟨walBytes entry, [entry]⟩ := rfl
  have hfields : Contents [] ∅ := rfl
  have hopen : Database.open "db" ⟨[], [], walBytes entry⟩ =
      .ok (Database.new "db" [] ⟨walBytes entry, [entry]⟩) := rfl
  exact open_get_eq_replay_iff hwal hfields hopen

/-- There the key of the log cannot be found. -/
theorem open_empty_file_forgets_log :
    let entry := WalEntry.set (.ofText "k") (.primitive (.integer 1))
    Wal.open (walBytes entry) = .ok ⟨walBytes entry, [entry]⟩ ∧ Contents [] ∅ ∧
      ∃ db, Database.open "db" ⟨[], [], walBytes entry⟩ = .ok db ∧
        db.get (.ofText "k") ≠ readOf (replay ∅ [entry]) (.ofText "k") :=
  ⟨rfl, rfl, _, rfl, by decide⟩

end PeachDB.Db
