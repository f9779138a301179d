import PeachDB.ServerRecovery

/-!
# A server that dies again and again

One process after another opens the files, serves clients, and dies between
two sections of its connections. The log then holds the writes of all
processes, in the order of the processes, and each process starts with the map
behind the writes of those before it.
-/

namespace PeachDB.Server

open LittleEndian Dtypes RecordCodec FileHandler WriteAheadLog Interleaving Db Protocol
  Linearization

section

variable [Crc] [Texts] {name : String} {base : HashMap Key Field} {disk disk' : Disk}

/-- A process of the server: it has opened the files, serves its clients, and dies
at some time. -/
structure Lifetime [Crc] [Texts] (name : String) where
  /-- The files that it finds. -/
  disk : Disk
  /-- The database that it has opened. -/
  db : Database
  /-- What its clients send. -/
  clients : List (List Bytes × Ending)
  /-- Its database and its connections at every time. -/
  pools : ℕ → Pool Database Connection
  /-- The time at which it dies. -/
  death : ℕ
  /-- It opens the files. -/
  opened : Database.open name disk = .ok db
  /-- It accepts its clients. -/
  started : pools 0 = ⟨db, accepted clients⟩
  /-- It serves them, without a failing command. -/
  served : Behaviour Connection.stepOk anyStep pools

/-- The files that a process leaves. -/
def Lifetime.left (life : Lifetime name) : Disk := (life.pools life.death).shared.disk

/-- The files hold the base and a log. -/
structure Holds [Crc] (base : HashMap Key Field) (log : List WalEntry) (disk : Disk) : Prop where
  /-- The data file stands for the base. -/
  contents : Contents disk.file base
  /-- The index file has not been left beside an empty data file. -/
  readable : disk.file ≠ [] ∨ disk.indexFile = []
  /-- The log file holds the log. -/
  log : ∃ wal, Wal.open disk.wal = .ok wal ∧ wal.entries = log

omit [Texts] in
/-- Opening files that hold a base leaves them so, whatever the log becomes. -/
theorem Holds.of_open {db₀ : Database} {log log' : List WalEntry} {file : Bytes} {wal : Wal}
    (hholds : Holds base log disk) (hopen : Database.open name disk = .ok db₀)
    (hwal : Wal.open file = .ok wal) (hentries : wal.entries = log') :
    Holds base log' ⟨db₀.file, db₀.indexFile, file⟩ := by
  obtain ⟨-, -, df, hfile, hcontents, -⟩ := Db.of_open hopen
  obtain rfl := hholds.contents.unique hcontents
  refine ⟨?_, .inl ?_, wal, hwal, hentries⟩
  · rw [hfile, Contents, if_neg df.bytes_ne_nil]
    exact ⟨_, decodeDbFile_eq_ok_iff.mpr ⟨df, rfl, rfl, rfl⟩⟩
  · rw [hfile]
    exact df.bytes_ne_nil

end

open scoped IsoHdlc LinuxTexts

end PeachDB.Server
