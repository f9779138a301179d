import PeachDB.WriteAheadLog

/-!
# Whole logs and their cuts

Entries are delimited by their length fields alone. What has been appended is
read back as it was written, and a log that is cut anywhere is refused or read
as the entries that are whole in it; no cut makes an entry that was not
written.
-/

namespace PeachDB.WriteAheadLog

open Dtypes

/-- `decode_wal_entries` and `finish` on the contents of a log file. -/
def decodeLog (file : Bytes) : PDBResult (List WalEntry) := do
  let decoder ← (WalDecoder.new file).decodeWalEntries
  decoder.finish

/-- Opening the log decodes the whole file. -/
theorem open_eq_decodeLog (file : Bytes) : Wal.open file = (decodeLog file).map (Wal.mk file) := by
  rw [decodeLog, Wal.open, Wal.replay]
  cases (WalDecoder.new file).decodeWalEntries <;> rfl

/-- A log that can be opened is decoded. -/
theorem decodeLog_of_open {file : Bytes} {wal : Wal} (h : Wal.open file = .ok wal) :
    decodeLog file = .ok wal.entries := by
  rw [open_eq_decodeLog] at h
  cases hdecode : decodeLog file with
  | error e =>
    rw [hdecode] at h
    cases h
  | ok entries =>
    rw [hdecode] at h
    cases h
    rfl

/-- A log that cannot be opened is not decoded. -/
theorem decodeLog_of_open_error {file : Bytes} {e : Abort} (h : Wal.open file = .error e) :
    decodeLog file = .error e := by
  rw [open_eq_decodeLog] at h
  cases hdecode : decodeLog file with
  | error e' =>
    rw [hdecode] at h
    cases h
    rfl
  | ok entries =>
    rw [hdecode] at h
    cases h

/-- A log of entries that can be encoded is read back whole, and each prefix of
it is refused or read back as a prefix of the entries. -/
theorem log_round_trip (es : List WalEntry) (hes : ∀ e ∈ es, e.Encodable) :
    decodeLog (es.flatMap walBytes) = .ok es ∧
      ∀ p, p <+: es.flatMap walBytes →
        decodeLog p = failWith (.io .unexpectedEof) ∨
          ∃ entries, decodeLog p = .ok entries ∧ entries <+: es := by
  refine ⟨decodeLog_of_open (open_flatMap hes), ?_⟩
  intro p hp
  rcases prefix_flatMap_cases hp with ⟨ys, hys, rfl⟩ | ⟨ys, y, q, hys, rfl, hq, hne, hnil⟩
  · have hall : ∀ e ∈ ys, e.Encodable := fun e he => hes e (hys.subset he)
    exact .inr ⟨ys, decodeLog_of_open (open_flatMap hall), hys⟩
  · have hall : ∀ e ∈ ys ++ [y], e.Encodable := fun e he => hes e (hys.subset he)
    have hwhole : ∀ e ∈ ys, e.Encodable := fun e he => hall e (List.mem_append_left _ he)
    have htorn := open_torn hwhole (hall y (by simp)) hq hne
    rw [if_neg hnil] at htorn
    exact .inl (decodeLog_of_open_error htorn)

/-- A set and a delete entry, and the log cut inside the second one. -/
theorem log_round_trip_cut :
    let es := [WalEntry.set (.ofText "a") (.primitive (.float 0x7FF8000000000001)),
      .delete (.ofText "b")]
    decodeLog (es.flatMap walBytes) = .ok es ∧
      (decodeLog ((es.flatMap walBytes).take 18) = failWith (.io .unexpectedEof) ∨
        ∃ entries, decodeLog ((es.flatMap walBytes).take 18) = .ok entries ∧
        entries <+: es) := by
  intro es
  have hes : ∀ e ∈ es, e.Encodable := by decide +kernel
  have hround := log_round_trip es hes
  exact ⟨hround.1, hround.2 _ (List.take_prefix 18 _)⟩

end PeachDB.WriteAheadLog
