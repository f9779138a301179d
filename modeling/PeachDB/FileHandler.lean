import PeachDB.Dtypes

/-!
# File commands

The commands of `file.rs`. A command acts on the contents of one file. The file
itself is a `tokio::fs::File`, which is not part of the program: what it does
with a command is a parameter, the verdict on the command. A write that the
system refuses may be reported by itself or by a later command only; the
hypothesis that files are prompt excludes the latter. A file cannot grow past
the largest signed 64-bit offset.
-/

namespace PeachDB.FileHandler

open Dtypes

/-- What the file does with a command. -/
inductive Verdict
  /-- The system is asked, and refuses only what would grow too large. -/
  | done
  /-- The command returns an error; a write gets so many bytes into the file
  before. The system may have refused an earlier write. -/
  | failed (written : ℕ)
  /-- A write returns `Ok`, because the file has only taken over its bytes. The
  system refuses them behind so many. The error is left to a later command. -/
  | deferred (written : ℕ)
  deriving DecidableEq

/-- A prompt file: when the system refuses a command, the command says so. -/
def Verdict.Prompt : Verdict → Prop
  | .done => True
  | .failed _ => True
  | .deferred _ => False

instance : DecidablePred Verdict.Prompt
  | .done => isTrue trivial
  | .failed _ => isTrue trivial
  | .deferred _ => isFalse id

/-- The largest length of a file. -/
def maxFileLen : ℕ := 2 ^ 63 - 1

/-- `map_file_handler_error`. -/
def mapFileHandlerError (e : IoError) : PeachDbError := .io (.other e)

/-- `seek` to `pos` and `write_all`. -/
def writeAll (io : Verdict) (file : Bytes) (pos : ℕ) (data : Bytes) : PDBResult Unit × Bytes :=
  match io with
  | .failed written =>
    (failWith (mapFileHandlerError .device), overwrite file pos (data.take written))
  | .deferred written => (.ok (), overwrite file pos (data.take written))
  | .done =>
    if maxFileLen < pos + data.length then
      (failWith (mapFileHandlerError .fileTooLarge),
        overwrite file pos (data.take (maxFileLen - pos)))
    else (.ok (), overwrite file pos data)

/-- `FileCmd::WriteAt`. -/
def writeAt (io : Verdict) (file : Bytes) (pos : UInt64) (data : Bytes) : PDBResult Unit × Bytes :=
  writeAll io file pos.toNat data

/-- `FileCmd::Append`: the position of the first new byte is returned. -/
def append (io : Verdict) (file data : Bytes) : PDBResult UInt64 × Bytes :=
  let out := writeAll io file file.length data
  (out.1.map fun _ => UInt64.ofNat file.length, out.2)

/-- `FileCmd::SetLen`; its own refusal is always reported. -/
def setLen (io : Verdict) (file : Bytes) (len : ℕ) : PDBResult Unit × Bytes :=
  match io with
  | .done => (.ok (), file.take len ++ List.replicate (len - file.length) 0)
  | .failed _ | .deferred _ => (failWith (mapFileHandlerError .device), file)

/-- `FileCmd::SyncAll`; its own refusal is always reported. `Ok` says nothing
about the writes before it. -/
def syncAll (io : Verdict) : PDBResult Unit :=
  match io with
  | .done => .ok ()
  | .failed _ | .deferred _ => failWith (mapFileHandlerError .device)

/-- A completed write to a prompt file has written everything. -/
theorem writeAll_ok {io : Verdict} {file file' data : Bytes} {pos : ℕ} (hio : io.Prompt)
    (h : writeAll io file pos data = (.ok (), file')) :
    pos + data.length ≤ maxFileLen ∧ file' = overwrite file pos data := by
  cases io with
  | failed written => cases h
  | deferred written => exact hio.elim
  | done =>
    simp only [writeAll] at h
    split at h
    · cases h
    · cases h
      exact ⟨by omega, rfl⟩

/-- A prompt write that returns `Ok` has been made. -/
theorem writeAt_ok {io : Verdict} {file file' data : Bytes} {pos : UInt64} (hio : io.Prompt)
    (h : writeAt io file pos data = (.ok (), file')) : file' = overwrite file pos.toNat data :=
  (writeAll_ok hio h).2

/-- A completed append to a prompt file returns the old length, which fits an
offset. -/
theorem append_ok {io : Verdict} {file file' data : Bytes} {pos : UInt64} (hio : io.Prompt)
    (h : append io file data = (.ok pos, file')) :
    file.length ≤ maxFileLen ∧ pos = UInt64.ofNat file.length ∧ file' = file ++ data := by
  obtain ⟨hpos, hfile⟩ := Prod.mk.inj h
  cases hw : (writeAll io file file.length data).1 with
  | error e =>
    rw [hw] at hpos
    cases hpos
  | ok u =>
    rw [hw] at hpos
    cases hpos
    obtain ⟨hfits, hout⟩ := writeAll_ok hio (Prod.ext hw hfile)
    refine ⟨by omega, rfl, ?_⟩
    rw [hout, overwrite_length]

/-- An append to a file that has room succeeds, unless the system refuses it. -/
theorem append_of_fits {file data : Bytes} (h : file.length + data.length ≤ maxFileLen) :
    append .done file data = (.ok (UInt64.ofNat file.length), file ++ data) := by
  have hwrite : writeAll .done file file.length data = (.ok (), file ++ data) := by
    rw [writeAll, if_neg (Nat.not_lt.mpr h), overwrite_length]
  simp only [append, hwrite]
  rfl

/-- A file that has been truncated is empty. -/
theorem setLen_zero_ok {io : Verdict} {file file' : Bytes}
    (h : setLen io file 0 = (.ok (), file')) :
    file' = [] := by
  cases io with
  | failed written => cases h
  | deferred written => cases h
  | done =>
    cases h
    simp

/-- A write that fails returns a fault of the system, wrapped. -/
theorem writeAll_error {io : Verdict} {file file' data : Bytes} {pos : ℕ} {e : Abort}
    (h : writeAll io file pos data = (.error e, file')) :
    ∃ inner, e = .err (mapFileHandlerError inner) := by
  cases io with
  | failed written =>
    cases h
    exact ⟨_, rfl⟩
  | deferred written => cases h
  | done =>
    simp only [writeAll] at h
    split at h
    · cases h
      exact ⟨_, rfl⟩
    · cases h

/-- An append fails with an error of the file. -/
theorem append_error {io : Verdict} {file file' data : Bytes} {e : Abort}
    (h : append io file data = (.error e, file')) :
    ∃ inner, e = .err (mapFileHandlerError inner) := by
  obtain ⟨hresult, hfile⟩ := Prod.mk.inj h
  cases hw : (writeAll io file file.length data).1 with
  | error e' =>
    rw [hw] at hresult
    cases hresult
    exact writeAll_error (Prod.ext hw hfile)
  | ok u =>
    rw [hw] at hresult
    cases hresult

/-- A sync fails with an error of the file. -/
theorem syncAll_error {io : Verdict} {e : Abort} (h : syncAll io = .error e) :
    ∃ inner, e = .err (mapFileHandlerError inner) := by
  cases io with
  | failed written =>
    cases h
    exact ⟨_, rfl⟩
  | deferred written =>
    cases h
    exact ⟨_, rfl⟩
  | done => cases h

end PeachDB.FileHandler
