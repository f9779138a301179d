import PeachDB.FileHandler
import PeachDB.UpdateLog

/-!
# The write-ahead log

`WalEncoder`, `WalDecoder` and `wal.rs`. The log file is the concatenation of
the entries appended since the last checkpoint. The decoder accepts exactly
the sequences of whole entries, so that a log cut inside its last entry is
refused with the end-of-file error and never misread.
-/

namespace PeachDB.WriteAheadLog

open LittleEndian Dtypes FileHandler

/-- `WalEntry`. -/
inductive WalEntry
  | set (key : Key) (field : Field)
  | delete (key : Key)
  deriving DecidableEq

namespace WalEntry

/-- The key of an entry. -/
def key : WalEntry → Key
  | set key _ => key
  | delete key => key

/-- What the key reads as after the entry. -/
def value : WalEntry → Option Field
  | set _ field => some field
  | delete _ => none

/-- The entry as an update of a map. -/
def update (e : WalEntry) : Key × Option Field := (e.key, e.value)

/-- Entries whose key and field can be encoded. -/
def Encodable (e : WalEntry) : Prop := e.key.Encodable ∧ ∀ field ∈ e.value, field.Encodable

instance (e : WalEntry) : Decidable e.Encodable :=
  match e with
  | set key field =>
    decidable_of_iff (key.Encodable ∧ field.Encodable) (by simp [Encodable, WalEntry.key, value])
  | delete key => decidable_of_iff key.Encodable (by simp [Encodable, WalEntry.key, value])

end WalEntry

/-- `WalEncoder`. -/
structure WalEncoder where
  /-- What has been encoded. -/
  buffer : Bytes

namespace WalEncoder

/-- `WalEncoder::new`. -/
def new : WalEncoder := ⟨[]⟩

/-- Bytes at the end of the buffer. -/
def write (enc : WalEncoder) (bytes : Bytes) : WalEncoder := ⟨enc.buffer ++ bytes⟩

/-- `encode_set_bytes`. -/
def encodeSetBytes (enc : WalEncoder) : WalEncoder := enc.write [0x1]

/-- `encode_delete_bytes`. -/
def encodeDeleteBytes (enc : WalEncoder) : WalEncoder := enc.write [0x2]

/-- The length is cut to 16 bits. -/
def encodeKey (enc : WalEncoder) (key : Key) : WalEncoder :=
  (enc.write (ofU16 (UInt16.ofNat key.len))).write key.asBytes

/-- The length is cut to 32 bits. -/
def encodeField (enc : WalEncoder) (field : Field) : WalEncoder :=
  let payload := bytesFromField field
  (enc.write (ofU32 (UInt32.ofNat payload.length))).write payload

/-- `encode_wal_entry`. -/
def encodeWalEntry (enc : WalEncoder) : WalEntry → WalEncoder
  | .set key field => (enc.encodeSetBytes.encodeKey key).encodeField field
  | .delete key => enc.encodeDeleteBytes.encodeKey key

/-- `WalEncoder::finish`. -/
def finish (enc : WalEncoder) : Bytes := enc.buffer

end WalEncoder

/-- The bytes that one entry adds to the log. -/
def walBytes (e : WalEntry) : Bytes := (WalEncoder.new.encodeWalEntry e).finish

/-- `WalDecoder`. -/
structure WalDecoder where
  /-- The bytes that are decoded. -/
  cursor : Cursor
  /-- The entries so far. -/
  wal : List WalEntry

namespace WalDecoder

/-- `WalDecoder::new`. -/
def new (bytes : Bytes) : WalDecoder := ⟨⟨bytes, 0⟩, []⟩

/-- `wal_push`. -/
def walPush (d : WalDecoder) (entry : WalEntry) : WalDecoder := { d with wal := d.wal ++ [entry] }

/-- `decode_set_entry`. -/
def decodeSetEntry (d : WalDecoder) : PDBResult WalDecoder := do
  let (keyLen, cursor) ← readExact d.cursor 2
  let (keyBuf, cursor) ← readExact cursor (toU16 keyLen).toNat
  let (fieldLen, cursor) ← readExact cursor 4
  let (fieldBuf, cursor) ← readExact cursor (toU32 fieldLen).toNat
  let (field, _) ← fieldFromBytes fieldBuf
  .ok ({ d with cursor }.walPush (.set ⟨keyBuf⟩ field))

/-- `decode_delete_entry`. -/
def decodeDeleteEntry (d : WalDecoder) : PDBResult WalDecoder := do
  let (keyLen, cursor) ← readExact d.cursor 2
  let (keyBuf, cursor) ← readExact cursor (toU16 keyLen).toNat
  .ok ({ d with cursor }.walPush (.delete ⟨keyBuf⟩))

/-- `decode_wal_entry`. -/
def decodeWalEntry (d : WalDecoder) : PDBResult WalDecoder := do
  let (tag, cursor) ← readExact d.cursor 1
  let d := { d with cursor }
  if tag = [0x1] then d.decodeSetEntry
  else if tag = [0x2] then d.decodeDeleteEntry
  else failWith (.unknownDtype (tag.headD 0))

/-- The condition of the loop: the cursor is not at the end. -/
def more (d : WalDecoder) : Bool := d.cursor.pos < d.cursor.buf.length

/-- `decode_wal_entries`. -/
def decodeWalEntries (d : WalDecoder) : PDBResult WalDecoder :=
  loop more decodeWalEntry (d.cursor.buf.length + 1) d

/-- `WalDecoder::finish`. -/
def finish (d : WalDecoder) : PDBResult (List WalEntry) := .ok d.wal

end WalDecoder

/-- `Wal`: the log file and the entries in memory. -/
structure Wal where
  /-- The `.wal` file. -/
  file : Bytes
  /-- The entries in memory. -/
  entries : List WalEntry
  deriving DecidableEq

/-- `replay`: the entries become those of the file. -/
def Wal.replay (wal : Wal) : PDBResult Wal := do
  let decoder ← (WalDecoder.new wal.file).decodeWalEntries
  let entries ← decoder.finish
  .ok { wal with entries }

/-- `Wal::open` on a file with the given contents. -/
def Wal.open (file : Bytes) : PDBResult Wal := Wal.replay ⟨file, []⟩

namespace Wal

/-- `append_entry`; the entry counts in memory before the file is synced. -/
def appendEntry (ioAppend ioSync : Verdict) (wal : Wal) (entry : WalEntry) :
    PDBResult Unit × Wal :=
  match append ioAppend wal.file (walBytes entry) with
  | (.error e, file) => (.error e, { wal with file })
  | (.ok _, file) => (syncAll ioSync, ⟨file, wal.entries ++ [entry]⟩)

/-- `checkpoint`; the entries in memory are dropped before the file is cut. -/
def checkpoint (ioSetLen ioSync : Verdict) (wal : Wal) : PDBResult Unit × Wal :=
  match setLen ioSetLen wal.file 0 with
  | (.error e, file) => (.error e, ⟨file, []⟩)
  | (.ok _, file) => (syncAll ioSync, ⟨file, []⟩)

/-- `pop_uncommited_entries`: a copy; nothing is removed. -/
def popUncommitedEntries (wal : Wal) : List WalEntry := wal.entries

/-- A log that has room takes an entry. -/
theorem appendEntry_of_fits {wal : Wal} {entry : WalEntry}
    (h : wal.file.length + (walBytes entry).length ≤ maxFileLen) :
    wal.appendEntry .done .done entry =
      (.ok (), ⟨wal.file ++ walBytes entry, wal.entries ++ [entry]⟩) := by
  simp only [appendEntry, append_of_fits h]
  rfl

/-- An entry that was appended counts in memory, whatever the file does. -/
theorem appendEntry_entries {ioAppend ioSync : Verdict} {wal wal' : Wal} {entry : WalEntry}
    (h : wal.appendEntry ioAppend ioSync entry = (.ok (), wal')) :
    wal'.entries = wal.entries ++ [entry] := by
  unfold appendEntry at h
  split at h
  · cases h
  · rw [← (Prod.mk.inj h).2]

/-- An entry that has been appended to a prompt file is there. -/
theorem appendEntry_ok {ioAppend ioSync : Verdict} {wal wal' : Wal} {entry : WalEntry}
    (hio : ioAppend.Prompt) (h : wal.appendEntry ioAppend ioSync entry = (.ok (), wal')) :
    wal' = ⟨wal.file ++ walBytes entry, wal.entries ++ [entry]⟩ := by
  unfold appendEntry at h
  split at h
  · cases h
  · rename_i happend
    obtain ⟨-, -, rfl⟩ := append_ok hio happend
    exact (Prod.mk.inj h).2.symm

/-- An append fails with an error of the file. -/
theorem appendEntry_error {ioAppend ioSync : Verdict} {wal wal' : Wal} {entry : WalEntry}
    {e : Abort} (h : wal.appendEntry ioAppend ioSync entry = (.error e, wal')) :
    ∃ inner, e = .err (mapFileHandlerError inner) := by
  unfold appendEntry at h
  split at h
  · rename_i happend
    cases h
    exact append_error happend
  · exact syncAll_error (Prod.mk.inj h).1

/-- A checkpoint that succeeds leaves an empty log. -/
theorem checkpoint_ok {ioSetLen ioSync : Verdict} {wal wal' : Wal}
    (h : wal.checkpoint ioSetLen ioSync = (.ok (), wal')) : wal' = ⟨[], []⟩ := by
  unfold checkpoint at h
  split at h
  · cases h
  · rename_i hlen
    rw [← (Prod.mk.inj h).2, setLen_zero_ok hlen]

end Wal

/-- A whole entry of a log file. The field bytes of a set entry decode. -/
inductive Frame
  | set (parts : Parts) (value : Field) (used : ℕ)
      (decodes : fieldFromBytes parts.field = .ok (value, used))
  | delete (key : Key) (key_lt : key.Encodable)

namespace Frame

/-- The entry that a frame holds. -/
def entry : Frame → WalEntry
  | set parts value _ _ => .set parts.key value
  | delete key _ => .delete key

/-- The bytes of a frame. -/
def bytes : Frame → Bytes
  | set parts _ _ _ =>
    [0x1] ++ (ofU16 parts.keyLen ++ (parts.key.asBytes ++ (ofU32 parts.fieldLen ++ parts.field)))
  | delete key _ => [0x2] ++ (ofU16 (UInt16.ofNat key.len) ++ key.asBytes)

/-- The frame of an entry that can be encoded. -/
def ofEntry : (e : WalEntry) → e.Encodable → Frame
  | .set key field, h => .set ⟨key, bytesFromField field, h.1, (h.2 field rfl).2⟩ field _
      (fieldFromBytes_bytesFromField (h.2 field rfl))
  | .delete key, h => .delete key h.1

/-- The frame of an entry holds the entry. -/
theorem entry_ofEntry (e : WalEntry) (h : e.Encodable) : (ofEntry e h).entry = e := by
  cases e <;> rfl

/-- The encoder writes whole frames. -/
theorem bytes_ofEntry (e : WalEntry) (h : e.Encodable) : (ofEntry e h).bytes = walBytes e := by
  cases e <;>
    simp [ofEntry, bytes, Parts.keyLen, Parts.fieldLen, walBytes, WalEncoder.finish,
      WalEncoder.encodeWalEntry, WalEncoder.encodeSetBytes, WalEncoder.encodeDeleteBytes,
      WalEncoder.encodeKey, WalEncoder.encodeField, WalEncoder.write, WalEncoder.new]

/-- A log of entries that can be encoded is a sequence of frames. -/
theorem exists_ofEntries {es : List WalEntry} (h : ∀ e ∈ es, e.Encodable) :
    ∃ fs : List Frame, fs.map entry = es ∧ fs.flatMap bytes = es.flatMap walBytes := by
  induction es with
  | nil => exact ⟨[], rfl, rfl⟩
  | cons e es ih =>
    obtain ⟨fs, hentries, hbytes⟩ := ih fun x hx => h x (List.mem_cons_of_mem _ hx)
    have he := h e List.mem_cons_self
    refine ⟨ofEntry e he :: fs, ?_, ?_⟩
    · rw [List.map_cons, entry_ofEntry, hentries]
    · rw [List.flatMap_cons, List.flatMap_cons, bytes_ofEntry, hbytes]

end Frame

namespace WalDecoder

/-- The decoder when a frame has been read. -/
def after (d : WalDecoder) (f : Frame) : WalDecoder :=
  ⟨d.cursor.advance f.bytes.length, d.wal ++ [f.entry]⟩

/-- A key and the bytes of a field are read exactly when they stand whole behind
their lengths. -/
theorem exists_parts_iff {c : Cursor} {P : Bytes → Bytes → Cursor → Prop} :
    (∃ keyLen c₁, readExact c 2 = .ok (keyLen, c₁) ∧
      ∃ key c₂, readExact c₁ (toU16 keyLen).toNat = .ok (key, c₂) ∧
      ∃ fieldLen c₃, readExact c₂ 4 = .ok (fieldLen, c₃) ∧
      ∃ field c₄, readExact c₃ (toU32 fieldLen).toNat = .ok (field, c₄) ∧
      P key field c₄) ↔
      ∃ (p : Parts) (ys : Bytes),
        c.rest = ofU16 p.keyLen ++ (p.key.asBytes ++ (ofU32 p.fieldLen ++ (p.field ++ ys))) ∧
        P p.key.asBytes p.field (c.advance (2 + (p.key.len + (4 + p.field.length)))) := by
  simp only [readExact_eq_ok_iff]
  constructor
  · rintro ⟨keyLen, _, ⟨hkeyLen, rfl, ys₁, h₁⟩, key, _, ⟨hkey, rfl, ys₂, h₂⟩, fieldLen, _,
      ⟨hfieldLen, rfl, ys₃, h₃⟩, field, _, ⟨hfield, rfl, ys₄, h₄⟩, hP⟩
    have r₁ := Cursor.rest_advance_of_append h₁ hkeyLen
    rw [r₁] at h₂
    have r₂ := Cursor.rest_advance_of_append (r₁.trans h₂) hkey
    rw [r₂] at h₃
    have r₃ := Cursor.rest_advance_of_append (r₂.trans h₃) hfieldLen
    rw [r₃] at h₄
    refine ⟨.ofLens (toU16 keyLen) (toU32 fieldLen) key field hkey hfield, ys₄, ?_, ?_⟩
    · simp only [Parts.ofLens, Parts.keyLen, Parts.fieldLen, Key.len, hkey, hfield,
        UInt16.ofNat_toNat, UInt32.ofNat_toNat, ofU16_toU16 hkeyLen, ofU32_toU32 hfieldLen]
      rw [h₁, h₂, h₃, h₄]
    · simpa only [Parts.ofLens, Key.len, hkey, hfield, Cursor.advance_advance, Nat.add_assoc]
        using hP
  · rintro ⟨p, ys, h, hP⟩
    have r₁ := Cursor.rest_advance_of_append h (length_ofU16 _)
    have hkey : p.key.asBytes.length = (toU16 (ofU16 p.keyLen)).toNat := by
      rw [toU16_ofU16, p.toNat_keyLen, Key.len]
    have hfield : p.field.length = (toU32 (ofU32 p.fieldLen)).toNat := by
      rw [toU32_ofU32, p.toNat_fieldLen]
    have r₂ := Cursor.rest_advance_of_append r₁ hkey
    have r₃ := Cursor.rest_advance_of_append r₂ (length_ofU32 _)
    refine ⟨_, _, ⟨length_ofU16 _, rfl, _, h⟩, _, _, ⟨hkey, rfl, _, r₁⟩, _, _,
      ⟨length_ofU32 _, rfl, _, r₂⟩, _, _, ⟨hfield, rfl, _, r₃⟩, ?_⟩
    simpa only [Key.len, hkey, hfield, Cursor.advance_advance, Nat.add_assoc] using hP

/-- An entry is read exactly when the cursor stands before a whole frame. -/
theorem decodeWalEntry_eq_ok_iff {d t : WalDecoder} : d.decodeWalEntry = .ok t ↔
    ∃ (f : Frame) (ys : Bytes), d.cursor.rest = f.bytes ++ ys ∧ t = d.after f := by
  rw [decodeWalEntry]
  simp only [bind_eq_ok_iff, Prod.exists, readExact_eq_ok_iff]
  constructor
  · rintro ⟨tag, _, ⟨htag, rfl, ys₁, h₁⟩, h⟩
    have r₁ := Cursor.rest_advance_of_append h₁ htag
    split at h
    · rename_i hset
      simp only [decodeSetEntry, bind_eq_ok_iff, Prod.exists] at h
      obtain ⟨p, ys, hrest, value, used, hvalue, ht⟩ := exists_parts_iff.mp h
      cases ht
      refine ⟨.set p value used hvalue, ys, ?_, ?_⟩
      · simp only [Frame.bytes, List.append_assoc]
        rw [h₁, hset, ← hrest, r₁]
      · simp only [after, walPush, Frame.bytes, Frame.entry, List.length_append,
          List.length_singleton, length_ofU16, length_ofU32, Key.len, Cursor.advance_advance]
    · split at h
      · rename_i hdelete
        simp only [decodeDeleteEntry, bind_eq_ok_iff, Prod.exists, readExact_eq_ok_iff] at h
        obtain ⟨keyLen, _, ⟨hkeyLen, rfl, ys₂, h₂⟩, key, _, ⟨hkey, rfl, ys₃, h₃⟩, ht⟩ := h
        cases ht
        rw [r₁] at h₂
        have r₂ := Cursor.rest_advance_of_append (r₁.trans h₂) hkeyLen
        rw [r₂] at h₃
        refine ⟨.delete ⟨key⟩ (hkey.trans_lt (toU16 keyLen).toNat_lt), ys₃, ?_, ?_⟩
        · simp only [Frame.bytes, Key.len, hkey, UInt16.ofNat_toNat, ofU16_toU16 hkeyLen,
            List.append_assoc]
          rw [h₁, h₂, h₃, hdelete]
        · simp only [after, walPush, Frame.bytes, Frame.entry, List.length_append,
            List.length_singleton, length_ofU16, hkey, Cursor.advance_advance, Nat.add_assoc]
      · cases h
  · rintro ⟨f, ys, h, rfl⟩
    cases f with
    | set parts value used decodes =>
      simp only [Frame.bytes, List.append_assoc] at h
      have r₁ := Cursor.rest_advance_of_append h (List.length_singleton (a := (0x1 : UInt8)))
      refine ⟨_, _, ⟨List.length_singleton, rfl, _, h⟩, ?_⟩
      rw [if_pos rfl]
      simp only [decodeSetEntry, bind_eq_ok_iff, Prod.exists]
      refine exists_parts_iff.mpr ⟨parts, ys, r₁, value, used, decodes, ?_⟩
      simp only [after, walPush, Frame.bytes, Frame.entry, List.length_append,
        List.length_singleton, length_ofU16, length_ofU32, Key.len, Cursor.advance_advance]
    | delete key key_lt =>
      simp only [Frame.bytes, List.append_assoc] at h
      have r₁ := Cursor.rest_advance_of_append h (List.length_singleton (a := (0x2 : UInt8)))
      have r₂ := Cursor.rest_advance_of_append r₁ (length_ofU16 _)
      have hkey : key.asBytes.length = (toU16 (ofU16 (UInt16.ofNat key.len))).toNat := by
        rw [toU16_ofU16, UInt16.toNat_ofNat_of_lt' key_lt, Key.len]
      refine ⟨_, _, ⟨List.length_singleton, rfl, _, h⟩, ?_⟩
      rw [if_neg (by decide), if_pos rfl]
      simp only [decodeDeleteEntry, bind_eq_ok_iff, Prod.exists, readExact_eq_ok_iff]
      refine ⟨_, _, ⟨length_ofU16 _, rfl, _, r₁⟩, _, _, ⟨hkey, rfl, _, r₂⟩, ?_⟩
      simp only [after, walPush, Frame.bytes, Frame.entry, List.length_append,
        List.length_singleton, length_ofU16, hkey, Cursor.advance_advance, Nat.add_assoc]

/-- The loop reads frames. -/
theorem framed : Framed more decodeWalEntry cursor Frame.bytes after where
  more_iff d := by rw [more, decide_eq_true_iff, Cursor.pos_lt_iff]
  frame_ne_nil f := by cases f <;> exact List.cons_ne_nil _ _
  cursor_after _ _ := rfl
  body_of_rest _ f ys h := decodeWalEntry_eq_ok_iff.mpr ⟨f, ys, h, rfl⟩

/-- The entries are pushed one after another. -/
theorem wal_foldl_after (d : WalDecoder) (fs : List Frame) :
    (fs.foldl after d).wal = d.wal ++ fs.map Frame.entry := by
  induction fs generalizing d with
  | nil => exact (List.append_nil _).symm
  | cons f fs ih => rw [List.foldl_cons, ih, after, List.map_cons, List.append_assoc]; rfl

end WalDecoder

/-- A log file opens exactly when it is a sequence of whole entries. -/
theorem open_eq_ok_iff {file : Bytes} {wal : Wal} : Wal.open file = .ok wal ↔
    ∃ fs : List Frame, file = fs.flatMap Frame.bytes ∧
    wal = ⟨file, fs.map Frame.entry⟩ := by
  have hrest : (WalDecoder.new file).cursor.rest = file := rfl
  have hfuel : (WalDecoder.new file).cursor.rest.length ≤ file.length + 1 := Nat.le_succ _
  rw [Wal.open, Wal.replay, bind_eq_ok_iff]
  constructor
  · rintro ⟨_, hd, h⟩
    cases h
    obtain ⟨fs, hfs, rfl⟩ := WalDecoder.framed.eq_of_loop_eq_ok
      (fun _ _ h => WalDecoder.decodeWalEntry_eq_ok_iff.mp h) hfuel hd
    exact ⟨fs, hfs, by rw [WalDecoder.wal_foldl_after]; rfl⟩
  · rintro ⟨fs, hfs, rfl⟩
    refine ⟨_, WalDecoder.framed.loop_eq_ok hfuel hfs, ?_⟩
    change Except.ok (Wal.mk file (fs.foldl WalDecoder.after (WalDecoder.new file)).wal) = _
    rw [WalDecoder.wal_foldl_after]
    rfl

/-- Opening the log file of encoded entries recovers them. -/
theorem open_flatMap {es : List WalEntry} (h : ∀ e ∈ es, e.Encodable) :
    Wal.open (es.flatMap walBytes) = .ok ⟨es.flatMap walBytes, es⟩ := by
  obtain ⟨fs, hentries, hbytes⟩ := Frame.exists_ofEntries h
  exact open_eq_ok_iff.mpr ⟨fs, hbytes.symm, by rw [hentries]⟩

/-- Appending an entry that can be encoded keeps a log file readable. -/
theorem open_append {wal : Wal} {entry : WalEntry} (h : Wal.open wal.file = .ok wal)
    (hentry : entry.Encodable) :
    Wal.open (wal.file ++ walBytes entry) =
      .ok ⟨wal.file ++ walBytes entry, wal.entries ++ [entry]⟩ := by
  obtain ⟨fs, hfile, hwal⟩ := open_eq_ok_iff.mp h
  refine open_eq_ok_iff.mpr ⟨fs ++ [.ofEntry entry hentry], ?_, ?_⟩
  · rw [List.flatMap_append, List.flatMap_singleton, ← hfile, Frame.bytes_ofEntry]
  · rw [List.map_append, List.map_singleton, Frame.entry_ofEntry, hwal]

namespace WalDecoder

/-- A cut inside the key length or the key ends the read of a key. -/
theorem readKey_of_cut {α : Type} {c : Cursor} {key p ys : Bytes} (hkey : key.length < 2 ^ 16)
    (f : Bytes × Cursor → PDBResult α) (hrest : c.rest = p)
    (hp : p <+: ofU16 (UInt16.ofNat key.length) ++ (key ++ ys)) :
    (do
      let (keyLen, cursor) ← readExact c 2
      let out ← readExact cursor (toU16 keyLen).toNat
      f out) = failWith (.io .unexpectedEof) ∨
      ∃ q, p = ofU16 (UInt16.ofNat key.length) ++ (key ++ q) ∧ q <+: ys ∧
        (c.advance (2 + key.length)).rest = q ∧
        (do
          let (keyLen, cursor) ← readExact c 2
          let out ← readExact cursor (toU16 keyLen).toNat
          f out) = f (key, c.advance (2 + key.length)) := by
  rcases prefix_append_cases hp with hshort | ⟨p₁, rfl, hp₁⟩
  · rw [length_ofU16] at hshort
    rw [readExact_of_short (by rwa [hrest])]
    exact .inl rfl
  have hlen : (toU16 (ofU16 (UInt16.ofNat key.length))).toNat = key.length := by
    rw [toU16_ofU16, UInt16.toNat_ofNat_of_lt' hkey]
  have r₁ := Cursor.rest_advance_of_append hrest (length_ofU16 _)
  have hread₁ := readExact_eq_ok_iff.mpr ⟨length_ofU16 (UInt16.ofNat key.length), rfl, _,
    hrest⟩
  rw [hread₁]
  simp only [ok_bind, hlen]
  rcases prefix_append_cases hp₁ with hshort | ⟨q, rfl, hq⟩
  · rw [readExact_of_short (by rwa [r₁])]
    exact .inl rfl
  · have r₂ := Cursor.rest_advance_of_append r₁ rfl
    rw [Cursor.advance_advance] at r₂
    rw [readExact_eq_ok_iff.mpr ⟨rfl, rfl, _, r₁⟩, Cursor.advance_advance]
    exact .inr ⟨q, rfl, hq, r₂, rfl⟩

/-- A cut inside the field length or the field ends the read of a field. -/
theorem readField_of_cut {α : Type} {c : Cursor} {field p : Bytes} (hfield : field.length < 2 ^ 32)
    (f : Bytes × Cursor → PDBResult α) (hrest : c.rest = p)
    (hp : p <+: ofU32 (UInt32.ofNat field.length) ++ field)
    (hne : p ≠ ofU32 (UInt32.ofNat field.length) ++ field) :
    (do
      let (fieldLen, cursor) ← readExact c 4
      let out ← readExact cursor (toU32 fieldLen).toNat
      f out) = failWith (.io .unexpectedEof) := by
  rcases prefix_append_cases hp with hshort | ⟨q, rfl, hq⟩
  · rw [length_ofU32] at hshort
    rw [readExact_of_short (by rwa [hrest])]
    rfl
  have hlen : (toU32 (ofU32 (UInt32.ofNat field.length))).toNat = field.length := by
    rw [toU32_ofU32, UInt32.toNat_ofNat_of_lt' hfield]
  have r₁ := Cursor.rest_advance_of_append hrest (length_ofU32 _)
  have hread := readExact_eq_ok_iff.mpr ⟨length_ofU32 (UInt32.ofNat field.length), rfl, _,
    hrest⟩
  have hshort : q.length < field.length := by
    refine lt_of_le_of_ne hq.length_le fun heq => hne ?_
    rw [hq.eq_of_length heq]
  rw [hread]
  simp only [ok_bind, hlen]
  rw [readExact_of_short (by rwa [r₁])]
  rfl

/-- The decoder meets the end of the file inside every entry that is cut. -/
theorem decodeWalEntry_of_cut {d : WalDecoder} {f : Frame} {p : Bytes} (hrest : d.cursor.rest = p)
    (hp : p <+: f.bytes) (hne : p ≠ f.bytes) (hnil : p ≠ []) :
    d.decodeWalEntry = failWith (.io .unexpectedEof) := by
  cases f with
  | set parts value used decodes =>
    rcases prefix_append_cases hp with hshort | ⟨p₁, rfl, hp₁⟩
    · rw [List.length_singleton] at hshort
      exact absurd (List.length_eq_zero_iff.mp (Nat.lt_one_iff.mp hshort)) hnil
    have r₁ := Cursor.rest_advance_of_append hrest (List.length_singleton (a := (0x1 : UInt8)))
    have hset : d.decodeWalEntry = { d with cursor := d.cursor.advance 1 }.decodeSetEntry := by
      rw [decodeWalEntry, readExact_eq_ok_iff.mpr ⟨List.length_singleton, rfl, _, hrest⟩]
      rfl
    rw [hset, decodeSetEntry]
    rcases readKey_of_cut parts.key_lt _ r₁ hp₁ with hshort | ⟨q, rfl, hq, r₂, heq⟩
    · exact hshort
    · refine heq.trans (readField_of_cut parts.field_lt _ r₂ hq fun h => hne ?_)
      rw [h]
      rfl
  | delete key key_lt =>
    rcases prefix_append_cases hp with hshort | ⟨p₁, rfl, hp₁⟩
    · rw [List.length_singleton] at hshort
      exact absurd (List.length_eq_zero_iff.mp (Nat.lt_one_iff.mp hshort)) hnil
    have r₁ := Cursor.rest_advance_of_append hrest (List.length_singleton (a := (0x2 : UInt8)))
    have hdelete :
        d.decodeWalEntry = { d with cursor := d.cursor.advance 1 }.decodeDeleteEntry := by
      rw [decodeWalEntry, readExact_eq_ok_iff.mpr ⟨List.length_singleton, rfl, _, hrest⟩]
      rfl
    rw [hdelete, decodeDeleteEntry]
    have hp₁' : p₁ <+: ofU16 (UInt16.ofNat key.asBytes.length) ++ (key.asBytes ++ []) := by
      rwa [List.append_nil]
    rcases readKey_of_cut key_lt _ r₁ hp₁' with hshort | ⟨q, rfl, hq, -, -⟩
    · exact hshort
    · refine absurd ?_ hne
      rw [List.prefix_nil.mp hq, List.append_nil]
      rfl

end WalDecoder

/-- A part of an entry that can be encoded is refused behind whole frames. -/
theorem open_torn_frames {fs : List Frame} {e : WalEntry} {p : Bytes} (he : e.Encodable)
    (hp : p <+: walBytes e) (hne : p ≠ walBytes e) (hnil : p ≠ []) :
    Wal.open (fs.flatMap Frame.bytes ++ p) = failWith (.io .unexpectedEof) := by
  rw [← Frame.bytes_ofEntry e he] at hp hne
  have hrest : (WalDecoder.new (fs.flatMap Frame.bytes ++ p)).cursor.rest =
      fs.flatMap Frame.bytes ++ p := rfl
  have hafter := (WalDecoder.framed.rounds 0 hrest).2
  have hfuel : (WalDecoder.new (fs.flatMap Frame.bytes ++ p)).cursor.rest.length ≤
      (fs.flatMap Frame.bytes ++ p).length + 1 :=
    Nat.le_succ_of_le ((Cursor.length_rest _).le.trans (Nat.sub_le _ _))
  have hloop := WalDecoder.framed.loop_eq_error hfuel hrest hnil
    (WalDecoder.decodeWalEntry_of_cut hafter hp hne hnil)
  rw [Wal.open, Wal.replay, WalDecoder.decodeWalEntries]
  exact congrArg (· >>= fun decoder => decoder.finish >>= fun entries =>
    (Except.ok ⟨fs.flatMap Frame.bytes ++ p, entries⟩ : PDBResult Wal)) hloop

/-- A log that ends in a part of an entry is refused; the entries before it
are recovered only when nothing of the next one was written. -/
theorem open_torn {es : List WalEntry} {e : WalEntry} {p : Bytes} (hes : ∀ x ∈ es, x.Encodable)
    (he : e.Encodable) (hp : p <+: walBytes e) (hne : p ≠ walBytes e) :
    Wal.open (es.flatMap walBytes ++ p) =
      if p = [] then .ok ⟨es.flatMap walBytes, es⟩ else failWith (.io .unexpectedEof) := by
  split
  · rename_i hnil
    rw [hnil, List.append_nil, open_flatMap hes]
  · rename_i hnil
    obtain ⟨fs, -, hbytes⟩ := Frame.exists_ofEntries hes
    rw [← hbytes]
    exact open_torn_frames he hp hne hnil

/-- One set entry, followed by the first byte of a delete entry. -/
theorem open_torn_tag :
    let entry := WalEntry.set (.ofText "a") (.primitive (.integer 1))
    Wal.open ([entry].flatMap walBytes ++ [0x2]) =
      if ([0x2] : Bytes) = [] then .ok ⟨[entry].flatMap walBytes, [entry]⟩
      else failWith (.io .unexpectedEof) := by
  intro entry
  have hes : ∀ x ∈ [entry], x.Encodable := by decide
  have he : (WalEntry.delete (.ofText "b")).Encodable := by decide
  exact open_torn hes he (by decide) (by decide)

/-- There the log is refused, although one entry in it is whole. -/
theorem open_torn_refused :
    let entry := WalEntry.set (.ofText "a") (.primitive (.integer 1))
    let torn := WalEntry.delete (.ofText "b")
    entry.Encodable ∧ torn.Encodable ∧ [0x2] <+: walBytes torn ∧ [0x2] ≠ walBytes torn ∧
      ¬ ∃ wal, Wal.open ([entry].flatMap walBytes ++ [0x2]) = .ok wal ∧
      wal.entries = [entry] := by
  refine ⟨by decide, by decide, by decide, by decide, ?_⟩
  rintro ⟨wal, hopen, -⟩
  have herror : Wal.open ([WalEntry.set (.ofText "a") (.primitive (.integer 1))].flatMap walBytes ++
      [0x2]) = failWith (.io .unexpectedEof) := by decide
  rw [herror] at hopen
  cases hopen

end PeachDB.WriteAheadLog
