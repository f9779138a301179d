import PeachDB.DataFileSteps

/-!
# Writes that are cut short

Only the first bytes of a write are in the file. A data file is readable again
when none or all of a record are at its end, and when none or the magic word of
a tombstone has been written over a live record. A section of a flush that fails
leaves one such write behind.
-/

namespace PeachDB

open LittleEndian Dtypes RecordCodec IndexCodec FileHandler WriteAheadLog

/-- Old bytes after the first `n` of as many new ones are written over them. -/
def halfWritten (n : ℕ) (new old : Bytes) : Bytes := new.take n ++ old.drop n

/-- Bytes are half written part by part. -/
theorem halfWritten_append (n : ℕ) {new old : Bytes} (new' old' : Bytes)
    (h : new.length = old.length) :
    halfWritten n (new ++ new') (old ++ old') =
      halfWritten n new old ++ halfWritten (n - old.length) new' old' := by
  rw [halfWritten, halfWritten, halfWritten, List.take_append, List.drop_append, h]
  by_cases hn : n ≤ old.length
  · simp [Nat.sub_eq_zero_of_le hn]
  · have hle : old.length ≤ n := Nat.le_of_not_le hn
    simp [List.drop_eq_nil_of_le hle]

/-- Bytes that are written over themselves do not change. -/
@[simp] theorem halfWritten_self (n : ℕ) (bytes : Bytes) : halfWritten n bytes bytes = bytes :=
  List.take_append_drop n bytes

/-- A write that has not begun. -/
@[simp] theorem halfWritten_zero (new old : Bytes) : halfWritten 0 new old = old := rfl

/-- A write that has come to its end. -/
theorem halfWritten_all {n : ℕ} {new old : Bytes} (h : new.length = old.length)
    (hn : old.length ≤ n) :
    halfWritten n new old = new := by
  rw [halfWritten, List.take_of_length_le (h ▸ hn), List.drop_eq_nil_of_le hn, List.append_nil]

/-- A write keeps the length of what it overwrites. -/
theorem length_halfWritten (n : ℕ) {new old : Bytes} (h : new.length = old.length) :
    (halfWritten n new old).length = old.length := by
  rw [halfWritten, List.length_append, List.length_take, List.length_drop]
  omega

/-- A write that is cut leaves the rest of the range. -/
theorem overwrite_take (pre post : Bytes) (n : ℕ) {new old : Bytes}
    (h : new.length = old.length) :
    overwrite (pre ++ old ++ post) pre.length (new.take n) = pre ++ halfWritten n new old ++
      post := by
  have hsplit : pre ++ old ++ post = pre ++ old.take n ++ (old.drop n ++ post) := by
    rw [List.append_assoc, List.append_assoc, ← List.append_assoc (old.take n),
      List.take_append_drop]
  have hlen : (old.take n).length = (new.take n).length := by
    rw [List.length_take, List.length_take, h]
  rw [hsplit, overwrite_append _ _ _ _ hlen, halfWritten]
  simp only [List.append_assoc]

/-- The parts of a record in order. -/
theorem Record.bytes_eq [Crc] (r : Record) : r.bytes = magicOf r.isDead ++ (ofU16 r.parts.keyLen ++
    (ofU32 r.parts.fieldLen ++ (ofU32 r.crc ++ (r.parts.key.asBytes ++ r.parts.field)))) := by
  simp only [bytes, layout, List.append_assoc]

/-- A tombstone of which the magic word is written is a tombstone. -/
theorem Record.exists_halfWritten [Crc] (r : Record) {n : ℕ} (hn : 4 ≤ n) :
    ∃ d : Record, d.isDead = true ∧ d.size = r.size ∧
      halfWritten n r.tombstone.bytes r.bytes = d.bytes := by
  have hkeyLen : r.tombstone.parts.keyLen = r.parts.keyLen := by
    simp only [tombstone, parts, Parts.keyLen, Key.len, List.length_replicate]
  have hfieldLen : r.tombstone.parts.fieldLen = r.parts.fieldLen := by
    simp only [tombstone, parts, Parts.fieldLen, List.length_replicate]
  have hkeys : r.tombstone.parts.key.asBytes.length = r.parts.key.asBytes.length :=
    List.length_replicate ..
  have hfields : r.tombstone.parts.field.length = r.parts.field.length := List.length_replicate ..
  have hmix : ∃ crc key field, crc.length = 4 ∧ key.length = r.parts.key.asBytes.length ∧
      field.length = r.parts.field.length ∧
      halfWritten n r.tombstone.bytes r.bytes = magicOf true ++
        (ofU16 r.parts.keyLen ++ (ofU32 r.parts.fieldLen ++ (crc ++ (key ++ field)))) := by
    rw [bytes_eq, bytes_eq, hkeyLen, hfieldLen, halfWritten_append _ _ _ (by simp),
      halfWritten_append _ _ _ rfl, halfWritten_append _ _ _ rfl,
      halfWritten_append _ _ _ (by simp), halfWritten_append _ _ _ hkeys,
      halfWritten_all (by simp) (by simpa using hn)]
    simp only [halfWritten_self, isDead_tombstone]
    refine ⟨_, _, _, ?_, ?_, ?_, rfl⟩
    · rw [length_halfWritten _ (by simp), length_ofU32]
    · exact length_halfWritten _ hkeys
    · exact length_halfWritten _ hfields
  obtain ⟨crc, key, field, hcrc, hkey, hfield, hmix⟩ := hmix
  have hkeyLt : (⟨key⟩ : Key).Encodable := by
    change key.length < 2 ^ 16
    rw [hkey]
    exact r.parts.key_lt
  refine ⟨.dead ⟨⟨key⟩, field, hkeyLt, hfield ▸ r.parts.field_lt⟩ (toU32 crc), rfl, ?_, ?_⟩
  · simp only [size, parts, Key.len, hkey, hfield]
  · rw [hmix, bytes_eq]
    simp only [Record.crc, ofU32_toU32 hcrc, parts, Parts.keyLen, Parts.fieldLen, Key.len, hkey,
      hfield]
    rfl

/-- While the magic word of a live record is being overwritten, it is none. -/
theorem Record.magic_halfWritten [Crc] {r : Record} (hlive : r.isDead = false) {n : ℕ}
    (hpos : 0 < n) (hn : n < 4) (deleted : Bool) (xs ys : Bytes) :
    halfWritten n r.tombstone.bytes r.bytes ++ xs ≠ magicOf deleted ++ ys := by
  rw [bytes_eq, bytes_eq, isDead_tombstone, hlive, halfWritten_append _ _ _ (by simp),
    List.append_assoc]
  intro heq
  have hmagic :=
    (List.append_inj heq (by rw [length_halfWritten _ (by simp), length_magicOf, length_magicOf])).1
  revert hmagic
  interval_cases n <;> cases deleted <;> decide

/-- Records can be parted from the records behind them in one way. -/
theorem exists_of_records_append [Crc] {rs ts : List Record} {p : Bytes}
    (h : rs.flatMap Record.bytes ++ p = ts.flatMap Record.bytes) :
    ∃ us, ts = rs ++ us ∧ p = us.flatMap Record.bytes :=
  exists_of_flatMap_append DBDecoder.framed.frame_ne_nil (fun _ _ _ _ => Record.eq_of_bytes_append)
    h

/-- An entry of the index file is determined by its bytes, whatever follows. -/
theorem IndexCodec.IndexItem.eq_of_bytes_append {x y : IndexItem} {xs ys : Bytes}
    (h : entryBytes x.1 ++ xs = entryBytes y.1 ++ ys) : x = y := by
  have hx := IndexDecoder.framed.body_of_rest (IndexDecoder.new (entryBytes x.1 ++ xs)) x xs rfl
  have hy := IndexDecoder.framed.body_of_rest (IndexDecoder.new (entryBytes x.1 ++ xs)) y ys h
  have hafter := Except.ok.inj (hx.symm.trans hy)
  have hkey : x.1.1.asBytes = y.1.1.asBytes := congrArg IndexDecoder.lastIndexKey hafter
  have hoffset : x.1.2.offset = y.1.2.offset := congrArg IndexDecoder.lastIdx hafter
  have hkeyLen : x.1.2.keyLen = y.1.2.keyLen := congrArg IndexDecoder.lastKeyLen hafter
  have hfieldLen : x.1.2.fieldLen = y.1.2.fieldLen := congrArg IndexDecoder.lastFieldLen hafter
  obtain ⟨⟨⟨key⟩, offset, keyLen, fieldLen⟩, hx⟩ := x
  obtain ⟨⟨⟨key'⟩, offset', keyLen', fieldLen'⟩, hy⟩ := y
  cases hkey
  cases hoffset
  cases hkeyLen
  cases hfieldLen
  rfl

/-- The first bytes of an index file can be read exactly when they are those of
its first entries, and then only these are in the index. -/
theorem IndexCodec.decodeIndexFile_of_prefix {items : List IndexItem} {p : Bytes}
    {index : HashMap Key IndexEntry} (hp : p <+: items.flatMap fun x => entryBytes x.1) :
    (do let d ← (IndexDecoder.new p).decodeIndexFile; d.finish) = .ok index ↔
      ∃ j, p = (items.take j).flatMap (fun x => entryBytes x.1) ∧
        index = insertAll ∅ ((items.take j).map Subtype.val) := by
  rw [IndexDecoder.decodeIndexFile_eq_ok_iff]
  constructor
  · rintro ⟨xs, rfl, rfl⟩
    obtain ⟨q, hq⟩ := hp
    obtain ⟨us, rfl, -⟩ := exists_of_flatMap_append IndexDecoder.framed.frame_ne_nil
      (fun _ _ _ _ => IndexItem.eq_of_bytes_append) hq
    exact ⟨xs.length, by rw [List.take_left], by rw [List.take_left]⟩
  · rintro ⟨j, rfl, rfl⟩
    exact ⟨_, rfl, rfl⟩

namespace DataFile

/-- Data files with the same records have the same live ones. -/
theorem live_of_records {df df' : DataFile} (h : df'.records = df.records) :
    df'.live = df.live := by
  rw [live, live, slots, slots, h]

/-- What follows the bytes of a data file in another one are records. -/
theorem exists_of_bytes_append [Crc] {df df' : DataFile} {p : Bytes}
    (h : df.bytes ++ p = df'.bytes) :
    ∃ us, df'.records = df.records ++ us ∧ p = us.flatMap Record.bytes := by
  rw [bytes, bytes, List.append_assoc] at h
  exact exists_of_records_append (List.append_inj_right h (by simp))

/-- A data file with a record that is cut at its end can be read exactly when
nothing or all of the record is there. -/
theorem torn_append [Crc] {df df' : DataFile} {r : Record} {n : ℕ}
    (h : df.bytes ++ r.bytes.take n = df'.bytes) :
    (n = 0 ∧ df'.records = df.records) ∨
      (r.size ≤ n ∧ df'.records = (df.append r).records) := by
  obtain ⟨us, hrecords, hus⟩ := exists_of_bytes_append h
  cases us with
  | nil =>
    have hlen := congrArg List.length hus
    have hpos := r.size_pos
    rw [List.length_take, Record.length_bytes, List.flatMap_nil, List.length_nil] at hlen
    exact .inl ⟨by omega, by rw [hrecords, List.append_nil]⟩
  | cons u us =>
    have hsplit : r.bytes ++ [] = u.bytes ++ (us.flatMap Record.bytes ++ r.bytes.drop n) := by
      rw [List.append_nil, ← List.append_assoc, ← List.flatMap_cons, ← hus,
        List.take_append_drop]
    obtain rfl := Record.eq_of_bytes_append hsplit
    have hlen := congrArg List.length hus
    rw [List.length_take, List.flatMap_cons, List.length_append, Record.length_bytes,
      length_flatMap_bytes] at hlen
    have hnil : us = [] := by
      cases us with
      | nil => rfl
      | cons v us =>
        have hpos := v.size_pos
        simp only [totalSize, List.map_cons, List.sum_cons] at hlen
        omega
    subst hnil
    exact .inr ⟨by omega, hrecords⟩

/-- A dead record in the place of another one of its size. -/
theorem live_of_dead {df df' : DataFile} {pre post : List Record} {d d' : Record}
    (hd : d.isDead = true) (hd' : d'.isDead = true) (hsize : d'.size = d.size)
    (h : df.records = pre ++ d :: post) (h' : df'.records = pre ++ d' :: post) :
    df'.live = df.live := by
  have hstored : ∀ {base : ℕ} {d : Record}, d.isDead = true →
      Slot.stored? ⟨base, d⟩ = none := by
    intro base d hd
    cases d with
    | live parts value used decodes => cases hd
    | dead parts crc => rfl
  simp only [live, slots, h, h', slotsFrom_append, slotsFrom, List.filterMap_append,
    List.filterMap_cons, hstored hd, hstored hd', hsize]

/-- A tombstone that is being written over a live record: the file can be read
exactly when nothing or at least the magic word of it is there, and then the
live record is alive or gone. -/
theorem torn_tombstone [Crc] {df : DataFile} {s : Slot} (hs : s ∈ df.slots)
    (hlive : s.record.isDead = false) (n : ℕ) :
    ((∃ df' : DataFile, overwrite df.bytes s.offset (s.record.tombstone.bytes.take n) =
      df'.bytes) ↔
      n = 0 ∨ 4 ≤ n) ∧
    ∀ df' : DataFile, overwrite df.bytes s.offset (s.record.tombstone.bytes.take n) =
      df'.bytes →
      df'.live = if n = 0 then df.live else (df.tombstone s.offset).live := by
  obtain ⟨pre, post, hsplit, hoff, htomb⟩ := records_tombstone hs
  have hpos : s.offset = (df.header.bytes ++ pre.flatMap Record.bytes).length := by
    rw [List.length_append, Header.length_bytes, length_flatMap_bytes, hoff]
  have hbytes : overwrite df.bytes s.offset (s.record.tombstone.bytes.take n) =
      (df.header.bytes ++ pre.flatMap Record.bytes) ++ halfWritten n s.record.tombstone.bytes
        s.record.bytes ++
        post.flatMap Record.bytes := by
    rw [← overwrite_take _ _ _ (by simp), ← hpos]
    congr 1
    simp only [bytes, hsplit, List.flatMap_append, List.flatMap_cons, List.append_assoc]
  rw [hbytes]
  rcases Nat.eq_zero_or_pos n with rfl | hn
  · have hsame : (df.header.bytes ++ pre.flatMap Record.bytes) ++ s.record.bytes ++
        post.flatMap Record.bytes =
        df.bytes := by
      simp only [bytes, hsplit, List.flatMap_append, List.flatMap_cons, List.append_assoc]
    rw [halfWritten_zero, hsame]
    refine ⟨iff_of_true ⟨df, rfl⟩ (.inl rfl), fun df' hdf' => ?_⟩
    rw [if_pos rfl, live_of_records (records_eq_of_bytes_eq hdf')]
  · by_cases hmagic : 4 ≤ n
    · obtain ⟨d, hdead, hsize, hhalf⟩ := s.record.exists_halfWritten hmagic
      have hd : (df.header.bytes ++ pre.flatMap Record.bytes) ++ d.bytes ++
          post.flatMap Record.bytes =
          (⟨df.header, pre ++ d :: post⟩ : DataFile).bytes := by
        simp only [bytes, List.flatMap_append, List.flatMap_cons, List.append_assoc]
      rw [hhalf, hd]
      refine ⟨iff_of_true ⟨_, rfl⟩ (.inr hmagic), fun df' hdf' => ?_⟩
      rw [if_neg (Nat.pos_iff_ne_zero.mp hn)]
      refine live_of_dead (Record.isDead_tombstone _) hdead ?_ htomb
        (records_eq_of_bytes_eq hdf').symm
      rw [hsize, Record.size_tombstone]
    · have hnone : ∀ df' : DataFile, (df.header.bytes ++ pre.flatMap Record.bytes) ++
          halfWritten n s.record.tombstone.bytes s.record.bytes ++ post.flatMap Record.bytes ≠
            df'.bytes := by
        intro df' hdf'
        rw [bytes, List.append_assoc, List.append_assoc] at hdf'
        have hrest := List.append_inj_right hdf' (by simp)
        obtain ⟨us, -, hus⟩ := exists_of_records_append hrest
        cases us with
        | nil =>
          have hlen := congrArg List.length hus
          rw [List.length_append, length_halfWritten _ (by simp), Record.length_bytes,
            List.flatMap_nil, List.length_nil] at hlen
          have := s.record.size_pos
          omega
        | cons u us =>
          rw [List.flatMap_cons, u.bytes_eq, List.append_assoc] at hus
          exact Record.magic_halfWritten hlive hn (Nat.not_le.mp hmagic) _ _ _ hus
      refine ⟨iff_of_false ?_ (by omega), fun df' hdf' => absurd hdf' (hnone df')⟩
      rintro ⟨df', hdf'⟩
      exact hnone df' hdf'

/-- A record count that is being written changes the count alone. -/
theorem torn_count [Crc] (df : DataFile) (count : UInt64) (n : ℕ) :
    ∃ count', overwrite df.bytes 34 ((ofU64 count).take n) = (df.setCount count').bytes := by
  have hlen : (halfWritten n (ofU64 count) (ofU64 df.header.recordCount)).length = 8 := by
    rw [length_halfWritten _ (by simp), length_ofU64]
  refine ⟨toU64 (halfWritten n (ofU64 count) (ofU64 df.header.recordCount)), ?_⟩
  have hbefore : df.bytes = df.header.front ++ ofU64 df.header.recordCount ++
      (df.header.back ++ df.records.flatMap Record.bytes) := by
    simp only [bytes, Header.bytes, List.append_assoc]
  rw [← bytes_setCount, hbefore, ← df.header.length_front, overwrite_take _ _ _ (by simp),
    overwrite_append _ _ _ _ (by simp), ofU64_toU64 hlen]

end DataFile

/-- A write does not make a file shorter. -/
theorem length_le_overwrite (file : Bytes) (pos : ℕ) (data : Bytes) :
    file.length ≤ (overwrite file pos data).length := by
  unfold overwrite
  split
  · exact Nat.le_refl _
  · simp only [List.length_append, List.length_take, List.length_replicate, List.length_drop]
    omega

/-- A write that fails may have got some bytes into the file. -/
theorem FileHandler.writeAll_torn {io : Verdict} {file file' data : Bytes} {pos : ℕ} {e : Abort}
    (h : writeAll io file pos data = (.error e, file')) :
    ∃ n, file' = overwrite file pos (data.take n) := by
  cases io with
  | failed written =>
    cases h
    exact ⟨written, rfl⟩
  | deferred written => cases h
  | done =>
    simp only [writeAll] at h
    split at h
    · cases h
      exact ⟨_, rfl⟩
    · cases h

/-- An append that fails when `n` bytes of it are written. -/
theorem FileHandler.append_failed (n : ℕ) (file data : Bytes) :
    append (.failed n) file data = (failWith (mapFileHandlerError .device),
      file ++ data.take n) := by
  simp only [append, writeAll, overwrite_length]
  rfl

/-- An append that fails leaves a part of its bytes. -/
theorem FileHandler.append_torn {io : Verdict} {file file' data : Bytes} {e : Abort}
    (h : append io file data = (.error e, file')) : ∃ n, file' = file ++ data.take n := by
  obtain ⟨hresult, hfile⟩ := Prod.mk.inj h
  cases hw : (writeAll io file file.length data).1 with
  | ok u =>
    rw [hw] at hresult
    cases hresult
  | error e' =>
    obtain ⟨n, hn⟩ := writeAll_torn (Prod.ext hw hfile)
    exact ⟨n, by rw [hn, overwrite_length]⟩

namespace Db

variable [Crc] {db db' : Database} {f : Flush}

/-- A flush has died in a section: some bytes of its command are in the file. -/
inductive Torn (db : Database) (f : Flush) : Database → Prop
  /-- The command has left no byte. -/
  | untouched : Torn db f db
  /-- A record has been appended in part. -/
  | append {key : Key} {field : Field} {todo : List WalEntry} (n : ℕ) (hstage : f.stage = .batch)
      (htodo : f.todo = .set key field :: todo) :
      Torn db f { db with file := db.file ++ (encode key field).take n }
  /-- A tombstone has been written in part. -/
  | tombstone {key : Key} {todo : List WalEntry} {entry : IndexEntry} (n : ℕ)
      (hstage : f.stage = .batch) (htodo : f.todo = .delete key :: todo)
      (hplan : f.deletePlan.lookup key = some entry) :
      Torn db f { db with file := overwrite db.file entry.offset.toNat ((tombstoneOf entry).take n)
        }
  /-- The count has been written in part. -/
  | count (n : ℕ) (hstage : f.stage = .writeCount) :
      Torn db f { db with file := overwrite db.file 34 ((ofU64 f.count).take n) }
  /-- The index file has been truncated or written in part. -/
  | index (indexFile : Bytes) (hstage : f.stage = .writeIndex) : Torn db f { db with indexFile }
  /-- The checkpoint has cleared the entries in memory. -/
  | checkpoint (file : Bytes) (hstage : f.stage = .checkpoint) :
      Torn db f { db with wal := ⟨file, []⟩ }

/-- An item of the batch that fails has been written in part. -/
theorem torn_of_batchItem {entry : WalEntry} {todo : List WalEntry} {io : Verdict} {e : Abort}
    (hstage : f.stage = .batch) (htodo : f.todo = entry :: todo)
    (h : f.batchItem io db todo entry = (db', .failed e)) : Torn db f db' := by
  cases entry with
  | set key field =>
    simp only [Flush.batchItem] at h
    split at h
    · rename_i hcommand
      obtain ⟨n, rfl⟩ := append_torn hcommand
      cases h
      exact .append n hstage htodo
    · cases h
  | delete key =>
    simp only [Flush.batchItem] at h
    split at h
    · cases h
    · rename_i entry hplan
      obtain ⟨rfl, hresult⟩ := eq_of_proceed_failed (by simp) h
      obtain ⟨n, hn⟩ := writeAll_torn (Prod.ext hresult rfl)
      have htorn : Torn db f _ := .tombstone n hstage htodo hplan
      rw [tombstoneOf, ← hn] at htorn
      exact htorn

/-- A section that fails leaves one of its files torn. -/
theorem torn_of_failed {choice : Choice} {e : Abort}
    (h : Task.step choice db (.flush f) = some (db', .failed e)) :
    Torn db f db' := by
  change f.step choice db = _ at h
  rw [Flush.step] at h
  cases hstage : f.stage <;> rw [hstage] at h
  case pop | publish | countFields | done => cases h
  case plan | cloneIndex =>
    dsimp only at h
    split at h <;> cases h
  case batch =>
    dsimp only at h
    split at h
    · obtain ⟨rfl, -⟩ := eq_of_proceed_failed (by simp) (Option.some.inj h)
      exact .untouched
    · rename_i entry todo htodo
      exact torn_of_batchItem hstage htodo (Option.some.inj h)
  case writeCount =>
    obtain ⟨rfl, hresult⟩ := eq_of_proceed_failed (by simp) (Option.some.inj h)
    obtain ⟨n, hn⟩ := writeAll_torn (Prod.ext hresult rfl)
    have htorn : Torn db f _ := .count n hstage
    rw [show (34 : ℕ) = recordCountOffset.toNat from rfl, ← hn] at htorn
    exact htorn
  case truncIndex =>
    obtain ⟨rfl, hresult⟩ := eq_of_proceed_failed (by simp) (Option.some.inj h)
    cases hio : choice.first with
    | failed written | deferred written => exact .untouched
    | done =>
      rw [hio] at hresult
      cases hresult
  case writeIndex =>
    obtain ⟨rfl, -⟩ := eq_of_proceed_failed (by simp) (Option.some.inj h)
    exact .index _ hstage
  case syncIndex =>
    obtain ⟨rfl, -⟩ := eq_of_proceed_failed (by simp) (Option.some.inj h)
    exact .untouched
  case checkpoint =>
    obtain ⟨rfl, -⟩ := eq_of_proceed_failed (by simp) (Option.some.inj h)
    have htorn : Torn db f _ := .checkpoint (db.wal.checkpoint choice.first choice.second).2.file
      hstage
    have hcleared : (db.wal.checkpoint choice.first choice.second).2.entries = [] := by
      rw [Wal.checkpoint]
      split <;> rfl
    rw [← hcleared] at htorn
    exact htorn

end Db

end PeachDB
