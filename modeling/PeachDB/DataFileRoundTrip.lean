import PeachDB.DataFileDecoding

/-!
# Writing and reading whole data files

A data file is written as a header and items, each a live record or a
tombstone, into one growing buffer. Reading it back gives the name, the record
count and the field of the last live item of each key. A file that is cut
behind its header is refused unless the cut falls between two items, and then
it stands for the items before the cut.
-/

namespace PeachDB

open LittleEndian Dtypes RecordCodec

/-- The character NUL is one zero byte. -/
theorem stringBytes_replicate_nul (n : ℕ) :
    stringBytes (String.ofList (List.replicate n (Char.ofNat 0))) = List.replicate n 0 := by
  induction n with
  | zero => rfl
  | succ n ih =>
    have hsplit : String.ofList (List.replicate (n + 1) (Char.ofNat 0)) =
        String.ofList [Char.ofNat 0] ++ String.ofList (List.replicate n (Char.ofNat 0)) := by
      rw [← String.ofList_append]
      rfl
    rw [hsplit, stringBytes_append, ih]
    rfl

/-- Nothing is trimmed from a text that does not start with the character. -/
theorem dropWhile_of_head? {c : Char} {l : List Char} (h : l.head? ≠ some c) :
    l.dropWhile (fun d => d == c) = l := by
  cases l with
  | nil => rfl
  | cons d l =>
    have hd : d ≠ c := by
      rintro rfl
      exact h rfl
    rw [List.dropWhile_cons_of_neg (by simpa using hd)]

/-- Padding is trimmed from the start of a text. -/
theorem dropWhile_replicate_append {c : Char} {l : List Char} (n : ℕ) (h : l.head? ≠ some c) :
    (List.replicate n c ++ l).dropWhile (fun d => d == c) = l := by
  induction n with
  | zero => exact dropWhile_of_head? h
  | succ n ih =>
    rw [List.replicate_succ, List.cons_append, List.dropWhile_cons_of_pos (by simp)]
    exact ih

/-- Trimming takes off the padding of a name that has no NUL at its ends. -/
theorem trimNul_append_nul {s : String} (n : ℕ) (hfirst : s.toList.head? ≠ some (Char.ofNat 0))
    (hlast : s.toList.getLast? ≠ some (Char.ofNat 0)) :
    trimNul (s ++ String.ofList (List.replicate n (Char.ofNat 0))) = s := by
  have hstart : (s.toList ++ List.replicate n (Char.ofNat 0)).dropWhile (fun c =>
      c == Char.ofNat 0) =
      s.toList ++ if s.toList = [] then [] else List.replicate n (Char.ofNat 0) := by
    cases hs : s.toList with
    | nil =>
      have hpad := dropWhile_replicate_append (c := Char.ofNat 0) (l := []) n (by simp)
      rw [List.append_nil] at hpad
      exact hpad
    | cons c cs =>
      rw [hs, List.head?_cons] at hfirst
      rw [if_neg (List.cons_ne_nil c cs), List.cons_append]
      exact dropWhile_of_head? hfirst
  have hend : s.toList.reverse.head? ≠ some (Char.ofNat 0) := by
    rw [List.head?_reverse]
    exact hlast
  rw [trimNul, String.toList_append, String.toList_ofList, hstart, List.reverse_append]
  split
  · rw [List.reverse_nil, List.nil_append, dropWhile_of_head? hend, List.reverse_reverse,
      String.ofList_toList]
  · rw [List.reverse_replicate, dropWhile_replicate_append n hend, List.reverse_reverse,
      String.ofList_toList]

/-- The name fits its 64 bytes in the header and has no NUL at its ends. -/
structure RecordCodec.DbMeta.NameFits (info : DbMeta) : Prop where
  /-- The name has room in the header. -/
  length_le : (stringBytes info.name).length ≤ 64
  /-- No zero would be trimmed off its front. -/
  first : info.name.toList.head? ≠ some (Char.ofNat 0)
  /-- No zero would be trimmed off its end. -/
  last : info.name.toList.getLast? ≠ some (Char.ofNat 0)

/-- The name of a header is read back when it has no NUL at its ends. -/
theorem Header.info_ofMeta {info : DbMeta} (hname : info.NameFits) :
    (Header.ofMeta info).info = ⟨dbVersion, info.recordCount, info.name⟩ := by
  have hpadded : (Header.ofMeta info).name = stringBytes
      (info.name ++ String.ofList (List.replicate (64 - (stringBytes info.name).length)
        (Char.ofNat 0))) := by
    rw [stringBytes_append, stringBytes_replicate_nul]
    simp only [Header.ofMeta, dbNameLen]
    rw [Nat.min_eq_left hname.length_le, List.take_length]
  rw [Header.info, hpadded, fromUtf8Lossy, fromUTF8?_stringBytes]
  simp only [trimNul_append_nul _ hname.first hname.last]
  rfl

/-- What is written behind the header: a live record whose lengths fit, or a
tombstone. -/
inductive Item
  | live (key : Key) (field : Field) (hkey : key.Encodable) (hfield : field.Encodable)
  | dead (keyLen : UInt16) (fieldLen : UInt32)

namespace Item

/-- The item written by the program behind the output so far. -/
def write [Crc] (enc : DBEncoder) : Item → DBEncoder
  | live key field _ _ => enc.encodeDbKeyFieldPair key field
  | dead keyLen fieldLen =>
    enc.write (((DBDeleter.new.setKeyLen keyLen).setFieldLen fieldLen).getDeletedField).finish

/-- The key and the field of a live item. -/
def pair? : Item → Option (Key × Field)
  | live key field _ _ => some (key, field)
  | dead _ _ => none

/-- The record that the item becomes. -/
def record : Item → Record
  | live key field hkey hfield => .ofPair key field hkey hfield
  | dead keyLen fieldLen => .dead
      (Parts.ofLens keyLen fieldLen (List.replicate keyLen.toNat 0)
        (List.replicate fieldLen.toNat 0)
        List.length_replicate List.length_replicate) 0

/-- The number of bytes of the item. -/
def size (i : Item) : ℕ := i.record.size

/-- Writing an item adds the bytes of its record. -/
theorem buffer_write [Crc] (enc : DBEncoder) (i : Item) :
    (i.write enc).buffer = enc.buffer ++ i.record.bytes := by
  cases i with
  | live key field hkey hfield =>
    rw [write, encodeDbKeyFieldPair_buffer, record, Record.bytes_ofPair, encode_eq]
  | dead keyLen fieldLen =>
    have hkey : UInt16.ofNat (List.replicate keyLen.toNat (0 : UInt8)).length = keyLen := by
      rw [List.length_replicate, UInt16.ofNat_toNat]
    have hfield : UInt32.ofNat (List.replicate fieldLen.toNat (0 : UInt8)).length = fieldLen := by
      rw [List.length_replicate, UInt32.ofNat_toNat]
    simp only [write, DBEncoder.write, record, Record.bytes, Record.parts, Record.isDead,
      Record.crc, layout, Parts.ofLens, Parts.keyLen, Parts.fieldLen, Key.len, hkey, hfield]
    simp [DBDeleter.finish, DBDeleter.getDeletedField, DBDeleter.write, DBDeleter.setKeyLen,
      DBDeleter.setFieldLen, DBDeleter.new, magicOf]
    rfl

/-- The items of a file as a data file. -/
def file (info : DbMeta) (items : List Item) : DataFile := ⟨.ofMeta info, items.map record⟩

/-- Writing a header and items gives the bytes of the data file. -/
theorem finish_foldl_write [Crc] (info : DbMeta) (items : List Item) :
    (items.foldl write (DBEncoder.new.encodeDbHeader info)).finish = (file info items).bytes := by
  have hbuffer (enc : DBEncoder) : (items.foldl write enc).buffer =
      enc.buffer ++ (items.map record).flatMap Record.bytes := by
    induction items generalizing enc with
    | nil => simp
    | cons i items ih =>
      rw [List.foldl_cons, ih, buffer_write, List.map_cons, List.flatMap_cons, List.append_assoc]
  rw [DBEncoder.finish, hbuffer, DataFile.bytes, file, Header.bytes_ofMeta]
  rfl

/-- The map of the file holds the fields of the last live items. -/
theorem lookup_fields_file (info : DbMeta) (items : List Item) (k : Key) :
    (file info items).fields.lookup k = lastOf k (items.filterMap pair?) := by
  have hpairs (base : ℕ) : (((slotsFrom base (items.map record)).filterMap Slot.stored?).map
      fun x => (x.1, x.2.value)) = items.filterMap pair? := by
    induction items generalizing base with
    | nil => rfl
    | cons i items ih =>
      cases i with
      | live key field hkey hfield =>
        have hpair : (live key field hkey hfield).pair? = some (key, field) := rfl
        rw [List.filterMap_cons_some hpair, ← ih (base + (live key field hkey hfield).size)]
        rfl
      | dead keyLen fieldLen =>
        have hpair : (dead keyLen fieldLen).pair? = none := rfl
        rw [List.filterMap_cons_none hpair, ← ih (base + (dead keyLen fieldLen).size)]
        rfl
  rw [DataFile.fields, DataFile.live, DataFile.slots, lookup_insertAll, file, hpairs]
  simp

end Item

/-- Pairs that can be encoded are written as live items. -/
theorem Item.exists_of_pairs [Crc] {order : List (Key × Field)}
    (hvalid : ∀ x ∈ order, x.1.Encodable ∧ x.2.Encodable) :
    ∃ items : List Item, (∀ enc, items.foldl Item.write enc =
      order.foldl (fun enc e => enc.encodeDbKeyFieldPair e.1 e.2) enc) ∧
      items.filterMap Item.pair? = order := by
  induction order with
  | nil => exact ⟨[], fun enc => rfl, rfl⟩
  | cons x order ih =>
    obtain ⟨items, hwrite, hpairs⟩ := ih fun y hy => hvalid y (List.mem_cons_of_mem x hy)
    obtain ⟨hkey, hfield⟩ := hvalid x List.mem_cons_self
    have hpair : (Item.live x.1 x.2 hkey hfield).pair? = some x := rfl
    exact ⟨.live x.1 x.2 hkey hfield :: items, fun enc => hwrite _,
      by rw [List.filterMap_cons_some hpair, hpairs]⟩

namespace RecordCodec.DBDecoder

/-- A read of more bytes than remain ends the decoding. -/
theorem bind_of_short {α : Type} {c : Cursor} {n : ℕ} (f : Bytes × Cursor → PDBResult α)
    (h : c.rest.length < n) : (readExact c n >>= f) = failWith (.io .unexpectedEof) := by
  rw [readExact_of_short h]
  rfl

/-- The next part of a record is cut, or it is read and a later one is cut. -/
theorem bind_of_cut {read : PDBResult DBDecoder} {next : DBDecoder → PDBResult DBDecoder}
    {part p ys : Bytes} {d : DBDecoder} (hp : p <+: part ++ ys)
    (hshort : p.length < part.length → read = failWith (.io .unexpectedEof))
    (hread : ∀ q, p = part ++ q → read = .ok d)
    (hnext : ∀ q, p = part ++ q → q <+: ys → next d = failWith (.io .unexpectedEof)) :
    (read >>= next) = failWith (.io .unexpectedEof) := by
  rcases prefix_append_cases hp with hlt | ⟨q, hq, hys⟩
  · rw [hshort hlt]
    rfl
  · rw [hread q hq]
    exact hnext q hq hys

/-- The decoder meets the end of the file inside every record that is cut. -/
theorem decodeDbKeyFieldPair_of_cut [Crc] {d : DBDecoder} {r : Record} {p : Bytes}
    (hrest : d.cursor.rest = p) (hp : p <+: r.bytes) (hne : p ≠ r.bytes) :
    d.decodeDbKeyFieldPair = failWith (.io .unexpectedEof) := by
  have hlayout : r.bytes = magicOf r.isDead ++ (ofU16 r.parts.keyLen ++ (ofU32 r.parts.fieldLen ++
      (ofU32 r.crc ++ (r.parts.key.asBytes ++ (r.parts.field ++ []))))) := by
    simp only [Record.bytes, layout, List.append_assoc, List.append_nil]
  rw [hlayout] at hp hne
  refine bind_of_cut hp (fun h => bind_of_short _ ?_)
    (fun q hq => readMagicNumber_eq_ok_iff.mpr ⟨r.isDead, q, hrest.trans hq, rfl⟩)
      fun q₁ hq₁ hp₁ => ?_
  · rwa [hrest, ← length_magicOf r.isDead]
  have hrest₁ := Cursor.rest_advance_of_append (hrest.trans hq₁) (length_magicOf r.isDead)
  refine bind_of_cut hp₁ (fun h => bind_of_short _ ?_)
    (fun q hq => readKeyLen_eq_ok_iff.mpr ⟨r.parts.keyLen, q, hrest₁.trans hq, rfl⟩)
      fun q₂ hq₂ hp₂ => ?_
  · rwa [hrest₁, ← length_ofU16 r.parts.keyLen]
  have hrest₂ := Cursor.rest_advance_of_append (hrest₁.trans hq₂)
    (length_ofU16 r.parts.keyLen)
  refine bind_of_cut hp₂ (fun h => bind_of_short _ ?_)
    (fun q hq => readFieldLen_eq_ok_iff.mpr ⟨r.parts.fieldLen, q, hrest₂.trans hq, rfl⟩)
      fun q₃ hq₃ hp₃ => ?_
  · rwa [hrest₂, ← length_ofU32 r.parts.fieldLen]
  have hrest₃ := Cursor.rest_advance_of_append (hrest₂.trans hq₃)
    (length_ofU32 r.parts.fieldLen)
  refine bind_of_cut hp₃ (fun h => bind_of_short _ ?_)
    (fun q hq => readCrc_eq_ok_iff.mpr ⟨r.crc, q, hrest₃.trans hq, rfl⟩)
      fun q₄ hq₄ hp₄ => ?_
  · rwa [hrest₃, ← length_ofU32 r.crc]
  have hrest₄ := Cursor.rest_advance_of_append (hrest₃.trans hq₄) (length_ofU32 r.crc)
  refine bind_of_cut hp₄ (fun h => bind_of_short _ ?_)
    (fun q hq => readKey_eq_ok_iff.mpr ⟨r.parts.key.asBytes, q, (Parts.toNat_keyLen _).symm,
      hrest₄.trans hq, rfl⟩)
    fun q₅ hq₅ hp₅ => ?_
  · rw [hrest₄]
    exact h.trans_eq (Parts.toNat_keyLen _).symm
  have hrest₅ := Cursor.rest_advance_of_append (hrest₄.trans hq₅)
    (Parts.toNat_keyLen r.parts).symm
  refine bind_of_cut hp₅ (fun h => bind_of_short _ ?_)
    (fun q hq => readField_eq_ok_iff.mpr ⟨r.parts.field, q, (Parts.toNat_fieldLen _).symm,
      hrest₅.trans hq, rfl⟩)
    fun q₆ hq₆ hp₆ => ?_
  · rw [hrest₅]
    exact h.trans_eq (Parts.toNat_fieldLen _).symm
  rw [List.prefix_nil] at hp₆
  refine absurd ?_ hne
  rw [hq₁, hq₂, hq₃, hq₄, hq₅, hq₆, hp₆]

end RecordCodec.DBDecoder

/-- The items that lie in the first `n` bytes behind the header. -/
def Item.wholeBefore : ℕ → List Item → List Item
  | _, [] => []
  | n, i :: items => if i.size ≤ n then i :: wholeBefore (n - i.size) items else []

/-- A cut falls behind the whole items before it, or inside the next one. -/
theorem Item.take_wholeBefore [Crc] (n : ℕ) (items : List Item) : ∃ q : Bytes,
    ((items.map record).flatMap Record.bytes).take n =
      ((wholeBefore n items).map record).flatMap Record.bytes ++ q ∧
      (q = [] ∨ ∃ r : Record, q <+: r.bytes ∧ q ≠ r.bytes) := by
  induction items generalizing n with
  | nil => exact ⟨[], by simp [wholeBefore], .inl rfl⟩
  | cons i items ih =>
    rw [wholeBefore, List.map_cons, List.flatMap_cons]
    have hlen : i.record.bytes.length = i.size := Record.length_bytes _
    by_cases hn : i.size ≤ n
    · obtain ⟨q, hq, hcut⟩ := ih (n - i.size)
      refine ⟨q, ?_, hcut⟩
      rw [if_pos hn, List.map_cons, List.flatMap_cons, List.append_assoc, ← hq, List.take_append,
        List.take_of_length_le (by omega), hlen]
    · refine ⟨i.record.bytes.take n, ?_, .inr ⟨i.record, List.take_prefix _ _, ?_⟩⟩
      · rw [if_neg hn, List.take_append_of_le_length (by omega)]
        rfl
      · intro heq
        have htake := congrArg List.length heq
        rw [List.length_take] at htake
        omega

/-- The decoder reads over whole items and fails inside a cut one. -/
theorem decodeFile_of_cut [Crc] {info : DbMeta} {items : List Item} {q : Bytes} {r : Record}
    (hq : q <+: r.bytes) (hne : q ≠ r.bytes) (hnil : q ≠ []) :
    decodeFile ((Item.file info items).bytes ++ q) = failWith (.io .unexpectedEof) := by
  have hsplit : (Item.file info items).bytes ++ q =
      (Header.ofMeta info).bytes ++ ((items.map Item.record).flatMap Record.bytes ++ q) := by
    rw [DataFile.bytes, List.append_assoc]
    rfl
  have hheader := DBDecoder.decodeDbHeader_eq_ok_iff.mpr ⟨Header.ofMeta info, _, hsplit, rfl⟩
  have hrest : (DBDecoder.afterHeader ((Item.file info items).bytes ++ q)
      (Header.ofMeta info)).cursor.rest =
      (items.map Item.record).flatMap Record.bytes ++ q := by
    rw [hsplit]
    exact List.drop_left' (Header.length_bytes _)
  have hafter := (DBDecoder.framed.rounds 0 hrest).2
  have hlength : (DBDecoder.afterHeader ((Item.file info items).bytes ++ q)
      (Header.ofMeta info)).cursor.rest.length ≤ ((Item.file info items).bytes ++ q).length +
        1 := by
    rw [Cursor.length_rest]
    exact (Nat.sub_le _ _).trans (Nat.le_succ _)
  have hloop := DBDecoder.framed.loop_eq_error hlength hrest hnil
    (DBDecoder.decodeDbKeyFieldPair_of_cut hafter hq hne)
  rw [decodeFile, DBDecoder.decodeDbFile, hheader, ok_bind]
  change (loop DBDecoder.more DBDecoder.decodeDbKeyFieldPair
    (((Item.file info items).bytes ++ q).length + 1) _ >>= DBDecoder.finish) = _
  rw [hloop]
  rfl

/-- What is decoded from a header and items. -/
structure Decoded [Crc] (bytes : Bytes) (info : DbMeta) (items : List Item)
    (fields : HashMap Key Field) :
    Prop where
  /-- The decoder accepts the file. -/
  decodes : decodeFile bytes = .ok (fields, ⟨dbVersion, info.recordCount, info.name⟩)
  /-- Every key has the value of its last live item. -/
  lookup : ∀ k, fields.lookup k = lastOf k (items.filterMap Item.pair?)

section

variable [Crc] {info : DbMeta}

/-- A header and items are decoded to the fields of the last live items. -/
theorem decoded_file (hname : info.NameFits) (items : List Item) :
    Decoded (Item.file info items).bytes info items (Item.file info items).fields where
  decodes := by
    rw [← Header.info_ofMeta hname]
    exact decodeFile_bytes (Item.file info items)
  lookup := Item.lookup_fields_file info items

/-- The encoder of whole maps is read back, whatever order it iterated in. -/
theorem decodeFile_encodeDbFile (hname : info.NameFits) {m : HashMap Key Field}
    {order : List (Key × Field)} (horder : IterOrder m order)
    (hvalid : ∀ x ∈ order, x.1.Encodable ∧ x.2.Encodable) :
    decodeFile (DBEncoder.new.encodeDbFile order info).finish =
      .ok (m, ⟨dbVersion, info.recordCount, info.name⟩) := by
  obtain ⟨items, hwrite, hpairs⟩ := Item.exists_of_pairs hvalid
  have hfields : (Item.file info items).fields = m := by
    apply Finmap.ext_lookup
    intro k
    rw [Item.lookup_fields_file, hpairs, horder.lastOf_eq]
  rw [DBEncoder.encodeDbFile, ← hwrite, Item.finish_foldl_write,
    (decoded_file hname items).decodes, hfields]

/-- A data file that is cut behind its header is refused, or it stands for the
items before the cut. -/
theorem decodeFile_take (hname : info.NameFits) (items : List Item) {cut : ℕ}
    (hcut : 114 ≤ cut) :
    (∃ fields, Decoded ((Item.file info items).bytes.take cut) info
      (Item.wholeBefore (cut - 114) items) fields) ∨
      decodeFile ((Item.file info items).bytes.take cut) = failWith (.io .unexpectedEof) := by
  obtain ⟨q, hq, hend⟩ := Item.take_wholeBefore (cut - 114) items
  have htake : (Item.file info items).bytes.take cut =
      (Item.file info (Item.wholeBefore (cut - 114) items)).bytes ++ q := by
    have hheader : (Item.file info items).header.bytes.length = 114 := Header.length_bytes _
    rw [DataFile.bytes, List.take_append, hheader, List.take_of_length_le (by omega),
      DataFile.bytes, List.append_assoc]
    exact congrArg _ hq
  rw [htake]
  by_cases hnil : q = []
  · rw [hnil, List.append_nil]
    exact .inl ⟨_, decoded_file hname _⟩
  · rcases hend with hend | ⟨r, hprefix, hne⟩
    · exact absurd hend hnil
    · exact .inr (decodeFile_of_cut hprefix hne hnil)

/-- A data file that is written as a header and items, each a live record or a
tombstone of any lengths, is read back to the name, the record count and the
field of the last live item of each key; an encoded map is read back to the
map; and a file that is cut behind its header is refused or stands for the
items that lie wholly before the cut. -/
theorem data_file_round_trip (hname : info.NameFits) :
    (∀ items : List Item, ∃ fields,
      Decoded (items.foldl Item.write (DBEncoder.new.encodeDbHeader info)).finish info items
        fields) ∧
    (∀ m order, IterOrder m order → (∀ x ∈ order, x.1.Encodable ∧ x.2.Encodable) →
      decodeFile (DBEncoder.new.encodeDbFile order info).finish =
        .ok (m, ⟨dbVersion, info.recordCount, info.name⟩)) ∧
    ∀ (items : List Item) (cut : ℕ), 114 ≤ cut →
      let bytes := (items.foldl Item.write (DBEncoder.new.encodeDbHeader info)).finish.take cut
      (∃ fields, Decoded bytes info (Item.wholeBefore (cut - 114) items) fields) ∨
        decodeFile bytes = failWith (.io .unexpectedEof) := by
  refine ⟨fun items => ?_, fun m order => decodeFile_encodeDbFile hname, fun items cut hcut => ?_⟩
  · rw [Item.finish_foldl_write]
    exact ⟨_, decoded_file hname items⟩
  · rw [Item.finish_foldl_write]
    exact decodeFile_take hname items hcut

end

open scoped IsoHdlc

/-- A key is written twice, with a tombstone between. -/
theorem data_file_round_trip_overwritten :
    let info : DbMeta := ⟨1, 2, "db"⟩
    let items : List Item := [.live (.ofText "k") (.primitive (.integer 1)) (by decide) (by decide),
      .dead 3 5, .live (.ofText "k") (.raw [7]) (by decide) (by decide)]
    ∃ fields, Decoded (items.foldl Item.write (DBEncoder.new.encodeDbHeader info)).finish info
      items fields ∧
      fields.lookup (.ofText "k") = some (.raw [7]) := by
  intro info items
  have hname : info.NameFits := ⟨by decide, by decide, by decide⟩
  obtain ⟨fields, hdecoded⟩ := (data_file_round_trip hname).1 items
  exact ⟨fields, hdecoded, by rw [hdecoded.lookup]; decide⟩

end PeachDB
