import Mathlib.Data.List.Basic

/-!
# Cursors over byte buffers and decoding loops

A cursor is a buffer and a position, which may lie past the end. A decoding
loop repeats a fallible body while bytes remain. Where every round reads one
non-empty frame, the loop succeeds on the concatenations of frames, fuel for
as many rounds as there are bytes is enough, and a body that accepts nothing
but frames makes these the only buffers on which it succeeds.
-/

namespace PeachDB

/-- Contents of a file or of a buffer. -/
abbrev Bytes := List UInt8

/-- A read position inside a buffer. -/
structure Cursor where
  /-- The whole buffer. -/
  buf : Bytes
  /-- Number of bytes before the read position. -/
  pos : ℕ
  deriving DecidableEq

namespace Cursor

/-- The bytes still ahead of the cursor; none when it stands past the end. -/
def rest (c : Cursor) : Bytes := c.buf.drop c.pos

/-- The cursor moved forward without looking at the buffer. -/
def advance (c : Cursor) (n : ℕ) : Cursor := { c with pos := c.pos + n }

/-- The first `n` remaining bytes, or nothing when fewer remain. -/
def readExact (c : Cursor) (n : ℕ) : Option (Bytes × Cursor) :=
  if n ≤ c.rest.length then some (c.rest.take n, c.advance n) else none

/-- Moving the cursor leaves the buffer alone. -/
@[simp] theorem advance_buf (c : Cursor) (n : ℕ) : (c.advance n).buf = c.buf := rfl

/-- The cursor moves by as many bytes. -/
@[simp] theorem advance_pos (c : Cursor) (n : ℕ) : (c.advance n).pos = c.pos + n := rfl

/-- The cursor may stay where it is. -/
@[simp] theorem advance_zero (c : Cursor) : c.advance 0 = c := rfl

/-- The cursor moves in two steps. -/
@[simp] theorem advance_advance (c : Cursor) (m n : ℕ) :
    (c.advance m).advance n = c.advance (m + n) := by
  simp only [advance, Nat.add_assoc]

/-- Bytes that have been passed are gone. -/
theorem rest_advance (c : Cursor) (n : ℕ) : (c.advance n).rest = c.rest.drop n := by
  simp only [rest, advance_buf, advance_pos, List.drop_drop]

/-- Moving over a known prefix leaves the bytes behind it. -/
theorem rest_advance_of_append {c : Cursor} {xs ys : Bytes} {n : ℕ} (h : c.rest = xs ++ ys)
    (hn : xs.length = n) : (c.advance n).rest = ys := by
  rw [rest_advance, h, List.drop_left' hn]

/-- The test of every decoding loop: the cursor is before the end exactly
when a byte remains. -/
theorem pos_lt_iff (c : Cursor) : c.pos < c.buf.length ↔ c.rest ≠ [] := by
  rw [rest, Ne, List.drop_eq_nil_iff, Nat.not_le]

/-- As many bytes are left as lie behind the position. -/
theorem length_rest (c : Cursor) : c.rest.length = c.buf.length - c.pos := List.length_drop

/-- A read of a known prefix succeeds. -/
theorem readExact_of_rest {c : Cursor} {xs ys : Bytes} {n : ℕ} (h : c.rest = xs ++ ys)
    (hn : xs.length = n) : c.readExact n = some (xs, c.advance n) := by
  subst hn
  rw [readExact, if_pos (by simp [h]), h, List.take_left]

/-- A successful read returns the next bytes and stops right behind them. -/
theorem eq_of_readExact {c c' : Cursor} {xs : Bytes} {n : ℕ} (h : c.readExact n = some (xs, c')) :
    xs.length = n ∧ c' = c.advance n ∧ c.rest = xs ++ c'.rest := by
  unfold readExact at h
  split at h
  · rename_i hle
    cases h
    refine ⟨List.length_take_of_le hle, rfl, ?_⟩
    rw [rest_advance, List.take_append_drop]
  · cases h

/-- A read fails when too few bytes are left. -/
theorem readExact_eq_none_iff (c : Cursor) (n : ℕ) : c.readExact n = none ↔
    c.rest.length < n := by
  unfold readExact
  split <;> simp only [reduceCtorEq, false_iff, true_iff] <;> omega

end Cursor

/-- Write `data` over a file at `pos`, filling a gap before it with zeros.
An empty write leaves the file alone. -/
def overwrite (file : Bytes) (pos : ℕ) (data : Bytes) : Bytes :=
  if data = [] then file
  else file.take pos ++ List.replicate (pos - file.length) 0 ++ data ++
    file.drop (pos + data.length)

/-- A write inside the file replaces exactly the range it covers. -/
theorem overwrite_append (pre old post data : Bytes) (h : old.length = data.length) :
    overwrite (pre ++ old ++ post) pre.length data = pre ++ data ++ post := by
  unfold overwrite
  split
  · rename_i hd
    have hold : old = [] := List.length_eq_zero_iff.mp (by simp [h, hd])
    rw [hd, hold]
  · have hgap : pre.length - (pre ++ old ++ post).length = 0 := by simp
    have htake : (pre ++ old ++ post).take pre.length = pre := by
      rw [List.append_assoc, List.take_left]
    have hdrop : (pre ++ old ++ post).drop (pre.length + data.length) = post := by
      rw [← h, ← List.length_append, List.drop_left]
    rw [hgap, htake, hdrop, List.replicate_zero, List.append_nil]

/-- A write at the start that reaches the end of the file replaces it. -/
theorem overwrite_zero {file data : Bytes} (h : file.length ≤ data.length) :
    overwrite file 0 data = data := by
  unfold overwrite
  split
  · rename_i hd
    rw [hd, List.length_nil] at h
    rw [hd, List.length_eq_zero_iff.mp (Nat.le_zero.mp h)]
  · rw [List.take_zero, Nat.zero_sub, List.replicate_zero, Nat.zero_add,
      List.drop_eq_nil_iff.mpr h, List.append_nil]
    rfl

/-- A write at the end extends the file. -/
theorem overwrite_length (file data : Bytes) : overwrite file file.length data = file ++ data := by
  unfold overwrite
  split
  · rename_i hd
    rw [hd, List.append_nil]
  · rw [List.take_length, Nat.sub_self, List.drop_eq_nil_iff.mpr (Nat.le_add_right _ _)]
    simp

/-- The three pieces of a file around a range inside it. -/
theorem exists_pieces {file : Bytes} {pos n : ℕ} (h : pos + n ≤ file.length) :
    ∃ pre old post, file = pre ++ old ++ post ∧ pre.length = pos ∧ old.length = n := by
  refine ⟨file.take pos, (file.drop pos).take n, (file.drop pos).drop n, ?_, ?_, ?_⟩
  · rw [List.append_assoc, List.take_append_drop, List.take_append_drop]
  · rw [List.length_take]
    omega
  · rw [List.length_take, List.length_drop]
    omega

/-- A write inside the file keeps its length. -/
theorem length_overwrite {file data : Bytes} {pos : ℕ} (h : pos + data.length ≤ file.length) :
    (overwrite file pos data).length = file.length := by
  obtain ⟨pre, old, post, rfl, rfl, hold⟩ := exists_pieces h
  rw [overwrite_append _ _ _ _ hold]
  simp only [List.length_append, hold]

/-- Outside the range that is written, nothing changes. -/
theorem getElem?_overwrite {file data : Bytes} {pos i : ℕ} (h : pos + data.length ≤ file.length)
    (hi : i < pos ∨ pos + data.length ≤ i) : (overwrite file pos data)[i]? = file[i]? := by
  obtain ⟨pre, old, post, rfl, rfl, hold⟩ := exists_pieces h
  rw [overwrite_append _ _ _ _ hold, List.append_assoc, List.append_assoc]
  rcases hi with hi | hi
  · rw [List.getElem?_append_left hi, List.getElem?_append_left hi]
  · have hpre : pre.length ≤ i := by omega
    have hdata : data.length ≤ i - pre.length := by omega
    rw [List.getElem?_append_right hpre, List.getElem?_append_right hpre,
      List.getElem?_append_right hdata, List.getElem?_append_right (by rwa [hold]), hold]

/-- Writing the same bytes again changes nothing. -/
theorem overwrite_overwrite {file data : Bytes} {pos : ℕ}
    (h : pos + data.length ≤ file.length) :
    overwrite (overwrite file pos data) pos data = overwrite file pos data := by
  obtain ⟨pre, old, post, rfl, rfl, hold⟩ := exists_pieces h
  rw [overwrite_append _ _ _ _ hold, overwrite_append _ _ _ _ rfl]

/-- A prefix of two pieces ends inside the first or contains it. -/
theorem prefix_append_cases {p xs ys : Bytes} (h : p <+: xs ++ ys) :
    p.length < xs.length ∨ ∃ q, p = xs ++ q ∧ q <+: ys := by
  rcases List.prefix_or_prefix_of_prefix h (List.prefix_append xs ys) with hp | ⟨q, rfl⟩
  · rcases Nat.lt_or_eq_of_le hp.length_le with hlt | heq
    · exact .inl hlt
    · exact .inr ⟨[], by rw [hp.eq_of_length heq, List.append_nil], List.nil_prefix⟩
  · exact .inr ⟨q, rfl, (List.prefix_append_right_inj xs).mp h⟩

/-- A prefix of a concatenation consists of whole pieces and a part of the
next one, which may be missing. -/
theorem prefix_flatMap_cases {ι : Type*} {frame : ι → Bytes} {xs : List ι} {p : Bytes}
    (h : p <+: xs.flatMap frame) :
    (∃ ys, ys <+: xs ∧ p = ys.flatMap frame) ∨
      ∃ ys x q, ys ++ [x] <+: xs ∧ p = ys.flatMap frame ++ q ∧ q <+: frame x ∧
      q ≠ frame x ∧ q ≠ [] := by
  induction xs generalizing p with
  | nil => exact .inl ⟨[], List.nil_prefix, List.prefix_nil.mp h⟩
  | cons x xs ih =>
    rw [List.flatMap_cons] at h
    rcases prefix_append_cases h with hshort | ⟨q, rfl, hq⟩
    · have hp := List.prefix_of_prefix_length_le h (List.prefix_append _ _) (Nat.le_of_lt hshort)
      by_cases hnil : p = []
      · exact .inl ⟨[], List.nil_prefix, hnil⟩
      · have hne : p ≠ frame x := fun heq => by
          rw [heq] at hshort
          exact Nat.lt_irrefl _ hshort
        exact .inr ⟨[], x, p, List.prefix_append [x] xs, rfl, hp, hne, hnil⟩
    · rcases ih hq with ⟨ys, hys, rfl⟩ | ⟨ys, y, r, hys, rfl, hr⟩
      · exact .inl ⟨x :: ys, (List.prefix_cons_inj x).mpr hys, rfl⟩
      · refine .inr ⟨x :: ys, y, r, (List.prefix_cons_inj x).mpr hys, ?_, hr⟩
        rw [List.flatMap_cons, List.append_assoc]

/-- Of pieces that can be told apart from their bytes, a sequence that begins
with the bytes of another one begins with its pieces. -/
theorem exists_of_flatMap_append {ι : Type*} {frame : ι → Bytes} (hne : ∀ x, frame x ≠ [])
    (hinj : ∀ x y xs ys, frame x ++ xs = frame y ++ ys → x = y) {xs ys : List ι} {p : Bytes}
    (h : xs.flatMap frame ++ p = ys.flatMap frame) : ∃ zs, ys = xs ++ zs ∧
      p = zs.flatMap frame := by
  induction xs generalizing ys with
  | nil => exact ⟨ys, rfl, h⟩
  | cons x xs ih =>
    cases ys with
    | nil =>
      rw [List.flatMap_cons, List.flatMap_nil, List.append_assoc] at h
      exact absurd (List.append_eq_nil_iff.mp h).1 (hne x)
    | cons y ys =>
      rw [List.flatMap_cons, List.flatMap_cons, List.append_assoc] at h
      obtain rfl := hinj x y _ _ h
      obtain ⟨zs, rfl, hp⟩ := ih (List.append_cancel_left h)
      exact ⟨zs, rfl, hp⟩

/-- Take bytes from the front of a stream that arrives in chunks; none when the
stream is too short. -/
def takeChunks : List Bytes → ℕ → Option (Bytes × List Bytes)
  | chunks, 0 => some ([], chunks)
  | [], _ + 1 => none
  | chunk :: chunks, n + 1 =>
    if n + 1 < chunk.length then some (chunk.take (n + 1), chunk.drop (n + 1) :: chunks)
    else (takeChunks chunks (n + 1 - chunk.length)).map fun out => (chunk ++ out.1, out.2)

/-- How the stream is cut into chunks does not matter. -/
theorem takeChunks_of_flatten {chunks : List Bytes} {xs ys : Bytes}
    (h : chunks.flatten = xs ++ ys) :
    ∃ rest, takeChunks chunks xs.length = some (xs, rest) ∧ rest.flatten = ys := by
  induction chunks generalizing xs with
  | nil =>
    obtain ⟨rfl, rfl⟩ := List.append_eq_nil_iff.mp h.symm
    exact ⟨[], rfl, rfl⟩
  | cons chunk chunks ih =>
    cases hn : xs.length with
    | zero =>
      rw [List.length_eq_zero_iff] at hn
      subst hn
      exact ⟨_, by rw [takeChunks], h⟩
    | succ n =>
      rw [takeChunks]
      rw [List.flatten_cons] at h
      split
      · rename_i hlt
        have htake : xs = chunk.take (n + 1) := by
          have := congrArg (List.take (n + 1)) h
          rwa [List.take_append_of_le_length (by omega), List.take_left' hn, eq_comm] at this
        refine ⟨_, by rw [htake], ?_⟩
        have := congrArg (List.drop (n + 1)) h
        rwa [List.drop_append_of_le_length (by omega), List.drop_left' hn] at this
      · rename_i hle
        obtain ⟨zs, rfl⟩ : ∃ zs, xs = chunk ++ zs := by
          rcases List.append_eq_append_iff.mp h with ⟨zs, hzs, -⟩ | ⟨zs, hzs, -⟩
          · exact ⟨zs, hzs⟩
          · have hlen := congrArg List.length hzs
            rw [List.length_append] at hlen
            have hzero : zs.length = 0 := by omega
            exact ⟨[], by
              rw [hzs, List.length_eq_zero_iff.mp hzero, List.append_nil, List.append_nil]⟩
        rw [List.append_assoc] at h
        obtain ⟨rest, htake, hrest⟩ := ih (List.append_cancel_left h)
        have hlen : n + 1 - chunk.length = zs.length := by
          rw [List.length_append] at hn
          omega
        exact ⟨rest, by rw [hlen, htake]; rfl, hrest⟩

/-- A read fails when too few bytes have come. -/
theorem takeChunks_eq_none {chunks : List Bytes} {n : ℕ} (h : chunks.flatten.length < n) :
    takeChunks chunks n = none := by
  induction chunks generalizing n with
  | nil =>
    cases n with
    | zero => cases h
    | succ n => rw [takeChunks]
  | cons chunk chunks ih =>
    rw [List.flatten_cons, List.length_append] at h
    cases n with
    | zero => cases h
    | succ n =>
      rw [takeChunks, if_neg (by omega), ih (by omega)]
      rfl

/-- A read takes as many bytes as it asks for. -/
theorem length_of_takeChunks {chunks rest : List Bytes} {bytes : Bytes} {n : ℕ}
    (h : takeChunks chunks n = some (bytes, rest)) : bytes.length = n := by
  by_cases hshort : chunks.flatten.length < n
  · rw [takeChunks_eq_none hshort] at h
    cases h
  · have hn : (chunks.flatten.take n).length = n := by
      rw [List.length_take]
      omega
    obtain ⟨rest', htake, -⟩ := takeChunks_of_flatten (List.take_append_drop n chunks.flatten).symm
    rw [hn, h] at htake
    cases htake
    exact hn

section Loop

variable {σ ι ε : Type*}

/-- At most `fuel` rounds of `while more { body? }`. -/
def loop (more : σ → Bool) (body : σ → Except ε σ) : ℕ → σ → Except ε σ
  | 0, s => .ok s
  | fuel + 1, s => if more s then body s >>= loop more body fuel else .ok s

/-- The states that a loop reaches, one for each completed round. -/
def loopStates (more : σ → Bool) (body : σ → Except ε σ) : ℕ → σ → List σ
  | 0, _ => []
  | fuel + 1, s =>
    if more s then
      match body s with
      | .ok t => t :: loopStates more body fuel t
      | .error _ => []
    else []

variable {more : σ → Bool} {body : σ → Except ε σ}

/-- A failing test ends the loop, whatever fuel is left. -/
theorem loop_stop {s : σ} (fuel : ℕ) (h : more s = false) : loop more body fuel s = .ok s := by
  cases fuel with
  | zero => rfl
  | succ fuel => rw [loop, h]; rfl

/-- A completed round can be taken off the front of the loop. -/
theorem loop_round {s t : σ} (fuel : ℕ) (hm : more s = true) (hb : body s = .ok t) :
    loop more body (fuel + 1) s = loop more body fuel t := by
  rw [loop, if_pos hm, hb]
  rfl

/-- A failing round makes the loop fail. -/
theorem loop_error {s : σ} {e : ε} (fuel : ℕ) (hm : more s = true) (hb : body s = .error e) :
    loop more body (fuel + 1) s = .error e := by
  rw [loop, if_pos hm, hb]
  rfl

/-- What every round keeps, the loop keeps. -/
theorem loop_invariant {I : σ → Prop} (hstep : ∀ s t, I s → body s = .ok t → I t)
    {fuel : ℕ} {s t : σ} (hs : I s) (h : loop more body fuel s = .ok t) : I t := by
  induction fuel generalizing s with
  | zero =>
    cases h
    exact hs
  | succ fuel ih =>
    cases hm : more s with
    | false =>
      rw [loop_stop _ hm] at h
      cases h
      exact hs
    | true =>
      cases hb : body s with
      | error e =>
        rw [loop_error _ hm hb] at h
        cases h
      | ok u =>
        rw [loop_round _ hm hb] at h
        exact ih (hstep _ _ hs hb) h

/-- A loop whose rounds never fail in one way does not either. -/
theorem loop_ne_error {e : ε} (hbody : ∀ s, body s ≠ .error e) (fuel : ℕ) (s : σ) :
    loop more body fuel s ≠ .error e := by
  induction fuel generalizing s with
  | zero =>
    intro h
    cases h
  | succ fuel ih =>
    intro h
    cases hm : more s with
    | false =>
      rw [loop_stop _ hm] at h
      cases h
    | true =>
      cases hb : body s with
      | error e' =>
        rw [loop_error _ hm hb] at h
        cases h
        exact hbody s hb
      | ok t =>
        rw [loop_round _ hm hb] at h
        exact ih t h

/-- A loop that reads one frame of its buffer in each round; `after` is the
state when a frame has been read. -/
structure Framed (more : σ → Bool) (body : σ → Except ε σ) (cursor : σ → Cursor)
    (frame : ι → Bytes) (after : σ → ι → σ) : Prop where
  /-- The loop runs while bytes remain. -/
  more_iff : ∀ s, more s = true ↔ (cursor s).rest ≠ []
  /-- Every round makes progress. -/
  frame_ne_nil : ∀ x, frame x ≠ []
  /-- Reading a frame moves the cursor behind it. -/
  cursor_after : ∀ s x, cursor (after s x) = (cursor s).advance (frame x).length
  /-- A frame at the cursor is read. -/
  body_of_rest : ∀ s x ys, (cursor s).rest = frame x ++ ys → body s = .ok (after s x)

namespace Framed

variable {cursor : σ → Cursor} {frame : ι → Bytes} {after : σ → ι → σ}

/-- Behind a frame stands what follows it. -/
theorem rest_after (F : Framed more body cursor frame after) {s : σ} {x : ι} {ys : Bytes}
    (h : (cursor s).rest = frame x ++ ys) : (cursor (after s x)).rest = ys := by
  rw [F.cursor_after, Cursor.rest_advance_of_append h rfl]

/-- One round reads the first frame and leaves the others. -/
theorem round (F : Framed more body cursor frame after) {s : σ} {x : ι} {ys : Bytes} (fuel : ℕ)
    (h : (cursor s).rest = frame x ++ ys) :
    loop more body (fuel + 1) s = loop more body fuel (after s x) := by
  refine loop_round fuel ((F.more_iff s).mpr ?_) (F.body_of_rest s x ys h)
  rw [h]
  simp [F.frame_ne_nil x]

/-- Some rounds read as many frames and leave what follows them. -/
theorem rounds (F : Framed more body cursor frame after) {s : σ} {xs : List ι} {ys : Bytes}
    (fuel : ℕ) (h : (cursor s).rest = xs.flatMap frame ++ ys) :
    loop more body (xs.length + fuel) s = loop more body fuel (xs.foldl after s) ∧
      (cursor (xs.foldl after s)).rest = ys := by
  induction xs generalizing s with
  | nil => exact ⟨by rw [List.length_nil, Nat.zero_add, List.foldl_nil], h⟩
  | cons x xs ih =>
    rw [List.flatMap_cons, List.append_assoc] at h
    obtain ⟨hloop, hrest⟩ := ih (F.rest_after h)
    refine ⟨?_, hrest⟩
    rw [List.length_cons, Nat.add_right_comm, F.round _ h, hloop, List.foldl_cons]

/-- No frame is empty. -/
theorem length_le (F : Framed more body cursor frame after) (xs : List ι) :
    xs.length ≤ (xs.flatMap frame).length := by
  induction xs with
  | nil => exact Nat.le_refl _
  | cons x xs ih =>
    have := List.length_pos_of_ne_nil (F.frame_ne_nil x)
    rw [List.length_cons, List.flatMap_cons, List.length_append]
    omega

/-- A buffer of whole frames is read to its end. -/
theorem loop_eq_ok (F : Framed more body cursor frame after) {s : σ} {xs : List ι} {fuel : ℕ}
    (hf : (cursor s).rest.length ≤ fuel) (h : (cursor s).rest = xs.flatMap frame) :
    loop more body fuel s = .ok (xs.foldl after s) := by
  have hlen := F.length_le xs
  obtain ⟨k, rfl⟩ : ∃ k, fuel = xs.length + k := ⟨fuel - xs.length, by rw [h] at hf; omega⟩
  have hs : (cursor s).rest = xs.flatMap frame ++ [] := by rw [h, List.append_nil]
  obtain ⟨hloop, hrest⟩ := F.rounds k hs
  have hm : more (xs.foldl after s) = false := by
    rw [← Bool.not_eq_true, F.more_iff, hrest]
    simp
  rw [hloop, loop_stop _ hm]

/-- What the rounds over whole frames leave in the state. -/
theorem map_loopStates (F : Framed more body cursor frame after) {β : Type*} (g : σ → β)
    (read : ι → β) (hg : ∀ s x, g (after s x) = read x) {s : σ} {xs : List ι} {fuel : ℕ}
    (hf : xs.length ≤ fuel) (h : (cursor s).rest = xs.flatMap frame) :
    (loopStates more body fuel s).map g = xs.map read := by
  induction xs generalizing s fuel with
  | nil =>
    have hm : more s = false := by
      rw [← Bool.not_eq_true, F.more_iff, h]
      simp
    cases fuel with
    | zero => rfl
    | succ fuel => rw [loopStates, hm]; rfl
  | cons x xs ih =>
    cases fuel with
    | zero => cases hf
    | succ fuel =>
      rw [List.flatMap_cons] at h
      have hm : more s = true := by
        rw [F.more_iff, h]
        simp [F.frame_ne_nil x]
      have hrest := ih (Nat.le_of_succ_le_succ hf) (F.rest_after h)
      rw [loopStates, if_pos hm, F.body_of_rest s x _ h]
      dsimp only
      rw [List.map_cons, hg, hrest, List.map_cons]

/-- Where the bytes behind some whole frames make a round fail, the loop
fails. -/
theorem loop_eq_error (F : Framed more body cursor frame after) {s : σ} {xs : List ι} {ys : Bytes}
    {e : ε} {fuel : ℕ} (hf : (cursor s).rest.length ≤ fuel)
    (h : (cursor s).rest = xs.flatMap frame ++ ys) (hys : ys ≠ [])
    (hb : body (xs.foldl after s) = .error e) : loop more body fuel s = .error e := by
  have hlen := F.length_le xs
  have hpos := List.length_pos_of_ne_nil hys
  obtain ⟨k, rfl⟩ : ∃ k, fuel = xs.length + (k + 1) := by
    refine ⟨fuel - xs.length - 1, ?_⟩
    rw [h, List.length_append] at hf
    omega
  obtain ⟨hloop, hrest⟩ := F.rounds (k + 1) h
  rw [hloop, loop_error k ((F.more_iff _).mpr (by rwa [hrest])) hb]

/-- When a round succeeds on nothing but a frame, the loop succeeds on whole
frames only. -/
theorem eq_of_loop_eq_ok (F : Framed more body cursor frame after)
    (hbody : ∀ s t, body s = .ok t → ∃ x ys, (cursor s).rest = frame x ++ ys ∧
      t = after s x)
    {s t : σ} {fuel : ℕ} (hf : (cursor s).rest.length ≤ fuel)
    (h : loop more body fuel s = .ok t) :
    ∃ xs : List ι, (cursor s).rest = xs.flatMap frame ∧ t = xs.foldl after s := by
  induction fuel generalizing s with
  | zero =>
    cases h
    exact ⟨[], List.length_eq_zero_iff.mp (Nat.le_zero.mp hf), rfl⟩
  | succ fuel ih =>
    cases hm : more s with
    | false =>
      rw [loop_stop _ hm] at h
      cases h
      refine ⟨[], ?_, rfl⟩
      by_contra hne
      rw [(F.more_iff _).mpr hne] at hm
      cases hm
    | true =>
      cases hb : body s with
      | error e =>
        rw [loop_error _ hm hb] at h
        cases h
      | ok u =>
        rw [loop_round _ hm hb] at h
        obtain ⟨x, ys, hrest, rfl⟩ := hbody _ _ hb
        have hys := F.rest_after hrest
        have hpos := List.length_pos_of_ne_nil (F.frame_ne_nil x)
        rw [hrest, List.length_append] at hf
        obtain ⟨xs, hxs, rfl⟩ := ih (by rw [hys]; omega) h
        refine ⟨x :: xs, ?_, rfl⟩
        rw [hrest, List.flatMap_cons, ← hxs, hys]

/-- When a round succeeds on nothing but a frame, the loop fails exactly where
a round behind some whole frames does. -/
theorem loop_eq_error_iff (F : Framed more body cursor frame after)
    (hbody : ∀ s t, body s = .ok t → ∃ x ys, (cursor s).rest = frame x ++ ys ∧
      t = after s x)
    {s : σ} {e : ε} {fuel : ℕ} (hf : (cursor s).rest.length ≤ fuel) :
    loop more body fuel s = .error e ↔ ∃ (xs : List ι) (ys : Bytes),
      (cursor s).rest = xs.flatMap frame ++ ys ∧ ys ≠ [] ∧
        body (xs.foldl after s) = .error e := by
  constructor
  · intro h
    induction fuel generalizing s with
    | zero => cases h
    | succ fuel ih =>
      cases hm : more s with
      | false =>
        rw [loop_stop _ hm] at h
        cases h
      | true =>
        cases hb : body s with
        | error e' =>
          rw [loop_error _ hm hb] at h
          cases h
          exact ⟨[], (cursor s).rest, rfl, (F.more_iff s).mp hm, hb⟩
        | ok u =>
          rw [loop_round _ hm hb] at h
          obtain ⟨x, ys, hrest, rfl⟩ := hbody _ _ hb
          have hys := F.rest_after hrest
          have hpos := List.length_pos_of_ne_nil (F.frame_ne_nil x)
          rw [hrest, List.length_append] at hf
          obtain ⟨xs, zs, hxs, hzs, herror⟩ := ih (by rw [hys]; omega) h
          refine ⟨x :: xs, zs, ?_, hzs, herror⟩
          rw [hrest, List.flatMap_cons, List.append_assoc, ← hxs, hys]
  · rintro ⟨xs, ys, hrest, hys, herror⟩
    exact F.loop_eq_error hf hrest hys herror

end Framed

end Loop

end PeachDB
