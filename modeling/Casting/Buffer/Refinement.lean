import Casting.Buffer
import Casting.Framework.Refinement

/-!
# Buffers are byte stores

A buffer holds as many bytes as `last` counts, in its array or in an allocated block, whatever was
written, reserved, sought and read before and however often it grew.
-/

namespace Casting

open Refinement

/-- Bytes and a position among them. -/
structure ByteStore where
  bytes : List Byte
  cursor : ℕ
  deriving DecidableEq, Repr

/-- What a call is to return and to leave.  Reserved bytes may be any. -/
def ByteStore.Permits (m : ByteStore) : BufferCall → BufferResult → ByteStore → Prop
  | .write _ p, r, m' =>
      r = .code .success ∧ m' = ⟨Bytes.splice m.bytes m.cursor p, m.cursor + p.length⟩
  | .writeAt _ pos p, r, m' => r = .code .success ∧ m' = ⟨Bytes.splice m.bytes pos p, m.cursor⟩
  | .read size, r, m' =>
      if m.cursor + size ≤ m.bytes.length then
        r = .bytes (some ((m.bytes.drop m.cursor).take size)) ∧ m' = ⟨m.bytes, m.cursor + size⟩
      else r = .bytes none ∧ m' = m
  | .readFrom pos size, r, m' =>
      m' = m ∧
        if pos + size ≤ m.bytes.length then r = .bytes (some ((m.bytes.drop pos).take size))
        else r = .bytes none
  | .reserve _ size, r, m' =>
      r = .room (some m.cursor) ∧
        ∃ fresh : List Byte, fresh.length = m.cursor + size - m.bytes.length ∧
          m' = ⟨m.bytes ++ fresh, m.cursor + size⟩
  | .seek pos, r, m' =>
      if pos ≤ m.bytes.length then r = .code .success ∧ m' = ⟨m.bytes, pos⟩
      else r = .code .errOverflow ∧ m' = m

/-- A call whose allocation succeeds, with a sum that a signed size holds, and that does not leave
a gap behind the bytes. -/
def Buffer.Allows (b : Buffer) : BufferCall → Prop
  | .write alloc p => alloc ≠ none ∧ b.pos + p.length < 2 ^ 63
  | .writeAt alloc pos p => alloc ≠ none ∧ pos ≤ b.last ∧ pos + p.length < 2 ^ 63
  | .read size => b.pos + size < 2 ^ 63
  | .readFrom pos size => pos + size < 2 ^ 63
  | .reserve alloc size => alloc ≠ none ∧ b.pos + size < 2 ^ 63
  | .seek _ => True

structure Buffer.Holds (b : Buffer) (m : ByteStore) : Prop where
  last : b.last = m.bytes.length
  pos : b.pos = m.cursor
  cursor : m.cursor ≤ m.bytes.length
  room : b.last ≤ b.size
  memory : b.memory.length = b.size
  bytes : b.memory.take b.last = m.bytes

theorem sizeAdd_eq {x y : ℕ} (h : x + y < 2 ^ 63) : sizeAdd x y = x + y :=
  Nat.mod_eq_of_lt (by omega)

@[simp]
theorem length_block (content : ℕ → Byte) (size : ℕ) : (block content size).length = size := by
  simp [block]

namespace Buffer

variable {b : Buffer} {m : ByteStore}

theorem holds_bufInit (own : ℕ → Byte) : (bufInit own).Holds ⟨[], 0⟩ := by
  constructor
  case memory => simp [bufInit, Buffer.memory]
  all_goals simp [bufInit]

@[simp]
theorem memory_setMemory (b : Buffer) (memory : List Byte) :
    (b.setMemory memory).memory = memory := by
  unfold setMemory
  cases b.heap <;> simp [Buffer.memory]

@[simp]
theorem size_setMemory (b : Buffer) (memory : List Byte) :
    (b.setMemory memory).size = b.size := by
  unfold setMemory
  cases b.heap <;> rfl

@[simp]
theorem pos_setMemory (b : Buffer) (memory : List Byte) : (b.setMemory memory).pos = b.pos := by
  unfold setMemory
  cases b.heap <;> rfl

/-! ## Growing -/

theorem growSize_ends {end_ fuel size : ℕ} (hend : end_ < 2 ^ 63) (hfuel : end_ ≤ fuel + size) :
    ∃ size', growSize end_ fuel size = some size' ∧ end_ ≤ size' ∧ size ≤ size' := by
  induction fuel generalizing size with
  | zero =>
    have hge : ¬ size < end_ := by omega
    exact ⟨size, by rw [growSize, if_neg hge], by omega, le_rfl⟩
  | succ fuel ih =>
    by_cases hlt : size < end_
    · have hnext : sizeAdd (sizeAdd size (size / 2)) 8 = size + size / 2 + 8 := by
        unfold sizeAdd
        omega
      have hless : end_ ≤ fuel + sizeAdd (sizeAdd size (size / 2)) 8 := by omega
      obtain ⟨size', hsize', hend', hle⟩ := ih hless
      exact ⟨size', by rw [growSize, if_pos hlt, hsize'], hend', by omega⟩
    · exact ⟨size, by rw [growSize, if_neg hlt], by omega, le_rfl⟩

/-- There is room for what was asked for, and the bytes are as they were. -/
structure Grown (b b' : Buffer) (end_ : ℕ) : Prop where
  end_le : end_ ≤ b'.size
  size : b.size ≤ b'.size
  last : b'.last = b.last
  pos : b'.pos = b.pos
  memory : b'.memory.length = b'.size
  bytes : b'.memory.take b.last = b.memory.take b.last

theorem Holds.grown (h : b.Holds m) {b' : Buffer} {end_ : ℕ} (hgrown : Grown b b' end_) :
    b'.Holds m where
  last := hgrown.last.trans h.last
  pos := hgrown.pos.trans h.pos
  cursor := h.cursor
  room := by
    rw [hgrown.last]
    exact h.room.trans hgrown.size
  memory := hgrown.memory
  bytes := by rw [hgrown.last, hgrown.bytes, h.bytes]

theorem Holds.grow (h : b.Holds m) {fuel end_ : ℕ} (hfuel : 2 ^ 63 ≤ fuel)
    (hend : end_ < 2 ^ 63) (content : ℕ → Byte) :
    ∃ b', b.grow fuel (some content) end_ = some (b', .success) ∧ Grown b b' end_ := by
  by_cases hle : end_ ≤ b.size
  · refine ⟨b, by rw [Buffer.grow, if_pos hle], hle, le_rfl, rfl, rfl, h.memory, rfl⟩
  · have hends : end_ ≤ fuel + b.size := by omega
    obtain ⟨size, hsize, hend', hle'⟩ := growSize_ends hend hends
    have hroom := h.room
    have hmemory := h.memory
    have hlast : b.last ≤ b.memory.length := by omega
    have hdata : Bytes.read b.memory 0 b.last = some (b.memory.take b.last) := by
      rw [Bytes.read, if_pos (by omega), List.drop_zero]
    have hlength : (b.memory.take b.last).length = b.last := List.length_take_of_le hlast
    have hwrite : Bytes.write (block content size) 0 (b.memory.take b.last) =
        some (Bytes.splice (block content size) 0 (b.memory.take b.last)) := by
      rw [Bytes.write, if_pos]
      rw [hlength, length_block]
      omega
    refine ⟨{ b with
        heap := some (Bytes.splice (block content size) 0 (b.memory.take b.last)), size := size },
      ?_, ⟨hend', hle', rfl, rfl, ?_, ?_⟩⟩
    · rw [Buffer.grow, if_neg hle]
      simp only [hsize, hdata, hwrite, Option.bind_eq_bind, Option.bind_some]
    · change (Bytes.splice (block content size) 0 (b.memory.take b.last)).length = size
      rw [Bytes.length_splice (Nat.zero_le _), hlength, length_block]
      omega
    · change (Bytes.splice (block content size) 0 (b.memory.take b.last)).take b.last = _
      rw [Bytes.splice, List.take_zero, List.nil_append, List.take_append_of_le_length hlength.ge,
        List.take_take, Nat.min_self]

theorem Holds.ensure (h : b.Holds m) {fuel p s : ℕ} (hfuel : 2 ^ 63 ≤ fuel)
    (hsum : p + s < 2 ^ 63) {alloc : Allocation} (halloc : alloc ≠ none) :
    ∃ b', b.ensure fuel alloc p s = some (b', .success) ∧ p + s ≤ b'.size ∧ b'.Holds m ∧
      b'.pos = b.pos ∧ b'.last = b.last := by
  obtain ⟨content, rfl⟩ := Option.ne_none_iff_exists'.mp halloc
  rw [Buffer.ensure, sizeAdd_eq hsum]
  by_cases hroom : b.size < p + s
  · rw [if_pos hroom]
    obtain ⟨b', hgrow, hgrown⟩ := h.grow hfuel hsum content
    exact ⟨b', hgrow, hgrown.end_le, h.grown hgrown, hgrown.pos, hgrown.last⟩
  · rw [if_neg hroom]
    exact ⟨b, rfl, not_lt.mp hroom, h, rfl, rfl⟩

/-! ## The functions -/

theorem Holds.splice (h : b.Holds m) {pos : ℕ} {p : List Byte} (hpos : pos ≤ b.last)
    (hroom : pos + p.length ≤ b.size) :
    ∃ memory, Bytes.write b.memory pos p = some memory ∧
      ({ b.setMemory memory with last := max b.last (pos + p.length) } : Buffer).Holds
        ⟨Bytes.splice m.bytes pos p, m.cursor⟩ := by
  have hmemory := h.memory
  have hlast := h.last
  have hcursor := h.cursor
  have hfits := h.room
  have hlength : (Bytes.splice m.bytes pos p).length = max b.last (pos + p.length) := by
    rw [Bytes.length_splice (by omega), hlast]
  refine ⟨Bytes.splice b.memory pos p, by rw [Bytes.write, if_pos (by omega)], ?_⟩
  constructor
  · exact hlength.symm
  · exact (pos_setMemory _ _).trans h.pos
  · change m.cursor ≤ (Bytes.splice m.bytes pos p).length
    omega
  · change max b.last (pos + p.length) ≤ (b.setMemory _).size
    rw [size_setMemory]
    omega
  · change (b.setMemory _).memory.length = (b.setMemory _).size
    rw [memory_setMemory, size_setMemory, Bytes.length_splice (by omega)]
    omega
  · change (b.setMemory _).memory.take (max b.last (pos + p.length)) = _
    rw [memory_setMemory, Bytes.take_splice hpos (by omega), h.bytes]

theorem Holds.bufWriteAt (h : b.Holds m) {fuel pos : ℕ} {p : List Byte} (hfuel : 2 ^ 63 ≤ fuel)
    {alloc : Allocation} (halloc : alloc ≠ none) (hpos : pos ≤ b.last)
    (hsum : pos + p.length < 2 ^ 63) :
    ∃ b', Casting.bufWriteAt fuel alloc b pos p = some (b', .success) ∧
      b'.Holds ⟨Bytes.splice m.bytes pos p, m.cursor⟩ := by
  obtain ⟨b₁, hensure, hroom, hholds, -, hlast⟩ := h.ensure hfuel hsum halloc
  obtain ⟨memory, hwrite, hholds'⟩ := hholds.splice (hlast ▸ hpos) hroom
  refine ⟨_, ?_, hholds'⟩
  simp only [Casting.bufWriteAt, hensure, hwrite, sizeAdd_eq hsum, Option.bind_eq_bind,
    Option.bind_some, ne_eq, not_true_eq_false, if_false]

theorem Holds.bufWrite (h : b.Holds m) {fuel : ℕ} {p : List Byte} (hfuel : 2 ^ 63 ≤ fuel)
    {alloc : Allocation} (halloc : alloc ≠ none) (hsum : b.pos + p.length < 2 ^ 63) :
    ∃ b', Casting.bufWrite fuel alloc b p = some (b', .success) ∧
      b'.Holds ⟨Bytes.splice m.bytes m.cursor p, m.cursor + p.length⟩ := by
  have hpos := h.pos
  have hcursor := h.cursor
  have hlast := h.last
  obtain ⟨b₁, hwrite, hholds⟩ := h.bufWriteAt hfuel halloc (by omega) hsum
  have hpos₁ : b₁.pos = b.pos := by rw [hholds.pos, hpos]
  refine ⟨{ b₁ with pos := b.pos + p.length }, ?_, ?_⟩
  · simp only [Casting.bufWrite, hwrite, hpos₁, sizeAdd_eq hsum, Option.bind_eq_bind,
      Option.bind_some, ne_eq, not_true_eq_false, if_false]
  · rw [hpos] at hholds ⊢
    refine ⟨hholds.last, rfl, ?_, hholds.room, hholds.memory, hholds.bytes⟩
    change m.cursor + p.length ≤ (Bytes.splice m.bytes m.cursor p).length
    rw [Bytes.length_splice hcursor]
    exact le_max_right _ _

theorem Holds.bufReserve (h : b.Holds m) {fuel size : ℕ} (hfuel : 2 ^ 63 ≤ fuel)
    {alloc : Allocation} (halloc : alloc ≠ none) (hsum : b.pos + size < 2 ^ 63) :
    ∃ b' fresh, Casting.bufReserve fuel alloc b size = some (b', some m.cursor) ∧
      fresh.length = m.cursor + size - m.bytes.length ∧
      b'.Holds ⟨m.bytes ++ fresh, m.cursor + size⟩ := by
  obtain ⟨b₁, hensure, hroom, hholds, hpos, hlast⟩ := h.ensure hfuel hsum halloc
  have hpos₁ := hholds.pos
  have hsum₁ : m.cursor + size < 2 ^ 63 := by omega
  have hlast₁ := hholds.last
  have hmemory₁ := hholds.memory
  have hfits₁ := hholds.room
  -- what has not been written yet is what the block was found with
  let fresh := (b₁.memory.take (max b₁.last (b₁.pos + size))).drop b₁.last
  have hfresh : fresh.length = m.cursor + size - m.bytes.length := by
    rw [List.length_drop, List.length_take]
    omega
  refine ⟨{ b₁ with pos := b₁.pos + size, last := max b₁.last (b₁.pos + size) }, fresh, ?_, hfresh,
    ?_⟩
  · simp only [Casting.bufReserve, hensure, sizeAdd_eq hsum₁, hpos₁, Option.bind_eq_bind,
      Option.bind_some, ne_eq, not_true_eq_false, if_false]
  · have hbytes : b₁.memory.take (max b₁.last (b₁.pos + size)) = m.bytes ++ fresh := by
      rw [← hholds.bytes]
      have hfront : b₁.memory.take b₁.last =
          (b₁.memory.take (max b₁.last (b₁.pos + size))).take b₁.last := by
        rw [List.take_take, Nat.min_eq_left (le_max_left _ _)]
      rw [hfront, List.take_append_drop]
    constructor
    · change max b₁.last (b₁.pos + size) = (m.bytes ++ fresh).length
      rw [List.length_append, hfresh]
      omega
    · change b₁.pos + size = m.cursor + size
      rw [hpos₁]
    · change m.cursor + size ≤ (m.bytes ++ fresh).length
      rw [List.length_append, hfresh]
      omega
    · change max b₁.last (b₁.pos + size) ≤ b₁.size
      omega
    · exact hmemory₁
    · exact hbytes

theorem Holds.found_some (h : b.Holds m) {pos size : ℕ} (hfits : pos + size ≤ m.bytes.length) :
    b.found (some pos) size = some (.bytes (some ((m.bytes.drop pos).take size))) := by
  have hlast := h.last
  have hroom := h.room
  have hmemory := h.memory
  have hread : Bytes.read b.memory pos size = some ((m.bytes.drop pos).take size) := by
    rw [Bytes.read_take (n := b.last) (by omega) (by omega), h.bytes]
  rw [found, hread, Option.map_some]

theorem Holds.bufReadFrom (h : b.Holds m) {pos size : ℕ} (hsum : pos + size < 2 ^ 63) :
    Casting.bufReadFrom b pos size = if pos + size ≤ m.bytes.length then some pos else none := by
  rw [Casting.bufReadFrom, check, sizeAdd_eq hsum, h.last]
  by_cases hfits : pos + size ≤ m.bytes.length
  · rw [if_neg (not_lt.mpr hfits), if_pos rfl, if_pos hfits]
  · rw [if_pos (not_le.mp hfits), if_neg ReturnCode.noConfusion, if_neg hfits]

theorem Holds.bufRelease (h : b.Holds m) (content : ℕ → Byte) :
    ∃ p, Casting.bufRelease (some content) b = some p ∧ p.take b.last = m.bytes := by
  rw [Casting.bufRelease]
  cases hheap : b.heap with
  | some n =>
    refine ⟨n, rfl, ?_⟩
    rw [← h.bytes, Buffer.memory, hheap, Option.getD_some]
  | none =>
    have hroom := h.room
    have hmemory := h.memory
    have hlength : m.bytes.length = b.last := h.last.symm
    have hdata : Bytes.read b.memory 0 b.last = some m.bytes := by
      rw [Bytes.read, if_pos (by omega), List.drop_zero, h.bytes]
    have hwrite : Bytes.write (block content b.last) 0 m.bytes = some m.bytes := by
      rw [Bytes.write, if_pos (by rw [length_block]; omega), Bytes.splice, List.take_zero,
        List.nil_append, List.drop_eq_nil_of_le (by rw [length_block]; omega), List.append_nil]
    refine ⟨m.bytes, ?_, List.take_of_length_le hlength.le⟩
    simp only [hdata, hwrite, Option.bind_eq_bind, Option.bind_some]

/-! ## Calls -/

def Answers (fuel : ℕ) (b : Buffer) (m : ByteStore) (c : BufferCall) : Prop :=
  ∃ b' r m', b.call fuel c = some (b', r) ∧ m.Permits c r m' ∧ b'.Holds m'

theorem Holds.answers_read (h : b.Holds m) {fuel size : ℕ} (hsum : b.pos + size < 2 ^ 63) :
    Answers fuel b m (.read size) := by
  have hpos := h.pos
  have hfrom := h.bufReadFrom hsum
  by_cases hfits : m.cursor + size ≤ m.bytes.length
  · have hread : bufRead b size = ({ b with pos := b.pos + size }, some b.pos) := by
      rw [bufRead, hfrom, hpos, if_pos hfits, ← hpos, sizeAdd_eq hsum]
    have hholds : ({ b with pos := b.pos + size } : Buffer).Holds ⟨m.bytes, m.cursor + size⟩ :=
      ⟨h.last, congrArg (· + size) hpos, hfits, h.room, h.memory, h.bytes⟩
    have hfound := hholds.found_some hfits
    refine ⟨{ b with pos := b.pos + size }, .bytes (some ((m.bytes.drop m.cursor).take size)), _,
      ?_, ?_, hholds⟩
    · rw [call, hread]
      simp only [hpos] at hfound ⊢
      rw [hfound]
      rfl
    · rw [ByteStore.Permits, if_pos hfits]
      exact ⟨rfl, rfl⟩
  · have hread : bufRead b size = (b, none) := by
      rw [bufRead, hfrom, hpos, if_neg hfits]
    refine ⟨b, .bytes none, m, ?_, ?_, h⟩
    · rw [call, hread]
      rfl
    · rw [ByteStore.Permits, if_neg hfits]
      exact ⟨rfl, rfl⟩

theorem Holds.answers_readFrom (h : b.Holds m) {fuel pos size : ℕ} (hsum : pos + size < 2 ^ 63) :
    Answers fuel b m (.readFrom pos size) := by
  have hfrom := h.bufReadFrom hsum
  by_cases hfits : pos + size ≤ m.bytes.length
  · rw [if_pos hfits] at hfrom
    refine ⟨b, _, m, by rw [call, hfrom, h.found_some hfits]; rfl, ?_, h⟩
    rw [ByteStore.Permits, if_pos hfits]
    exact ⟨rfl, rfl⟩
  · rw [if_neg hfits] at hfrom
    refine ⟨b, .bytes none, m, by rw [call, hfrom]; rfl, ?_, h⟩
    rw [ByteStore.Permits, if_neg hfits]
    exact ⟨rfl, rfl⟩

theorem Holds.answers_seek (h : b.Holds m) (fuel pos : ℕ) : Answers fuel b m (.seek pos) := by
  have hlast := h.last
  by_cases hfits : pos ≤ m.bytes.length
  · have hseek : bufSeek b pos = ({ b with pos := pos }, .success) := by
      rw [bufSeek, hlast, if_neg (not_lt.mpr hfits)]
    refine ⟨{ b with pos := pos }, .code .success, ⟨m.bytes, pos⟩, ?_, ?_, ?_⟩
    · rw [call, hseek]
    · rw [ByteStore.Permits, if_pos hfits]
      exact ⟨rfl, rfl⟩
    · exact ⟨hlast, rfl, hfits, h.room, h.memory, h.bytes⟩
  · have hseek : bufSeek b pos = (b, .errOverflow) := by
      rw [bufSeek, hlast, if_pos (not_le.mp hfits)]
    refine ⟨b, .code .errOverflow, m, ?_, ?_, h⟩
    · rw [call, hseek]
    · rw [ByteStore.Permits, if_neg hfits]
      exact ⟨rfl, rfl⟩

theorem holds_call {fuel : ℕ} (hfuel : 2 ^ 63 ≤ fuel) (b : Buffer) (m : ByteStore)
    (c : BufferCall) (hholds : b.Holds m) (hallows : b.Allows c) : Answers fuel b m c := by
  cases c with
  | write alloc p =>
    obtain ⟨b', hwrite, hholds'⟩ := hholds.bufWrite hfuel hallows.1 hallows.2
    exact ⟨b', .code .success, _, by rw [call, hwrite]; rfl, ⟨rfl, rfl⟩, hholds'⟩
  | writeAt alloc pos p =>
    obtain ⟨b', hwrite, hholds'⟩ := hholds.bufWriteAt hfuel hallows.1 hallows.2.1 hallows.2.2
    exact ⟨b', .code .success, _, by rw [call, hwrite]; rfl, ⟨rfl, rfl⟩, hholds'⟩
  | read size => exact hholds.answers_read hallows
  | readFrom pos size => exact hholds.answers_readFrom hallows
  | reserve alloc size =>
    obtain ⟨b', fresh, hreserve, hlength, hholds'⟩ := hholds.bufReserve hfuel hallows.1 hallows.2
    exact ⟨b', .room (some m.cursor), _, by rw [call, hreserve]; rfl, ⟨rfl, fresh, hlength, rfl⟩,
      hholds'⟩
  | seek pos => exact hholds.answers_seek fuel pos

theorem Holds.dump {bytes : List Byte} (h : b.Holds ⟨bytes, bytes.length⟩) {fuel : ℕ}
    (hfuel : 2 ^ 63 ≤ fuel) {chunks : List (Allocation × List Byte)}
    (halloc : ∀ chunk ∈ chunks, chunk.1 ≠ none)
    (hsum : bytes.length + (chunks.flatMap Prod.snd).length < 2 ^ 63) :
    ∃ b', Casting.dump fuel b chunks = some b' ∧
      b'.Holds ⟨bytes ++ chunks.flatMap Prod.snd, (bytes ++ chunks.flatMap Prod.snd).length⟩ := by
  induction chunks generalizing b bytes with
  | nil => exact ⟨b, rfl, by simpa using h⟩
  | cons chunk chunks ih =>
    obtain ⟨alloc, p⟩ := chunk
    rw [List.flatMap_cons, List.length_append] at hsum
    change bytes.length + (p.length + _) < 2 ^ 63 at hsum
    have hpos := h.pos
    change b.pos = bytes.length at hpos
    obtain ⟨b₁, hwrite, hholds⟩ :=
      h.bufWrite (p := p) hfuel (halloc (alloc, p) List.mem_cons_self) (by omega)
    change b₁.Holds ⟨Bytes.splice bytes bytes.length p, bytes.length + p.length⟩ at hholds
    rw [Bytes.splice_end, ← List.length_append] at hholds
    obtain ⟨b', hdump, hholds'⟩ := ih hholds (fun c hc => halloc c (List.mem_cons_of_mem _ hc))
      (by rw [List.length_append]; omega)
    refine ⟨b', ?_, ?_⟩
    · simp only [Casting.dump, functionWriter, hwrite, Option.map_some, Option.bind_eq_bind,
        Option.bind_some, hdump]
    · rw [List.flatMap_cons, ← List.append_assoc]
      exact hholds'

end Buffer

/-- Whatever is called on a new buffer, it is the byte store that the calls make of an empty one,
and `buf_release` returns its bytes; `grow` comes to its end.  What is written in chunks is
released as one string. -/
theorem buffer_refines_store (fuel : ℕ) (hfuel : 2 ^ 63 ≤ fuel) (own : ℕ → Byte) :
    (∀ calls, Allowed (Buffer.call fuel) Buffer.Allows (bufInit own) calls →
      ∃ b rs m, results (Buffer.call fuel) (bufInit own) calls = some (b, rs) ∧
        Permits ByteStore.Permits ⟨[], 0⟩ calls rs m ∧
        b.last ≤ b.size ∧ b.pos ≤ b.last ∧ b.last = m.bytes.length ∧ b.pos = m.cursor ∧
        b.memory.take b.last = m.bytes ∧
        (∀ content, ∃ p, bufRelease (some content) b = some p ∧ p.take b.last = m.bytes) ∧
        ∀ end_ < 2 ^ 63, ∀ content, ∃ b', b.grow fuel (some content) end_ = some (b', .success) ∧
          end_ ≤ b'.size) ∧
      ∀ chunks : List (Allocation × List Byte), (∀ chunk ∈ chunks, chunk.1 ≠ none) →
        (chunks.flatMap Prod.snd).length < 2 ^ 63 →
        ∃ b, dump fuel (bufInit own) chunks = some b ∧
          b.last = (chunks.flatMap Prod.snd).length ∧
          ∀ content, ∃ p, bufRelease (some content) b = some p ∧
            p.take b.last = chunks.flatMap Prod.snd := by
  constructor
  · intro calls hallowed
    obtain ⟨b, rs, m, hresults, hpermits, hholds⟩ :=
      results_permitted (R := fun b m _ => Buffer.Holds b m)
        (fun b m c _ => Buffer.holds_call hfuel b m c) (Buffer.holds_bufInit own) hallowed
    refine ⟨b, rs, m, hresults, hpermits, hholds.room, ?_, hholds.last, hholds.pos, hholds.bytes,
      hholds.bufRelease, ?_⟩
    · rw [hholds.pos, hholds.last]
      exact hholds.cursor
    · intro end_ hend content
      obtain ⟨b', hgrow, hgrown⟩ := hholds.grow hfuel hend content
      exact ⟨b', hgrow, hgrown.end_le⟩
  · intro chunks halloc hsum
    have hstart : (bufInit own).Holds ⟨[], ([] : List Byte).length⟩ := Buffer.holds_bufInit own
    obtain ⟨b, hdump, hholds⟩ := hstart.dump hfuel halloc (by simpa using hsum)
    rw [List.nil_append] at hholds
    exact ⟨b, hdump, hholds.last, hholds.bufRelease⟩

/-- More bytes than the array holds, more bytes from the middle of them on, and a byte of the
first ones. -/
def growingCalls : List BufferCall :=
  [.write (some fun _ => 0) (List.replicate (bufferSize + 1) 7),
    .writeAt (some fun _ => 1) 300 (List.replicate bufferSize 8), .seek 0, .read 1]

theorem allowed_growingCalls :
    Allowed (Buffer.call (2 ^ 63)) Buffer.Allows (bufInit fun _ => 0) growingCalls := by
  have hstart := Buffer.holds_bufInit fun _ => 0
  have hwrite : (bufInit fun _ => 0).Allows
      (.write (some fun _ => 0) (List.replicate (bufferSize + 1) 7)) := by
    refine ⟨Option.some_ne_none _, ?_⟩
    rw [List.length_replicate]
    decide
  obtain ⟨b, r, m, hcall, ⟨-, rfl⟩, hholds⟩ := Buffer.holds_call le_rfl _ _ _ hstart hwrite
  have hlast : b.last = bufferSize + 1 := by
    rw [hholds.last, Bytes.length_splice (Nat.zero_le _), List.length_replicate]
    rfl
  have hwriteAt : b.Allows (.writeAt (some fun _ => 1) 300 (List.replicate bufferSize 8)) := by
    refine ⟨Option.some_ne_none _, by rw [hlast]; decide, ?_⟩
    rw [List.length_replicate]
    decide
  obtain ⟨b', r', m', hcall', -, hholds'⟩ := Buffer.holds_call le_rfl _ _ _ hholds hwriteAt
  have hseek : b'.Allows (.seek 0) := trivial
  obtain ⟨b'', r'', m'', hcall'', hpermits, hholds''⟩ :=
    Buffer.holds_call le_rfl _ _ _ hholds' hseek
  rw [ByteStore.Permits, if_pos (Nat.zero_le _)] at hpermits
  obtain ⟨-, rfl⟩ := hpermits
  have hread : b''.Allows (.read 1) := by
    rw [Buffer.Allows, hholds''.pos]
    exact Nat.one_lt_two_pow (by decide)
  exact .cons hwrite hcall (.cons hwriteAt hcall' (.cons hseek hcall''
    ⟨hread, fun _ _ => trivial⟩))

theorem buffer_refines_store_growing :
    ∃ b rs m, results (Buffer.call (2 ^ 63)) (bufInit fun _ => 0) growingCalls = some (b, rs) ∧
      Permits ByteStore.Permits ⟨[], 0⟩ growingCalls rs m ∧
      b.last ≤ b.size ∧ b.pos ≤ b.last ∧ b.last = m.bytes.length ∧ b.pos = m.cursor ∧
      b.memory.take b.last = m.bytes ∧
      (∀ content, ∃ p, bufRelease (some content) b = some p ∧ p.take b.last = m.bytes) ∧
      ∀ end_ < 2 ^ 63, ∀ content, ∃ b',
        b.grow (2 ^ 63) (some content) end_ = some (b', .success) ∧ end_ ≤ b'.size :=
  (buffer_refines_store (2 ^ 63) le_rfl fun _ => 0).1 growingCalls allowed_growingCalls

end Casting
