import Mathlib.Data.BitVec
import Mathlib.Data.Nat.Bits
import Mathlib.Tactic.Ring

/-!
# Machine words in byte memory

A word is stored as its bytes, least significant first, and memory is read at a position; a
read that leaves the memory has no result.  Reading where a word was stored gives it back.
-/

namespace Casting

abbrev Byte := BitVec 8

namespace Bytes

def littleEndian : ℕ → ℕ → List Byte
  | 0, _ => []
  | n + 1, x => BitVec.ofNat 8 x :: littleEndian n (x / 256)

def ofLittleEndian : List Byte → ℕ
  | [] => 0
  | b :: bs => b.toNat + 256 * ofLittleEndian bs

@[simp]
theorem length_littleEndian (n x : ℕ) : (littleEndian n x).length = n := by
  induction n generalizing x with
  | zero => rfl
  | succ n ih => simp [littleEndian, ih]

theorem ofLittleEndian_littleEndian (n x : ℕ) :
    ofLittleEndian (littleEndian n x) = x % 256 ^ n := by
  induction n generalizing x with
  | zero => simp [littleEndian, ofLittleEndian, Nat.mod_one]
  | succ n ih =>
    rw [littleEndian, ofLittleEndian, ih, BitVec.toNat_ofNat, pow_succ' 256 n, Nat.mod_mul]

/-- The bytes of a word of `n` bytes. -/
def ofWord (n : ℕ) (x : BitVec (8 * n)) : List Byte := littleEndian n x.toNat

def toWord (n : ℕ) (bs : List Byte) : BitVec (8 * n) := BitVec.ofNat (8 * n) (ofLittleEndian bs)

@[simp]
theorem length_ofWord (n : ℕ) (x : BitVec (8 * n)) : (ofWord n x).length = n :=
  length_littleEndian n x.toNat

@[simp]
theorem toWord_ofWord (n : ℕ) (x : BitVec (8 * n)) : toWord n (ofWord n x) = x := by
  have hbase : (256 : ℕ) ^ n = 2 ^ (8 * n) := by
    rw [pow_mul]
    norm_num
  unfold toWord ofWord
  rw [ofLittleEndian_littleEndian, hbase, Nat.mod_eq_of_lt x.isLt, BitVec.ofNat_toNat,
    BitVec.setWidth_eq]

/-! ## Memory -/

/-- The `n` bytes from position `p` on. -/
def read (memory : List Byte) (p n : ℕ) : Option (List Byte) :=
  if p + n ≤ memory.length then some ((memory.drop p).take n) else none

def readWord (memory : List Byte) (p n : ℕ) : Option (BitVec (8 * n)) :=
  (read memory p n).map (toWord n)

/-- `bs` in the place of what stands from position `p` on. -/
def splice (memory : List Byte) (p : ℕ) (bs : List Byte) : List Byte :=
  memory.take p ++ bs ++ memory.drop (p + bs.length)

/-- `bs` written at position `p`. -/
def write (memory : List Byte) (p : ℕ) (bs : List Byte) : Option (List Byte) :=
  if p + bs.length ≤ memory.length then some (splice memory p bs) else none

/-- `bs` stands in memory at position `p`. -/
def At (memory : List Byte) (p : ℕ) (bs : List Byte) : Prop :=
  ∃ before after, memory = before ++ (bs ++ after) ∧ before.length = p

variable {memory bs cs : List Byte} {p : ℕ}

theorem At.left (h : At memory p (bs ++ cs)) : At memory p bs := by
  obtain ⟨before, after, hmemory, hp⟩ := h
  exact ⟨before, cs ++ after, by rw [hmemory, List.append_assoc], hp⟩

theorem At.right (h : At memory p (bs ++ cs)) : At memory (p + bs.length) cs := by
  obtain ⟨before, after, hmemory, hp⟩ := h
  refine ⟨before ++ bs, after, ?_, ?_⟩
  · rw [hmemory, List.append_assoc, List.append_assoc]
  · rw [List.length_append, hp]

theorem At.le_length (h : At memory p bs) : p + bs.length ≤ memory.length := by
  obtain ⟨before, after, hmemory, hp⟩ := h
  rw [hmemory, List.length_append, List.length_append]
  omega

theorem At.take_drop (h : At memory p bs) : (memory.drop p).take bs.length = bs := by
  obtain ⟨before, after, hmemory, hp⟩ := h
  rw [hmemory, ← hp, List.drop_left, List.take_left]

theorem At.read (h : At memory p bs) : read memory p bs.length = some bs := by
  unfold Bytes.read
  rw [if_pos h.le_length, h.take_drop]

theorem At.readWord {n : ℕ} {x : BitVec (8 * n)} (h : At memory p (ofWord n x)) :
    readWord memory p n = some x := by
  have hread := h.read
  rw [length_ofWord] at hread
  unfold Bytes.readWord
  rw [hread, Option.map_some, toWord_ofWord]

/-! ### Writing -/

theorem length_splice (hp : p ≤ memory.length) :
    (splice memory p bs).length = max memory.length (p + bs.length) := by
  rw [splice, List.length_append, List.length_append, List.length_take, List.length_drop]
  omega

theorem splice_end (memory bs : List Byte) :
    splice memory memory.length bs = memory ++ bs := by
  rw [splice, List.take_length, List.drop_eq_nil_of_le (Nat.le_add_right _ _), List.append_nil]

theorem take_splice {n : ℕ} (hp : p ≤ n) (hn : n ≤ memory.length) :
    (splice memory p bs).take (max n (p + bs.length)) = splice (memory.take n) p bs := by
  have htake : (memory.take n).take p = memory.take p := by
    rw [List.take_take, Nat.min_eq_left hp]
  rw [splice, splice, htake, List.append_assoc, List.append_assoc, List.take_append,
    List.take_append, List.length_take, Nat.min_eq_left (by omega), List.take_take,
    Nat.min_eq_right (by omega), List.take_of_length_le (by omega : bs.length ≤ _),
    List.drop_take]
  congr 3
  omega

theorem read_take {n : ℕ} (hn : n ≤ memory.length) {m : ℕ} (hfits : p + m ≤ n) :
    read memory p m = some (((memory.take n).drop p).take m) := by
  rw [read, if_pos (by omega), List.drop_take, List.take_take, Nat.min_eq_left (by omega)]

end Bytes

end Casting
