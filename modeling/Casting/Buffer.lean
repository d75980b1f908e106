import Casting.Error
import Casting.Framework.Bytes

/-!
# Buffers

The functions of `buffer.c` on a buffer that is there, and `function_writer` of `lc_message.c`.
The bytes start in an array of the buffer and move to allocated blocks.  An allocation is given by
the bytes that are found in the block, and sizes are counted as a `size_t` counts them.  Copying
from or to memory that is not there has no outcome.
-/

namespace Casting

/-- `BUFFER_SIZE`. -/
def bufferSize : ℕ := 2048

/-- What `lc_alloc` returns, by the bytes in it. -/
abbrev Allocation := Option (ℕ → Byte)

def block (content : ℕ → Byte) (size : ℕ) : List Byte := (List.range size).map content

/-- `buffer_t`: `own` is its array, and `heap` the block that `p` leads to if it does not lead to
that. -/
structure Buffer where
  size : ℕ
  last : ℕ
  pos : ℕ
  heap : Option (List Byte)
  own : List Byte
  deriving DecidableEq, Repr

/-- A sum of two `size_t`s. -/
def sizeAdd (x y : ℕ) : ℕ := (x + y) % 2 ^ 64

/-- `buf_init`; `own` is what the array holds at first. -/
def bufInit (own : ℕ → Byte) : Buffer where
  size := bufferSize
  last := 0
  pos := 0
  heap := none
  own := block own bufferSize

namespace Buffer

/-- What `p` leads to. -/
def memory (b : Buffer) : List Byte := b.heap.getD b.own

def setMemory (b : Buffer) (memory : List Byte) : Buffer :=
  match b.heap with
  | none => { b with own := memory }
  | some _ => { b with heap := some memory }

/-- The loop of `grow`. -/
def growSize (end_ : ℕ) : ℕ → ℕ → Option ℕ
  | 0, size => if size < end_ then none else some size
  | fuel + 1, size =>
      if size < end_ then growSize end_ fuel (sizeAdd (sizeAdd size (size / 2)) 8) else some size

def grow (fuel : ℕ) (alloc : Allocation) (b : Buffer) (end_ : ℕ) :
    Option (Buffer × ReturnCode) :=
  if end_ ≤ b.size then some (b, .success)
  else do
    let size ← growSize end_ fuel b.size
    match alloc with
    | none => some (b, .errNoMem)
    | some content => do
        let data ← Bytes.read b.memory 0 b.last
        let n ← Bytes.write (block content size) 0 data
        some ({ b with heap := some n, size := size }, .success)

/-- The macro `ensure`. -/
def ensure (fuel : ℕ) (alloc : Allocation) (b : Buffer) (p s : ℕ) : Option (Buffer × ReturnCode) :=
  if b.size < sizeAdd p s then grow fuel alloc b (sizeAdd p s) else some (b, .success)

/-- The macro `check`. -/
def check (b : Buffer) (p s : ℕ) : ReturnCode :=
  if b.last < sizeAdd p s then .errOverflow else .success

end Buffer

section Functions

variable (fuel : ℕ) (alloc : Allocation) (b : Buffer)

/-- `buf_write_at`; `p` is what it is to copy. -/
def bufWriteAt (pos : ℕ) (p : List Byte) : Option (Buffer × ReturnCode) := do
  let (b, rc) ← b.ensure fuel alloc pos p.length
  if rc ≠ .success then some (b, .errNoMem)
  else
    let memory ← Bytes.write b.memory pos p
    some ({ b.setMemory memory with last := max b.last (sizeAdd pos p.length) }, .success)

def bufWrite (p : List Byte) : Option (Buffer × ReturnCode) := do
  let (b, err) ← bufWriteAt fuel alloc b b.pos p
  if err ≠ .success then some (b, err)
  else some ({ b with pos := sizeAdd b.pos p.length }, .success)

/-- `buf_read_from`, which returns a pointer to a position or `NULL`. -/
def bufReadFrom (pos size : ℕ) : Option ℕ :=
  if b.check pos size = .success then some pos else none

def bufRead (size : ℕ) : Buffer × Option ℕ :=
  match bufReadFrom b b.pos size with
  | some p => ({ b with pos := sizeAdd b.pos size }, some p)
  | none => (b, none)

def bufReserve (size : ℕ) : Option (Buffer × Option ℕ) := do
  let (b, rc) ← b.ensure fuel alloc b.pos size
  if rc ≠ .success then some (b, none)
  else
    let pos := sizeAdd b.pos size
    some ({ b with pos := pos, last := max b.last pos }, some b.pos)

def bufSeek (pos : ℕ) : Buffer × ReturnCode :=
  if b.last < pos then (b, .errOverflow) else ({ b with pos := pos }, .success)

/-- `buf_release`: what the pointer that it returns leads to. -/
def bufRelease : Option (List Byte) :=
  match b.heap with
  | none => do
      let content ← alloc
      let data ← Bytes.read b.memory 0 b.last
      Bytes.write (block content b.last) 0 data
  | some n => some n

/-- `function_writer`, which does not tell `lua_dump` if a write fails. -/
def functionWriter (p : List Byte) : Option (Buffer × ReturnCode) :=
  (bufWrite fuel alloc b p).map fun r => (r.1, .success)

end Functions

/-- The chunks that `lua_dump` hands over one after the other, each with what is allocated for
it. -/
def dump (fuel : ℕ) : Buffer → List (Allocation × List Byte) → Option Buffer
  | b, [] => some b
  | b, (alloc, p) :: chunks => do
      let (b, _) ← functionWriter fuel alloc b p
      dump fuel b chunks

/-! ## Calls -/

inductive BufferCall
  | write (alloc : Allocation) (p : List Byte)
  | writeAt (alloc : Allocation) (pos : ℕ) (p : List Byte)
  | read (size : ℕ)
  | readFrom (pos size : ℕ)
  | reserve (alloc : Allocation) (size : ℕ)
  | seek (pos : ℕ)

/-- A return code, a reserved position, or the bytes that the returned pointer leads to. -/
inductive BufferResult
  | code (rc : ReturnCode)
  | room (pos : Option ℕ)
  | bytes (bs : Option (List Byte))
  deriving DecidableEq, Repr

def Buffer.found (b : Buffer) (p : Option ℕ) (size : ℕ) : Option BufferResult :=
  match p with
  | none => some (.bytes none)
  | some pos => (Bytes.read b.memory pos size).map fun bs => .bytes (some bs)

def Buffer.call (fuel : ℕ) (b : Buffer) : BufferCall → Option (Buffer × BufferResult)
  | .write alloc p => (bufWrite fuel alloc b p).map fun r => (r.1, .code r.2)
  | .writeAt alloc pos p => (bufWriteAt fuel alloc b pos p).map fun r => (r.1, .code r.2)
  | .read size =>
      let r := bufRead b size
      (r.1.found r.2 size).map fun result => (r.1, result)
  | .readFrom pos size => (b.found (bufReadFrom b pos size) size).map fun result => (b, result)
  | .reserve alloc size => (bufReserve fuel alloc b size).map fun r => (r.1, .room r.2)
  | .seek pos => let r := bufSeek b pos; some (r.1, .code r.2)

end Casting
