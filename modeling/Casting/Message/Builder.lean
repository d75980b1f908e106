import Casting.Map
import Casting.Message.Value
import Mathlib.Data.List.Basic

/-!
# Message builders

`message_builder_t`, `next_index` and the `lc_push*` and `lc_set*` functions of `message.c`.
The array is modelled with the memory around it, since its functions write wherever an index
points, and each growth is given the block that the allocation returned, if it returned one.
-/

namespace Casting

/-- `refdata_t`. -/
structure RefData where
  key : ℕ
  refid : Word
  deriving DecidableEq, Repr

/-- Values in memory, by their distance from a first one. -/
abbrev Block := ℤ → Value

/-- `message_builder_t`. -/
structure Builder where
  last : ℕ
  size : ℕ
  bytes : Word
  count : Word
  refmap : Option (Map RefData)
  refs : Word
  values : Block

/-- `BUILDER_SIZE`. -/
def builderSize : ℕ := 16

/-- `msg_builder_init`; `buf` is the array in the builder itself. -/
def msgBuilderInit (buf : Block) : Builder where
  last := 0
  size := builderSize
  bytes := 0
  count := 0
  refmap := none
  refs := 0
  values := buf

def nextIndex (alloc : Option Block) (mb : Builder) : ℤ × Builder :=
  if mb.last = mb.size then
    match alloc with
    | none => (ReturnCode.errNoMem.toInt, mb)
    | some n =>
        (mb.last,
          { mb with
            values := fun i => if 0 ≤ i ∧ i < mb.last then mb.values i else n i
            size := mb.size * 2
            last := mb.last + 1 })
  else (mb.last, { mb with last := mb.last + 1 })

/-- Writing through `&mb->values[idx]`. -/
def Builder.write (mb : Builder) (idx : ℤ) (f : Value → Value) : Builder :=
  { mb with values := Function.update mb.values idx (f (mb.values idx)) }

/-- What the `lc_push*` functions share: `f` fills the new value and `size` is what they add to
`bytes`. -/
def push (f : Value → Value) (size : Word) (alloc : Option Block) (mb : Builder) : ℤ × Builder :=
  let next := nextIndex alloc mb
  let written := next.2.write next.1 f
  (next.1, { written with bytes := written.bytes + size, count := written.count + 1 })

section Push

variable (alloc : Option Block) (mb : Builder)

def lcPushnil : ℤ × Builder :=
  push (fun v => { v with type := ValueType.tNil.code }) 4 alloc mb

def lcPushboolean (b : Word) : ℤ × Builder :=
  push (fun v => { v with type := (if b ≠ 0 then ValueType.tTrue else .tFalse).code }) 4 alloc mb

def lcPushnumber (n : BitVec 64) : ℤ × Builder :=
  push (fun v =>
    { v with
      type := ValueType.tNumber.code
      low := n.setWidth 32
      high := n.extractLsb' 32 32 }) (4 + 8) alloc mb

def lcPushlstring (p : List Byte) (sz : BitVec 64) : ℤ × Builder :=
  push (fun v => { v with type := ValueType.tString.code, len := sz.setWidth 32, ptr := p })
    (4 + 4 + sz.setWidth 32) alloc mb

/-- `lc_pushreference`, which counts the reference but not its type. -/
def lcPushreference (ref : Word) : ℤ × Builder :=
  let mb := { mb with refs := mb.refs + 1 }
  let mb := mb.write ref.toInt fun v => { v with type := v.type ||| tReferenced }
  push (fun v => { v with type := ValueType.tReference.code, low := ref }) 4 alloc mb

def lcCreatetable : ℤ × Builder :=
  push (fun v => { v with type := ValueType.tTable.code, low := 0, high := 0 }) (4 + 4 + 4) alloc mb

/-- `lc_pushfunction`; `b` is what the buffer holds. -/
def lcPushfunction (b : List Byte) : ℤ × Builder :=
  push (fun v =>
    { v with
      type := ValueType.tFunction.code
      low := 0
      len := BitVec.ofNat 32 b.length
      ptr := b }) (4 + 4 + 4 + BitVec.ofNat 32 b.length) alloc mb

def lcPushuserdata (name : List Byte) (len : Word) : ℤ × Builder :=
  push (fun v =>
    { v with
      type := ValueType.tUserdata.code
      low := 0
      len := len
      ptr := name.take len.toNat }) (4 + 4 + 4 + len) alloc mb

end Push

section Set

variable (mb : Builder) (idx : ℤ)

/-- What `lc_setfunction` and `lc_setuserdata` both do. -/
def setUpvals (upvals : Word) : Builder :=
  let mb := mb.write idx fun v => { v with low := upvals }
  { mb with count := mb.count - upvals }

def lcSetfunction (upvals : Word) : Builder := setUpvals mb idx upvals

def lcSetuserdata (upvals : Word) : Builder := setUpvals mb idx upvals

def lcSettable (slots array : BitVec 64) : Builder :=
  let mb := mb.write idx fun v => { v with high := slots.setWidth 32, low := array.setWidth 32 }
  { mb with count := mb.count - (slots * 2).setWidth 32 }

def lcSetmeta : Builder :=
  let mb := mb.write idx fun v => { v with type := v.type ||| tMeta }
  { mb with count := mb.count - 1 }

end Set

/-! ## Calls -/

inductive BuilderCall
  | pushnil
  | pushboolean (b : Word)
  | pushnumber (n : BitVec 64)
  | pushlstring (p : List Byte) (sz : BitVec 64)
  | pushreference (ref : Word)
  | createtable
  | pushfunction (b : List Byte)
  | setfunction (idx : ℤ) (upvals : Word)
  | pushuserdata (name : List Byte) (len : Word)
  | setuserdata (idx : ℤ) (upvals : Word)
  | settable (idx : ℤ) (slots array : BitVec 64)
  | setmeta (idx : ℤ)
  deriving DecidableEq, Repr

/-- One call of a builder function; `alloc` is what an allocation in it returns. -/
def BuilderCall.apply (alloc : Option Block) (mb : Builder) : BuilderCall → Builder
  | .pushnil => (lcPushnil alloc mb).2
  | .pushboolean b => (lcPushboolean alloc mb b).2
  | .pushnumber n => (lcPushnumber alloc mb n).2
  | .pushlstring p sz => (lcPushlstring alloc mb p sz).2
  | .pushreference ref => (lcPushreference alloc mb ref).2
  | .createtable => (lcCreatetable alloc mb).2
  | .pushfunction b => (lcPushfunction alloc mb b).2
  | .setfunction idx upvals => lcSetfunction mb idx upvals
  | .pushuserdata name len => (lcPushuserdata alloc mb name len).2
  | .setuserdata idx upvals => lcSetuserdata mb idx upvals
  | .settable idx slots array => lcSettable mb idx slots array
  | .setmeta idx => lcSetmeta mb idx

/-- The builder after calls whose allocations all succeed, each with the block it returns. -/
def build (mb : Builder) (calls : List (BuilderCall × Block)) : Builder :=
  calls.foldl (fun mb call => call.1.apply (some call.2) mb) mb

end Casting
