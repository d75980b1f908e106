import Casting.Framework.Bytes

/-!
# Message values

`value_t` of `message.h`, and the bytes that a value takes in a message.  The data union is
kept as its two words: `low` is `ref`, `upvals` or `table.array`, `high` is `table.slots`, and
both together are `number`.
-/

namespace Casting

/-- A C `int`. -/
abbrev Word := BitVec 32

/-- The members of `type_t`, without the two flags. -/
inductive ValueType
  | tNil
  | tTrue
  | tFalse
  | tNumber
  | tString
  | tTable
  | tFunction
  | tUserdata
  | tLuserdata
  | tReference
  deriving DecidableEq, Repr

namespace ValueType

def code : ValueType → Word
  | .tNil => 0x01
  | .tTrue => 0x02
  | .tFalse => 0x03
  | .tNumber => 0x04
  | .tString => 0x05
  | .tTable => 0x06
  | .tFunction => 0x07
  | .tUserdata => 0x08
  | .tLuserdata => 0x09
  | .tReference => 0x0a

def all : List ValueType :=
  [.tNil, .tTrue, .tFalse, .tNumber, .tString, .tTable, .tFunction, .tUserdata, .tLuserdata,
    .tReference]

/-- The case label that a `switch` on a type takes, if there is one. -/
def ofCode (code : Word) : Option ValueType :=
  all.find? fun t => t.code = code

end ValueType

def tReferenced : Word := BitVec.twoPow 32 5

def tMeta : Word := BitVec.twoPow 32 6

def tTypeMask : Word := ~~~(tMeta ||| tReferenced)

/-- `value_t`.  The bytes that can be read from `ptr` on stand for the pointer. -/
structure Value where
  type : Word
  low : Word
  high : Word
  len : Word
  ptr : List Byte
  deriving DecidableEq, Repr

namespace Value

def valueType (v : Value) : Option ValueType := ValueType.ofCode (v.type &&& tTypeMask)

def valueIsMeta (v : Value) : Bool := v.type &&& tMeta ≠ 0

def valueIsReferenced (v : Value) : Bool := v.type &&& tReferenced ≠ 0

def number (v : Value) : BitVec 64 := v.high ++ v.low

def ref (v : Value) : Word := v.low

def upvals (v : Value) : Word := v.low

def array (v : Value) : Word := v.low

def slots (v : Value) : Word := v.high

/-- The `len` bytes that a copy from `ptr` takes. -/
def payload (v : Value) : Option (List Byte) :=
  if v.len.toNat < 2 ^ 31 then Bytes.read v.ptr 0 v.len.toNat else none

end Value

/-! ## What a value says -/

inductive Content
  | nil
  | boolean (b : Bool)
  | number (n : BitVec 64)
  | string (s : List Byte)
  | table (slots array : Word)
  | function (upvals : Word) (code : List Byte)
  | userdata (upvals : Word) (name : List Byte)
  | reference (ref : Word)
  deriving DecidableEq, Repr

structure Item where
  content : Content
  referenced : Bool
  isMeta : Bool
  deriving DecidableEq, Repr

def Value.content? (v : Value) : Option Content :=
  match v.valueType with
  | some .tNil => some .nil
  | some .tTrue => some (.boolean true)
  | some .tFalse => some (.boolean false)
  | some .tNumber => some (.number v.number)
  | some .tString => v.payload.map .string
  | some .tTable => some (.table v.slots v.array)
  | some .tFunction => v.payload.map (.function v.upvals)
  | some .tUserdata => v.payload.map (.userdata v.upvals)
  | some .tReference => some (.reference v.ref)
  | some .tLuserdata => none
  | none => none

def Value.item? (v : Value) : Option Item :=
  v.content?.map fun content => ⟨content, v.valueIsReferenced, v.valueIsMeta⟩

namespace Content

def valueType : Content → ValueType
  | .nil => .tNil
  | .boolean true => .tTrue
  | .boolean false => .tFalse
  | .number _ => .tNumber
  | .string _ => .tString
  | .table _ _ => .tTable
  | .function _ _ => .tFunction
  | .userdata _ _ => .tUserdata
  | .reference _ => .tReference

def payload : Content → List Byte
  | .string s => s
  | .function _ code => code
  | .userdata _ name => name
  | _ => []

/-- The layout of a message behind the type of a value. -/
def bytes : Content → List Byte
  | .nil => []
  | .boolean _ => []
  | .number n => Bytes.ofWord 8 n
  | .string s => Bytes.ofWord 4 (BitVec.ofNat 32 s.length) ++ s
  | .table slots array => Bytes.ofWord 4 slots ++ Bytes.ofWord 4 array
  | .function upvals code =>
      Bytes.ofWord 4 upvals ++ (Bytes.ofWord 4 (BitVec.ofNat 32 code.length) ++ code)
  | .userdata upvals name =>
      Bytes.ofWord 4 upvals ++ (Bytes.ofWord 4 (BitVec.ofNat 32 name.length) ++ name)
  | .reference ref => Bytes.ofWord 4 ref

/-- The size of the value in a message, its type included. -/
def size (c : Content) : ℕ := 4 + c.bytes.length

end Content

namespace Item

def type (it : Item) : Word :=
  it.content.valueType.code ||| (if it.referenced then tReferenced else 0) |||
    (if it.isMeta then tMeta else 0)

def bytes (it : Item) : List Byte := Bytes.ofWord 4 it.type ++ it.content.bytes

@[simp]
theorem length_bytes (it : Item) : it.bytes.length = it.content.size := by
  simp [bytes, Content.size]

end Item

theorem Content.length_payload_le_size (c : Content) : c.payload.length + 4 ≤ c.size := by
  cases c <;> simp [payload, size, bytes] <;> omega

theorem words_append (n : BitVec 64) : n.extractLsb' 32 32 ++ n.setWidth 32 = n := by
  apply BitVec.eq_of_getLsbD_eq
  intro i hi
  rw [BitVec.getLsbD_append, BitVec.getLsbD_extractLsb', BitVec.getLsbD_setWidth]
  by_cases hlow : i < 32
  · simp [hlow]
  · have hhigh : i - 32 < 32 := by omega
    simp [hlow, hhigh, show 32 + (i - 32) = i by omega]

/-! ## Types with flags -/

theorem ValueType.code_of_ofCode {code : Word} {t : ValueType} (h : ofCode code = some t) :
    t.code = code := by
  have := List.find?_some h
  simpa using this

private theorem or_flag_and (x flag mask : Word) (h : flag &&& mask = 0#32) :
    (x ||| flag) &&& mask = x &&& mask := by
  apply BitVec.eq_of_getLsbD_eq
  intro i hi
  have hbit := congrArg (fun y : Word => y.getLsbD i) h
  simp only [BitVec.getLsbD_and, BitVec.getLsbD_zero] at hbit
  simp only [BitVec.getLsbD_or, BitVec.getLsbD_and, Bool.and_or_distrib_right, hbit,
    Bool.or_false]

private theorem or_flag_and_self (x flag : Word) : (x ||| flag) &&& flag = flag := by
  apply BitVec.eq_of_getLsbD_eq
  intro i hi
  simp only [BitVec.getLsbD_or, BitVec.getLsbD_and]
  cases x.getLsbD i <;> cases flag.getLsbD i <;> rfl

theorem type_eq_or_flags (x : Word) :
    x = (x &&& tTypeMask) ||| (if x &&& tReferenced ≠ 0 then tReferenced else 0) |||
      (if x &&& tMeta ≠ 0 then tMeta else 0) := by
  have hflag : ∀ i < 32, (if x &&& BitVec.twoPow 32 i ≠ 0 then BitVec.twoPow 32 i else 0) =
      x &&& BitVec.twoPow 32 i := by
    intro i hi
    rw [BitVec.and_twoPow]
    split
    · rw [if_pos]
      intro hzero
      have := congrArg (·.getLsbD i) hzero
      simp [hi] at this
    · simp
  unfold tTypeMask tReferenced tMeta
  rw [hflag 5 (by omega), hflag 6 (by omega)]
  apply BitVec.eq_of_getLsbD_eq
  intro i hi
  simp only [BitVec.getLsbD_or, BitVec.getLsbD_and, BitVec.getLsbD_not, hi, decide_true]
  cases x.getLsbD i <;> cases (BitVec.twoPow 32 5).getLsbD i <;>
    cases (BitVec.twoPow 32 6).getLsbD i <;> rfl

namespace Value

theorem content?_valueType {v : Value} {c : Content} (h : v.content? = some c) :
    v.valueType = some c.valueType := by
  unfold content? at h
  split at h
  case h_10 => cases h
  case h_11 => cases h
  all_goals
    rename_i heq
    rw [heq]
    simp only [Option.some.injEq, Option.map_eq_some_iff] at h
  case h_5 | h_7 | h_8 =>
    obtain ⟨bs, -, rfl⟩ := h
    rfl
  all_goals
    rw [← h]
    rfl

theorem content?_tTable {v : Value} (h : v.valueType = some .tTable) :
    v.content? = some (.table v.slots v.array) := by
  rw [content?, h]

theorem content?_tFunction {v : Value} (h : v.valueType = some .tFunction) :
    v.content? = v.payload.map (.function v.upvals) := by
  rw [content?, h]

theorem content?_tUserdata {v : Value} (h : v.valueType = some .tUserdata) :
    v.content? = v.payload.map (.userdata v.upvals) := by
  rw [content?, h]

theorem item?_eq_some_iff {v : Value} {it : Item} :
    v.item? = some it ↔
      v.content? = some it.content ∧ v.valueIsReferenced = it.referenced ∧
        v.valueIsMeta = it.isMeta := by
  unfold item?
  rw [Option.map_eq_some_iff]
  constructor
  · rintro ⟨c, hc, rfl⟩
    exact ⟨hc, rfl, rfl⟩
  · intro ⟨hc, hreferenced, hmeta⟩
    exact ⟨it.content, hc, by rw [hreferenced, hmeta]⟩

theorem type_of_item? {v : Value} {it : Item} (h : v.item? = some it) : v.type = it.type := by
  obtain ⟨hc, hreferenced, hmeta⟩ := item?_eq_some_iff.mp h
  have hcode := ValueType.code_of_ofCode (content?_valueType hc)
  rw [type_eq_or_flags v.type, ← hcode, Item.type, ← hreferenced, ← hmeta]
  simp only [valueIsReferenced, valueIsMeta, decide_eq_true_eq]

private theorem content?_or_flag (v : Value) {flag : Word} (h : flag &&& tTypeMask = 0#32) :
    { v with type := v.type ||| flag : Value }.content? = v.content? := by
  unfold content? valueType
  simp only [or_flag_and v.type flag tTypeMask h]
  rfl

theorem item?_or_referenced {v : Value} {it : Item} (h : v.item? = some it) :
    { v with type := v.type ||| tReferenced : Value }.item? =
      some { it with referenced := true } := by
  obtain ⟨hc, -, hmeta⟩ := item?_eq_some_iff.mp h
  apply item?_eq_some_iff.mpr
  refine ⟨(content?_or_flag v (by decide)).trans hc, ?_, ?_⟩
  · simp only [valueIsReferenced, or_flag_and_self]
    decide
  · simp only [valueIsMeta, or_flag_and v.type tReferenced tMeta (by decide)]
    exact hmeta

theorem item?_or_meta {v : Value} {it : Item} (h : v.item? = some it) :
    { v with type := v.type ||| tMeta : Value }.item? = some { it with isMeta := true } := by
  obtain ⟨hc, hreferenced, -⟩ := item?_eq_some_iff.mp h
  apply item?_eq_some_iff.mpr
  refine ⟨(content?_or_flag v (by decide)).trans hc, ?_, ?_⟩
  · simp only [valueIsReferenced,
      or_flag_and v.type tMeta tReferenced (by decide)]
    exact hreferenced
  · simp only [valueIsMeta, or_flag_and_self]
    decide

end Value

end Casting
