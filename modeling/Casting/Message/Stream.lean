import Casting.Message.Building

/-!
# Message streams

`msg_new`, which lays the values of a builder out as the data of a message, and `msg_next`,
which reads them back.  Copying from or to memory that is not there has no outcome.
-/

namespace Casting

/-- `message_t`; `data` is all that `msg_new` wrote there. -/
structure Message where
  refCount : Word
  size : Word
  count : Word
  refs : Word
  data : List Byte
  deriving DecidableEq, Repr

/-- `sizeof(message_t)`. -/
def sizeofMessage : ℕ := 16

/-- What one turn of the loop of `msg_new` writes. -/
def Value.written (v : Value) : Option (List Byte) :=
  (match v.valueType with
    | some .tNil => some []
    | some .tTrue => some []
    | some .tFalse => some []
    | some .tNumber => some (Bytes.ofWord 8 v.number)
    | some .tString => v.payload.map fun bs => Bytes.ofWord 4 v.len ++ bs
    | some .tTable => some (Bytes.ofWord 4 v.slots ++ Bytes.ofWord 4 v.array)
    | some .tFunction | some .tUserdata =>
        v.payload.map fun bs => Bytes.ofWord 4 v.upvals ++ (Bytes.ofWord 4 v.len ++ bs)
    | some .tReference => some (Bytes.ofWord 4 v.ref)
    | some .tLuserdata => some []
    | none => some []).map fun bs => Bytes.ofWord 4 v.type ++ bs

/-- What the first `n` turns write. -/
def writtenBefore (values : Block) : ℕ → Option (List Byte)
  | 0 => some []
  | n + 1 =>
      (writtenBefore values n).bind fun bs => (values n).written.map fun cs => bs ++ cs

/-- The room that `msg_new` asks for, in the arithmetic of `size_t`. -/
def Builder.request (mb : Builder) : BitVec 64 :=
  BitVec.ofNat 64 sizeofMessage + mb.bytes.signExtend 64

/-- `msg_new`, when the allocation succeeds and leaves `slack` more bytes usable than it was
asked for. -/
def msgNew (slack : ℕ) (mb : Builder) : Option Message :=
  (writtenBefore mb.values mb.last).bind fun data =>
    if sizeofMessage + data.length ≤ mb.request.toNat + slack then
      some
        { refCount := 1
          size := BitVec.ofNat 32 sizeofMessage + mb.bytes
          count := mb.count
          refs := mb.refs
          data := data }
    else none

/-- `msg_cursor_t` on a given message. -/
structure Cursor where
  pos : ℤ
  count : ℤ
  deriving DecidableEq, Repr

/-- `msg_cursor_init`. -/
def msgCursorInit : Cursor := ⟨0, 0⟩

namespace Message

/-- `mem_read` at a position of the data. -/
def memRead (m : Message) (n : ℕ) (p : ℤ) : Option (BitVec (8 * n)) :=
  if p < 0 then none else Bytes.readWord m.data p.toNat n

/-- What can be read from a position of the data on. -/
def pointer (m : Message) (p : ℤ) : List Byte := m.data.drop p.toNat

/-- The cases of `msg_next` that read something: the value, and where the next one starts. -/
def readBody (m : Message) (v : Value) (p : ℤ) : ValueType → Option (Value × ℤ)
  | .tNumber => do
      let n ← m.memRead 8 p
      some ({ v with low := n.setWidth 32, high := n.extractLsb' 32 32 }, p + 8)
  | .tString => do
      let len ← m.memRead 4 p
      some ({ v with len := len, ptr := m.pointer (p + 4) }, p + 4 + len.toInt)
  | .tTable => do
      let slots ← m.memRead 4 p
      let array ← m.memRead 4 (p + 4)
      some ({ v with high := slots, low := array }, p + 8)
  | .tUserdata | .tFunction => do
      let upvals ← m.memRead 4 p
      let len ← m.memRead 4 (p + 4)
      some ({ v with low := upvals, len := len, ptr := m.pointer (p + 8) }, p + 8 + len.toInt)
  | .tReference => do
      let ref ← m.memRead 4 p
      some ({ v with low := ref }, p + 4)
  | _ => some (v, p)

end Message

/-- `msg_next`: the result, the cursor and the value afterwards. -/
def msgNext (m : Message) (c : Cursor) (v : Value) : Option (ℤ × Cursor × Value) :=
  if m.size.toInt ≤ sizeofMessage + c.pos then some (-1, c, v)
  else do
    let type ← m.memRead 4 c.pos
    let v := { v with type := type }
    match v.valueType with
    | none | some .tLuserdata => some (-1, c, v)
    | some t =>
        let (v, p) ← m.readBody v (c.pos + 4) t
        some (c.count, ⟨p, c.count + 1⟩, v)

/-- The results of calls of `msg_next` on one cursor and the values they fill, which hold `vs`
before. -/
def msgNexts (m : Message) : Cursor → List Value → Option (List (ℤ × Value))
  | _, [] => some []
  | c, v :: vs => do
      let (result, c, v) ← msgNext m c v
      let rest ← msgNexts m c vs
      some ((result, v) :: rest)

/-! ## Writing -/

theorem Value.len_of_payload {v : Value} {bs : List Byte} (h : v.payload = some bs) :
    v.len = BitVec.ofNat 32 bs.length := by
  unfold payload Bytes.read at h
  split at h
  · split at h
    · rename_i hlen hfits
      cases h
      rw [List.drop_zero, List.length_take, Nat.min_eq_left (by omega), BitVec.ofNat_toNat,
        BitVec.setWidth_eq]
    · cases h
  · cases h

theorem Value.written_of_item? {v : Value} {it : Item} (h : v.item? = some it) :
    v.written = some it.bytes := by
  have htype := type_of_item? h
  obtain ⟨hc, -, -⟩ := item?_eq_some_iff.mp h
  rw [written, Item.bytes, htype]
  rw [content?] at hc
  cases hvalueType : v.valueType with
  | none => simp [hvalueType] at hc
  | some t =>
    cases t with
    | tLuserdata => simp [hvalueType] at hc
    | tString | tFunction | tUserdata =>
      simp only [hvalueType, Option.map_eq_some_iff] at hc
      obtain ⟨bs, hpayload, hcontent⟩ := hc
      simp only [hpayload, ← hcontent, len_of_payload hpayload]
      rfl
    | _ =>
      simp only [hvalueType, Option.some.injEq] at hc
      rw [← hc]
      rfl

theorem Represents.writtenBefore {mb : Builder} {items : List Item} (h : Represents mb items)
    {n : ℕ} (hn : n ≤ items.length) :
    writtenBefore mb.values n = some (layout (items.take n)) := by
  induction n with
  | zero => rfl
  | succ n ih =>
    have hlt : n < items.length := hn
    have hwritten := Value.written_of_item? (h.value n _ (List.getElem?_eq_getElem hlt))
    rw [Casting.writtenBefore, ih hlt.le, hwritten, List.take_succ_eq_append_getElem hlt,
      layout_append, layout_singleton]
    rfl

theorem Represents.writtenBefore_last {mb : Builder} {items : List Item}
    (h : Represents mb items) : Casting.writtenBefore mb.values mb.last = some (layout items) := by
  rw [h.last, h.writtenBefore le_rfl, List.take_length]

/-- Every reference is counted four bytes short, and it takes more than these. -/
theorem references_le_layout (items : List Item) :
    4 * references items ≤ (layout items).length := by
  induction items with
  | nil => exact le_rfl
  | cons it items ih =>
    have hsize : 4 ≤ it.content.size := Nat.le_add_right _ _
    have hone : references (it :: items) ≤ references items + 1 := by
      rw [references, List.countP_cons]
      split <;> simp [references]
    rw [length_layout] at ih ⊢
    rw [List.map_cons, List.sum_cons]
    omega

theorem Represents.bytes_eq {mb : Builder} {items : List Item} (h : Represents mb items) :
    mb.bytes = BitVec.ofNat 32 ((layout items).length - 4 * references items) := by
  have hle := references_le_layout items
  have hsum := h.bytes
  rw [show (layout items).length =
    (layout items).length - 4 * references items + 4 * references items by omega,
    BitVec.ofNat_add] at hsum
  exact (BitVec.add_left_inj _).mp hsum

theorem toInt_ofNat_small {n : ℕ} (h : n < 2 ^ 31) : (BitVec.ofNat 32 n).toInt = n := by
  have htoNat : (BitVec.ofNat 32 n).toNat = n := by
    rw [BitVec.toNat_ofNat, Nat.mod_eq_of_lt (by omega)]
  rw [BitVec.toInt_eq_toNat_of_lt (by omega), htoNat]

theorem request_eq {mb : Builder} {n : ℕ} (h : mb.bytes = BitVec.ofNat 32 n)
    (hn : n < 2 ^ 31) : mb.request.toNat = sizeofMessage + n := by
  have htoNat : (BitVec.ofNat 32 n).toNat = n := by
    rw [BitVec.toNat_ofNat, Nat.mod_eq_of_lt (by omega)]
  have hmsb : (BitVec.ofNat 32 n).msb = false := by
    rw [BitVec.msb_eq_false_iff_two_mul_lt]
    omega
  unfold Builder.request
  rw [h, BitVec.signExtend_eq_setWidth_of_msb_false hmsb, BitVec.toNat_add, BitVec.toNat_setWidth,
    htoNat, BitVec.toNat_ofNat]
  unfold sizeofMessage
  omega

theorem Represents.msgNew {mb : Builder} {items : List Item} (h : Represents mb items)
    (hsmall : sizeofMessage + (layout items).length < 2 ^ 31) (slack : ℕ) :
    msgNew slack mb =
      if 4 * references items ≤ slack then
        some
          { refCount := 1
            size := BitVec.ofNat 32
              (sizeofMessage + ((layout items).length - 4 * references items))
            count := mb.count
            refs := mb.refs
            data := layout items }
      else none := by
  have hle := references_le_layout items
  have hrequest := request_eq h.bytes_eq (by omega)
  unfold Casting.msgNew
  rw [h.writtenBefore_last, Option.bind_some, hrequest, h.bytes_eq, ← BitVec.ofNat_add]
  by_cases hfits : 4 * references items ≤ slack
  · rw [if_pos hfits, if_pos (by omega)]
  · rw [if_neg hfits, if_neg (by omega)]

/-! ## Reading -/

theorem Item.valueType_of_type {v : Value} {it : Item} (h : v.type = it.type) :
    v.valueType = some it.content.valueType := by
  unfold Value.valueType
  rw [h, Item.type]
  cases it.content.valueType <;> cases it.referenced <;> cases it.isMeta <;> rfl

theorem Item.valueIsReferenced_of_type {v : Value} {it : Item} (h : v.type = it.type) :
    v.valueIsReferenced = it.referenced := by
  unfold Value.valueIsReferenced
  rw [h, Item.type]
  cases it.content.valueType <;> cases it.referenced <;> cases it.isMeta <;> rfl

theorem Item.item?_of_type {v : Value} {it : Item} (h : v.type = it.type)
    (hc : v.content? = some it.content) : v.item? = some it := by
  apply Value.item?_eq_some_iff.mpr
  refine ⟨hc, valueIsReferenced_of_type h, ?_⟩
  unfold Value.valueIsMeta
  rw [h, Item.type]
  cases it.content.valueType <;> cases it.referenced <;> cases it.isMeta <;> rfl

section Read

variable {m : Message} {p : ℕ}

theorem Message.memRead_at {n : ℕ} {x : BitVec (8 * n)}
    (h : Bytes.At m.data p (Bytes.ofWord n x)) : m.memRead n p = some x := by
  unfold memRead
  rw [if_neg (by omega), Int.toNat_natCast]
  exact h.readWord

theorem Message.payload_at {v : Value} {bs : List Byte} (h : Bytes.At m.data p bs)
    (hlong : bs.length < 2 ^ 31) (hlen : v.len = BitVec.ofNat 32 bs.length)
    (hptr : v.ptr = m.pointer p) : v.payload = some bs := by
  have hbound := h.le_length
  have htoNat : v.len.toNat = bs.length := by
    rw [hlen, BitVec.toNat_ofNat, Nat.mod_eq_of_lt (by omega)]
  unfold Value.payload Bytes.read
  rw [htoNat, if_pos hlong, hptr, Message.pointer, Int.toNat_natCast, List.drop_zero,
    List.length_drop, if_pos (by omega), h.take_drop]

private theorem Message.readBody_upvals {v : Value} {t : ValueType} {upvals : Word}
    {bs : List Byte} (ht : t = .tFunction ∨ t = .tUserdata)
    (hat : Bytes.At m.data p
      (Bytes.ofWord 4 upvals ++ (Bytes.ofWord 4 (BitVec.ofNat 32 bs.length) ++ bs)))
    (hlong : bs.length < 2 ^ 31) :
    ∃ v' : Value, m.readBody v p t = some (v', ((p + (4 + (4 + bs.length)) : ℕ) : ℤ)) ∧
      v'.type = v.type ∧ v'.upvals = upvals ∧ v'.payload = some bs := by
  have hupvals := memRead_at hat.left
  have hrest := hat.right
  rw [Bytes.length_ofWord] at hrest
  have hlen := memRead_at hrest.left
  push_cast at hlen
  have hs := hrest.right
  rw [Bytes.length_ofWord] at hs
  have hpos : (p : ℤ) + 8 = (p + 4 + 4 : ℕ) := by omega
  have hend : ((p + 4 + 4 : ℕ) : ℤ) + (BitVec.ofNat 32 bs.length).toInt =
      (p + (4 + (4 + bs.length)) : ℕ) := by
    rw [toInt_ofNat_small hlong]
    omega
  refine ⟨{ v with
      low := upvals, len := BitVec.ofNat 32 bs.length, ptr := m.pointer (p + 4 + 4 : ℕ) },
    ?_, rfl, rfl, payload_at hs hlong rfl rfl⟩
  rcases ht with rfl | rfl
  · simp only [readBody, hupvals, hlen, hpos, Option.bind_eq_bind, Option.bind_some]
    rw [hend]
  · simp only [readBody, hupvals, hlen, hpos, Option.bind_eq_bind, Option.bind_some]
    rw [hend]

theorem Message.readBody_at {v : Value} {c : Content} (hat : Bytes.At m.data p c.bytes)
    (hlong : c.payload.length < 2 ^ 31) (hv : v.valueType = some c.valueType) :
    ∃ v' : Value, m.readBody v p c.valueType = some (v', ((p + c.bytes.length : ℕ) : ℤ)) ∧
      v'.type = v.type ∧ v'.content? = some c := by
  cases c with
  | nil =>
    refine ⟨v, rfl, rfl, ?_⟩
    rw [Value.content?, hv]
    rfl
  | boolean b =>
    refine ⟨v, by cases b <;> rfl, rfl, ?_⟩
    rw [Value.content?, hv]
    cases b <;> rfl
  | number n =>
    refine ⟨{ v with low := n.setWidth 32, high := n.extractLsb' 32 32 }, ?_, rfl, ?_⟩
    · simp only [Content.valueType, readBody, memRead_at hat]
      simp [Content.bytes]
    · have htype : Value.valueType { v with low := n.setWidth 32, high := n.extractLsb' 32 32 } =
          some .tNumber := hv
      rw [Value.content?, htype]
      exact congrArg (fun n => some (Content.number n)) (words_append n)
  | string s =>
    have hlen := memRead_at hat.left
    have hs := hat.right
    rw [Bytes.length_ofWord] at hs
    have hint : (BitVec.ofNat 32 s.length).toInt = s.length := toInt_ofNat_small hlong
    refine ⟨{ v with len := BitVec.ofNat 32 s.length, ptr := m.pointer (p + 4 : ℕ) },
      ?_, rfl, ?_⟩
    · simp only [Content.valueType, readBody, hlen]
      simp [Content.bytes, hint, add_assoc]
    · have htype : Value.valueType
          { v with len := BitVec.ofNat 32 s.length, ptr := m.pointer (p + 4 : ℕ) } =
          some .tString := hv
      rw [Value.content?, htype]
      simp only
      rw [payload_at hs hlong rfl rfl]
      rfl
  | table slots array =>
    have hslots := memRead_at hat.left
    have harray := hat.right
    rw [Bytes.length_ofWord] at harray
    have harray := memRead_at harray
    refine ⟨{ v with high := slots, low := array }, ?_, rfl, Value.content?_tTable hv⟩
    simp only [Content.valueType, readBody, hslots]
    push_cast at harray
    simp [Content.bytes, harray]
  | function upvals code =>
    obtain ⟨v', hread, htype, hupvals, hpayload⟩ :=
      readBody_upvals (v := v) (.inl rfl) hat hlong
    refine ⟨v', ?_, htype, ?_⟩
    · rw [Content.valueType, hread]
      simp [Content.bytes]
    · have hfunction : v'.valueType = some .tFunction := by
        unfold Value.valueType
        rw [htype]
        exact hv
      rw [Value.content?_tFunction hfunction, hpayload, hupvals]
      rfl
  | userdata upvals name =>
    obtain ⟨v', hread, htype, hupvals, hpayload⟩ :=
      readBody_upvals (v := v) (.inr rfl) hat hlong
    refine ⟨v', ?_, htype, ?_⟩
    · rw [Content.valueType, hread]
      simp [Content.bytes]
    · have huserdata : v'.valueType = some .tUserdata := by
        unfold Value.valueType
        rw [htype]
        exact hv
      rw [Value.content?_tUserdata huserdata, hpayload, hupvals]
      rfl
  | reference ref =>
    have href := memRead_at hat
    refine ⟨{ v with low := ref }, ?_, rfl, ?_⟩
    · simp only [Content.valueType, readBody, href]
      simp [Content.bytes]
    · have htype : Value.valueType { v with low := ref } = some .tReference := hv
      rw [Value.content?, htype]
      rfl

theorem at_layout {items before after : List Item} {it : Item}
    (h : items = before ++ it :: after) :
    Bytes.At (layout items) (layout before).length it.bytes := by
  refine ⟨layout before, layout after, ?_, rfl⟩
  rw [h, layout_append]
  rfl

theorem length_payload_lt_of_mem {items : List Item} {it : Item} (hit : it ∈ items)
    (hsmall : (layout items).length < 2 ^ 31) : it.content.payload.length < 2 ^ 31 := by
  have hpayload := it.content.length_payload_le_size
  obtain ⟨before, after, rfl⟩ := List.append_of_mem hit
  rw [length_layout, List.map_append, List.sum_append, List.map_cons, List.sum_cons] at hsmall
  omega

theorem msgNext_at {it : Item} (hat : Bytes.At m.data p it.bytes)
    (hlong : it.content.payload.length < 2 ^ 31)
    (hbefore : (sizeofMessage + p : ℤ) < m.size.toInt) (count : ℤ) (v : Value) :
    ∃ v', msgNext m ⟨p, count⟩ v =
        some (count, ⟨((p + it.content.size : ℕ) : ℤ), count + 1⟩, v') ∧ v'.item? = some it := by
  have htype := Message.memRead_at hat.left
  have hbody := hat.right
  rw [Bytes.length_ofWord] at hbody
  have hvalueType : Value.valueType { v with type := it.type } = some it.content.valueType :=
    Item.valueType_of_type rfl
  obtain ⟨v', hread, htype', hc⟩ := Message.readBody_at hbody hlong hvalueType
  refine ⟨v', ?_, Item.item?_of_type htype' hc⟩
  have hpushed : it.content.valueType ≠ .tLuserdata := by
    cases it.content with
    | boolean b => cases b <;> decide
    | _ => exact fun h => ValueType.noConfusion h
  unfold msgNext
  rw [if_neg (not_le.mpr hbefore)]
  simp only [htype, hvalueType, Option.bind_eq_bind, Option.bind_some]
  push_cast at hread
  rw [hread, Content.size]
  simp only [Option.bind_some]
  push_cast
  rw [add_assoc]

theorem msgNext_end {c : Cursor} {v : Value} (h : m.size.toInt ≤ sizeofMessage + c.pos) :
    msgNext m c v = some (-1, c, v) := if_pos h

end Read

end Casting
