import Casting.Message.Builder

/-!
# What a builder holds

A sequence of builder calls says which values a message is to have: a list of items, to which a
push adds one and in which a set changes one.  A builder represents these items, and `bytes`
counts four bytes less than their layout for every reference among them.
-/

namespace Casting

namespace Content

def isReference : Content → Bool
  | .reference _ => true
  | _ => false

def isTable : Content → Bool
  | .table _ _ => true
  | _ => false

def isFunction : Content → Bool
  | .function _ _ => true
  | _ => false

def isUserdata : Content → Bool
  | .userdata _ _ => true
  | _ => false

def setUpvals (upvals : Word) : Content → Content
  | .function _ code => .function upvals code
  | .userdata _ name => .userdata upvals name
  | c => c

end Content

def itemOf (c : Content) : Item := ⟨c, false, false⟩

def layout (items : List Item) : List Byte := items.flatMap Item.bytes

def references (items : List Item) : ℕ := items.countP (·.content.isReference)

namespace BuilderCall

def spec (items : List Item) : BuilderCall → List Item
  | .pushnil => items ++ [itemOf .nil]
  | .pushboolean b => items ++ [itemOf (.boolean (b ≠ 0))]
  | .pushnumber n => items ++ [itemOf (.number n)]
  | .pushlstring p sz => items ++ [itemOf (.string (p.take sz.toNat))]
  | .pushreference ref =>
      items.modify ref.toInt.toNat (fun it => { it with referenced := true }) ++
        [itemOf (.reference ref)]
  | .createtable => items ++ [itemOf (.table 0 0)]
  | .pushfunction b => items ++ [itemOf (.function 0 b)]
  | .setfunction idx upvals =>
      items.modify idx.toNat fun it => { it with content := it.content.setUpvals upvals }
  | .pushuserdata name len => items ++ [itemOf (.userdata 0 (name.take len.toNat))]
  | .setuserdata idx upvals =>
      items.modify idx.toNat fun it => { it with content := it.content.setUpvals upvals }
  | .settable idx slots array =>
      items.modify idx.toNat fun it =>
        { it with content := .table (slots.setWidth 32) (array.setWidth 32) }
  | .setmeta idx => items.modify idx.toNat fun it => { it with isMeta := true }

/-- There is an earlier value at `idx`, and it is of the kind that the call is for. -/
def At (items : List Item) (idx : ℤ) (kind : Content → Bool) : Prop :=
  0 ≤ idx ∧ ∃ it, items[idx.toNat]? = some it ∧ kind it.content = true

def Valid (items : List Item) : BuilderCall → Prop
  | .pushlstring p sz => sz.toNat ≤ p.length
  | .pushuserdata name len => len.toNat ≤ name.length
  | .pushreference ref => At items ref.toInt Content.isTable
  | .setfunction idx _ => At items idx Content.isFunction
  | .setuserdata idx _ => At items idx Content.isUserdata
  | .settable idx _ _ => At items idx Content.isTable
  | .setmeta idx => At items idx fun _ => true
  | _ => True

end BuilderCall

def specAll (items : List Item) (calls : List BuilderCall) : List Item :=
  calls.foldl BuilderCall.spec items

def ValidAll (items : List Item) : List BuilderCall → Prop
  | [] => True
  | call :: calls => call.Valid items ∧ ValidAll (call.spec items) calls

/-! ## Layout -/

@[simp]
theorem layout_append (xs ys : List Item) : layout (xs ++ ys) = layout xs ++ layout ys :=
  List.flatMap_append

@[simp]
theorem layout_singleton (it : Item) : layout [it] = it.bytes := by
  simp [layout]

@[simp]
theorem references_append (xs ys : List Item) :
    references (xs ++ ys) = references xs + references ys := List.countP_append

theorem length_layout (items : List Item) :
    (layout items).length = (items.map fun it => it.content.size).sum := by
  simp [layout, List.length_flatMap]

private theorem map_modify_of_eq {α β : Type*} {g : α → α} {f : α → β} {l : List α} {i : ℕ}
    (h : ∀ x, l[i]? = some x → f (g x) = f x) : (l.modify i g).map f = l.map f := by
  apply List.ext_getElem?
  intro j
  rw [List.getElem?_map, List.getElem?_map, List.getElem?_modify]
  by_cases hij : i = j
  · subst hij
    cases hx : l[i]? with
    | none => rfl
    | some x => simp [h x hx]
  · simp [hij]

section Modify

variable {items : List Item} {i : ℕ} {g : Item → Item}

theorem length_layout_modify
    (h : ∀ it, items[i]? = some it → (g it).content.size = it.content.size) :
    (layout (items.modify i g)).length = (layout items).length := by
  rw [length_layout, length_layout, map_modify_of_eq h]

theorem references_modify
    (h : ∀ it, items[i]? = some it → (g it).content.isReference = it.content.isReference) :
    references (items.modify i g) = references items := by
  have hcount : ∀ l : List Item,
      references l = (l.map fun it => it.content.isReference).countP id := by
    intro l
    rw [List.countP_map]
    rfl
  rw [hcount, hcount, map_modify_of_eq h]

end Modify

/-! ## Representation -/

structure Represents (mb : Builder) (items : List Item) : Prop where
  last : mb.last = items.length
  value : ∀ (i : ℕ) it, items[i]? = some it → (mb.values i).item? = some it
  bytes : mb.bytes + BitVec.ofNat 32 (4 * references items) =
    BitVec.ofNat 32 (layout items).length

theorem represents_msgBuilderInit (buf : Block) : Represents (msgBuilderInit buf) [] where
  last := rfl
  value := by simp
  bytes := rfl

section Step

variable {mb : Builder} {items : List Item}

theorem push_values (f : Value → Value) (size : Word) (block : Block) (mb : Builder) :
    (∀ i : ℕ, i < mb.last → (push f size (some block) mb).2.values i = mb.values i) ∧
      ∃ v, (push f size (some block) mb).2.values mb.last = f v := by
  constructor
  · intro i hi
    have hne : (i : ℤ) ≠ mb.last := by omega
    unfold push nextIndex
    split <;> simp [Builder.write, hne, hi]
  · unfold push nextIndex
    split
    · exact ⟨_, by simp [Builder.write]; rfl⟩
    · exact ⟨_, by simp [Builder.write]; rfl⟩

theorem represents_push (h : Represents mb items) {f : Value → Value} {size : Word} {it : Item}
    {block : Block} (hf : ∀ v, (f v).item? = some it)
    (hsize : size + BitVec.ofNat 32 (4 * references [it]) = BitVec.ofNat 32 it.content.size) :
    Represents (push f size (some block) mb).2 (items ++ [it]) := by
  have hlast : (push f size (some block) mb).2.last = mb.last + 1 := by
    unfold push nextIndex
    split <;> rfl
  have hbytes : (push f size (some block) mb).2.bytes = mb.bytes + size := by
    unfold push nextIndex
    split <;> rfl
  obtain ⟨hold, hnew⟩ := push_values f size block mb
  constructor
  · rw [hlast, h.last, List.length_append, List.length_singleton]
  · intro i x hx
    rw [List.getElem?_append] at hx
    split at hx
    · rename_i hi
      rw [hold i (by rw [h.last]; exact hi)]
      exact h.value i x hx
    · have hi : i = items.length := by
        by_contra hne
        rw [List.getElem?_eq_none (by simp; omega)] at hx
        cases hx
      subst hi
      simp only [Nat.sub_self, List.getElem?_cons_zero, Option.some.injEq] at hx
      obtain ⟨v, hv⟩ := hnew
      rw [← h.last, hv, hf v, hx]
  · rw [hbytes, references_append, layout_append, List.length_append, layout_singleton,
      Item.length_bytes, BitVec.ofNat_add, ← h.bytes, ← hsize, Nat.mul_add, BitVec.ofNat_add]
    ac_rfl

theorem represents_write (h : Represents mb items) {idx : ℤ} {f : Value → Value}
    {g : Item → Item} {mb' : Builder} (hidx : 0 ≤ idx)
    (hf : ∀ v it, items[idx.toNat]? = some it → v.item? = some it → (f v).item? = some (g it))
    (hsize : ∀ it, items[idx.toNat]? = some it → (g it).content.size = it.content.size)
    (hreference : ∀ it, items[idx.toNat]? = some it →
      (g it).content.isReference = it.content.isReference)
    (hlast : mb'.last = mb.last) (hbytes : mb'.bytes = mb.bytes)
    (hvalues : mb'.values = (mb.write idx f).values) :
    Represents mb' (items.modify idx.toNat g) := by
  constructor
  · rw [hlast, h.last, List.length_modify]
  · intro i x hx
    rw [List.getElem?_modify] at hx
    rw [hvalues]
    by_cases hi : idx.toNat = i
    · subst hi
      rw [Int.toNat_of_nonneg hidx]
      simp only [if_true, Option.map_eq_map, Option.map_eq_some_iff] at hx
      obtain ⟨it, hit, rfl⟩ := hx
      have hvalue := h.value _ it hit
      rw [Int.toNat_of_nonneg hidx] at hvalue
      simp only [Builder.write, Function.update_self]
      exact hf _ it hit hvalue
    · simp only [hi, if_false, Option.map_eq_map, Option.map_id'] at hx
      have hne : (i : ℤ) ≠ idx := by omega
      simp only [Builder.write, Function.update_of_ne hne]
      exact h.value i x hx
  · rw [hbytes, length_layout_modify hsize, references_modify hreference, h.bytes]

/-! ## Calls keep the representation -/

private theorem item?_of_code {v : Value} {c : Content} (htype : v.type = c.valueType.code)
    (hc : v.valueType = some c.valueType → v.content? = some c) :
    v.item? = some (itemOf c) := by
  have hvalueType : v.valueType = some c.valueType := by
    unfold Value.valueType
    rw [htype]
    cases c.valueType <;> rfl
  apply Value.item?_eq_some_iff.mpr
  refine ⟨hc hvalueType, ?_, ?_⟩
  · unfold Value.valueIsReferenced
    rw [htype]
    cases c.valueType <;> rfl
  · unfold Value.valueIsMeta
    rw [htype]
    cases c.valueType <;> rfl

private theorem At.unique {idx : ℤ} {kind : Content → Bool} (h : BuilderCall.At items idx kind) :
    ∀ it, items[idx.toNat]? = some it → kind it.content = true := by
  obtain ⟨-, old, hold, hkind⟩ := h
  intro it hit
  rw [hold] at hit
  cases hit
  exact hkind

private theorem size_setUpvals (upvals : Word) (c : Content) :
    (c.setUpvals upvals).size = c.size := by
  cases c <;> simp [Content.setUpvals, Content.size, Content.bytes]

private theorem isReference_setUpvals (upvals : Word) (c : Content) :
    (c.setUpvals upvals).isReference = c.isReference := by
  cases c <;> rfl

private theorem table_of_isTable {c : Content} (h : c.isTable = true) (slots array : Word) :
    (Content.table slots array).size = c.size ∧
      (Content.table slots array).isReference = c.isReference := by
  cases c with
  | table s a => exact ⟨rfl, rfl⟩
  | _ => cases h

private theorem represents_pushed (h : Represents mb items) {f : Value → Value} {size : Word}
    {c : Content} {block : Block} (htype : ∀ v, (f v).type = c.valueType.code)
    (hc : ∀ v, (f v).valueType = some c.valueType → (f v).content? = some c)
    (hreference : c.isReference = false) (hsize : size = BitVec.ofNat 32 c.size) :
    Represents (push f size (some block) mb).2 (items ++ [itemOf c]) := by
  apply represents_push h (fun v => item?_of_code (htype v) (hc v))
  have hnone : references [itemOf c] = 0 := by simp [references, itemOf, hreference]
  rw [hnone, hsize]
  exact BitVec.add_zero _

theorem represents_lcPushnil (h : Represents mb items) (block : Block) :
    Represents (lcPushnil (some block) mb).2 (items ++ [itemOf .nil]) := by
  apply represents_pushed h
  · exact fun _ => rfl
  · intro v hv
    rw [Value.content?, hv]
    rfl
  · rfl
  · rfl

theorem represents_lcPushboolean (h : Represents mb items) (b : Word) (block : Block) :
    Represents (lcPushboolean (some block) mb b).2 (items ++ [itemOf (.boolean (b ≠ 0))]) := by
  have hcode : (if b ≠ 0 then ValueType.tTrue else .tFalse) =
      (Content.boolean (b ≠ 0)).valueType := by
    by_cases hb : b = 0
    · rw [if_neg (not_not.mpr hb), decide_eq_false (not_not.mpr hb)]
      rfl
    · rw [if_pos hb, decide_eq_true hb]
      rfl
  unfold lcPushboolean
  rw [hcode]
  apply represents_pushed h
  · exact fun _ => rfl
  · intro v hv
    rw [Value.content?, hv]
    cases decide (b ≠ 0) <;> rfl
  · rfl
  · rfl

theorem represents_lcPushnumber (h : Represents mb items) (n : BitVec 64) (block : Block) :
    Represents (lcPushnumber (some block) mb n).2 (items ++ [itemOf (.number n)]) := by
  apply represents_pushed h
  · exact fun _ => rfl
  · intro v hv
    rw [Value.content?, hv]
    exact congrArg (fun m => some (Content.number m)) (words_append n)
  · rfl
  · rfl

theorem represents_lcCreatetable (h : Represents mb items) (block : Block) :
    Represents (lcCreatetable (some block) mb).2 (items ++ [itemOf (.table 0 0)]) := by
  apply represents_pushed h
  · exact fun _ => rfl
  · intro v hv
    rw [Value.content?, hv]
    rfl
  · rfl
  · rfl

section Payload

private theorem payload_eq {v : Value} {n : ℕ} (hlen : v.len = BitVec.ofNat 32 n)
    (hn : n < 2 ^ 31) (hptr : n ≤ v.ptr.length) : v.payload = some (v.ptr.take n) := by
  have htoNat : v.len.toNat = n := by
    rw [hlen, BitVec.toNat_ofNat, Nat.mod_eq_of_lt (by omega)]
  unfold Value.payload Bytes.read
  rw [htoNat, if_pos hn, if_pos (by omega), List.drop_zero]

private theorem length_payload_lt {xs : List Item} {it : Item}
    (h : (layout (xs ++ [it])).length < 2 ^ 31) : it.content.payload.length < 2 ^ 31 := by
  rw [layout_append, List.length_append, layout_singleton, Item.length_bytes] at h
  have := it.content.length_payload_le_size
  omega

theorem represents_lcPushlstring (h : Represents mb items) {p : List Byte} {sz : BitVec 64}
    (hvalid : sz.toNat ≤ p.length)
    (hsmall : (layout (items ++ [itemOf (.string (p.take sz.toNat))])).length < 2 ^ 31)
    (block : Block) :
    Represents (lcPushlstring (some block) mb p sz).2
      (items ++ [itemOf (.string (p.take sz.toNat))]) := by
  have hlong := length_payload_lt hsmall
  have hfits : (p.take sz.toNat).length = sz.toNat := by
    rw [List.length_take, Nat.min_eq_left hvalid]
  apply represents_pushed h
  · exact fun _ => rfl
  · intro v hv
    rw [Value.content?, hv]
    simp only [Content.valueType]
    rw [payload_eq (BitVec.ofNat_toNat 32 sz).symm (hfits ▸ hlong) hvalid]
    rfl
  · rfl
  · simp only [Content.size, Content.bytes, List.length_append, Bytes.length_ofWord, hfits,
      BitVec.ofNat_add, BitVec.ofNat_toNat]
    exact BitVec.add_assoc _ _ _

theorem represents_lcPushfunction (h : Represents mb items) {b : List Byte}
    (hsmall : (layout (items ++ [itemOf (.function 0 b)])).length < 2 ^ 31) (block : Block) :
    Represents (lcPushfunction (some block) mb b).2 (items ++ [itemOf (.function 0 b)]) := by
  have hlong := length_payload_lt hsmall
  apply represents_pushed h
  · exact fun _ => rfl
  · intro v hv
    rw [Value.content?, hv]
    simp only [Content.valueType]
    rw [payload_eq rfl hlong le_rfl]
    exact congrArg (fun s => some (Content.function 0 s)) List.take_length
  · rfl
  · simp only [Content.size, Content.bytes, List.length_append, Bytes.length_ofWord,
      BitVec.ofNat_add]
    exact (BitVec.add_assoc _ _ _).trans (BitVec.add_assoc _ _ _)

theorem represents_lcPushuserdata (h : Represents mb items) {name : List Byte} {len : Word}
    (hvalid : len.toNat ≤ name.length)
    (hsmall : (layout (items ++ [itemOf (.userdata 0 (name.take len.toNat))])).length < 2 ^ 31)
    (block : Block) :
    Represents (lcPushuserdata (some block) mb name len).2
      (items ++ [itemOf (.userdata 0 (name.take len.toNat))]) := by
  have hlong := length_payload_lt hsmall
  have hfits : (name.take len.toNat).length = len.toNat := by
    rw [List.length_take, Nat.min_eq_left hvalid]
  apply represents_pushed h
  · exact fun _ => rfl
  · intro v hv
    rw [Value.content?, hv]
    simp only [Content.valueType]
    rw [payload_eq (BitVec.ofNat_toNat 32 len).symm (hfits ▸ hlong) hfits.ge]
    exact congrArg (fun s => some (Content.userdata 0 s)) (List.take_of_length_le hfits.le)
  · rfl
  · simp only [Content.size, Content.bytes, List.length_append, Bytes.length_ofWord, hfits,
      BitVec.ofNat_add, BitVec.ofNat_toNat, BitVec.setWidth_eq]
    exact (BitVec.add_assoc _ _ _).trans (BitVec.add_assoc _ _ _)

end Payload

/-- The one push that counts four bytes less than it stores. -/
theorem represents_lcPushreference (h : Represents mb items) {ref : Word}
    (hvalid : BuilderCall.At items ref.toInt Content.isTable) (block : Block) :
    Represents (lcPushreference (some block) mb ref).2
      (items.modify ref.toInt.toNat (fun it => { it with referenced := true }) ++
        [itemOf (.reference ref)]) := by
  have hflagged : Represents
      ({ mb with refs := mb.refs + 1 }.write ref.toInt
        fun v => { v with type := v.type ||| tReferenced })
      (items.modify ref.toInt.toNat fun it => { it with referenced := true }) :=
    represents_write h hvalid.1 (fun _ _ _ hv => Value.item?_or_referenced hv)
      (fun _ _ => rfl) (fun _ _ => rfl) rfl rfl rfl
  apply represents_push hflagged
  · intro v
    apply item?_of_code rfl
    intro htype
    rw [Value.content?, htype]
    rfl
  · rfl

private theorem content?_upvals {v : Value} {c : Content} (hc : v.content? = some c)
    (hkind : c.isFunction ∨ c.isUserdata) (upvals : Word) :
    { v with low := upvals : Value }.content? = some (c.setUpvals upvals) := by
  have htype := Value.content?_valueType hc
  cases c with
  | function upvals' code =>
    rw [Value.content?_tFunction htype, Option.map_eq_some_iff] at hc
    obtain ⟨bs, hpayload, heq⟩ := hc
    cases heq
    have hcopy := congrArg (Option.map (Content.function upvals)) hpayload
    exact Eq.trans (Value.content?_tFunction (v := { v with low := upvals }) htype) hcopy
  | userdata upvals' name =>
    rw [Value.content?_tUserdata htype, Option.map_eq_some_iff] at hc
    obtain ⟨bs, hpayload, heq⟩ := hc
    cases heq
    have hcopy := congrArg (Option.map (Content.userdata upvals)) hpayload
    exact Eq.trans (Value.content?_tUserdata (v := { v with low := upvals }) htype) hcopy
  | _ => simp [Content.isFunction, Content.isUserdata] at hkind

theorem represents_setUpvals (h : Represents mb items) {idx : ℤ} (hidx : 0 ≤ idx)
    (hkind : ∀ it, items[idx.toNat]? = some it →
      it.content.isFunction ∨ it.content.isUserdata) (upvals : Word) :
    Represents (setUpvals mb idx upvals)
      (items.modify idx.toNat
        fun it => { it with content := it.content.setUpvals upvals }) := by
  apply represents_write h hidx (f := fun v => { v with low := upvals })
  · intro v it hit hv
    obtain ⟨hc, hreferenced, hmeta⟩ := Value.item?_eq_some_iff.mp hv
    apply Value.item?_eq_some_iff.mpr
    exact ⟨content?_upvals hc (hkind it hit) upvals, hreferenced, hmeta⟩
  · exact fun it _ => size_setUpvals upvals it.content
  · exact fun it _ => isReference_setUpvals upvals it.content
  · rfl
  · rfl
  · rfl

theorem represents_lcSettable (h : Represents mb items) {idx : ℤ}
    (hvalid : BuilderCall.At items idx Content.isTable) (slots array : BitVec 64) :
    Represents (lcSettable mb idx slots array)
      (items.modify idx.toNat fun it =>
        { it with content := .table (slots.setWidth 32) (array.setWidth 32) }) := by
  have htable := At.unique hvalid
  apply represents_write h hvalid.1
    (f := fun v => { v with high := slots.setWidth 32, low := array.setWidth 32 })
  · intro v it hit hv
    obtain ⟨hc, hreferenced, hmeta⟩ := Value.item?_eq_some_iff.mp hv
    apply Value.item?_eq_some_iff.mpr
    refine ⟨?_, hreferenced, hmeta⟩
    have htype := Value.content?_valueType hc
    cases hcontent : it.content with
    | table s a =>
      rw [hcontent] at htype
      exact Value.content?_tTable htype
    | _ =>
      have hkind := htable it hit
      rw [hcontent] at hkind
      cases hkind
  · exact fun it hit => (table_of_isTable (htable it hit) _ _).1
  · exact fun it hit => (table_of_isTable (htable it hit) _ _).2
  · rfl
  · rfl
  · rfl

theorem represents_lcSetmeta (h : Represents mb items) {idx : ℤ} (hidx : 0 ≤ idx) :
    Represents (lcSetmeta mb idx) (items.modify idx.toNat fun it => { it with isMeta := true }) :=
  represents_write h hidx (fun _ _ _ hv => Value.item?_or_meta hv)
    (fun _ _ => rfl) (fun _ _ => rfl) rfl rfl rfl

theorem Represents.apply (h : Represents mb items) (call : BuilderCall) (hvalid : call.Valid items)
    (hsmall : (layout (call.spec items)).length < 2 ^ 31) (block : Block) :
    Represents (call.apply (some block) mb) (call.spec items) := by
  cases call with
  | pushnil => exact represents_lcPushnil h block
  | pushboolean b => exact represents_lcPushboolean h b block
  | pushnumber n => exact represents_lcPushnumber h n block
  | pushlstring p sz => exact represents_lcPushlstring h hvalid hsmall block
  | pushreference ref => exact represents_lcPushreference h hvalid block
  | createtable => exact represents_lcCreatetable h block
  | pushfunction b => exact represents_lcPushfunction h hsmall block
  | pushuserdata name len => exact represents_lcPushuserdata h hvalid hsmall block
  | setfunction idx upvals =>
    exact represents_setUpvals h hvalid.1 (fun it hit => .inl (At.unique hvalid it hit)) upvals
  | setuserdata idx upvals =>
    exact represents_setUpvals h hvalid.1 (fun it hit => .inr (At.unique hvalid it hit)) upvals
  | settable idx slots array => exact represents_lcSettable h hvalid slots array
  | setmeta idx => exact represents_lcSetmeta h hvalid.1

end Step

/-! ## Runs -/

def BuilderCall.isPushreference : BuilderCall → Bool
  | .pushreference _ => true
  | _ => false

section Run

variable {items : List Item}

theorem length_layout_le_spec {call : BuilderCall} (hvalid : call.Valid items) :
    (layout items).length ≤ (layout (call.spec items)).length := by
  cases call with
  | setfunction idx upvals =>
    exact (length_layout_modify fun it _ => size_setUpvals upvals it.content).ge
  | setuserdata idx upvals =>
    exact (length_layout_modify fun it _ => size_setUpvals upvals it.content).ge
  | settable idx slots array =>
    exact (length_layout_modify fun it hit =>
      (table_of_isTable (At.unique hvalid it hit) _ _).1).ge
  | setmeta idx =>
    rw [BuilderCall.spec, length_layout_modify]
    intro it hit
    rfl
  | pushreference ref =>
    rw [BuilderCall.spec, layout_append, List.length_append, length_layout_modify]
    · exact Nat.le_add_right _ _
    · intro it hit
      rfl
  | _ =>
    rw [BuilderCall.spec, layout_append, List.length_append]
    exact Nat.le_add_right _ _

theorem references_spec {call : BuilderCall} (hvalid : call.Valid items) :
    references (call.spec items) = references items + call.isPushreference.toNat := by
  cases call with
  | setfunction idx upvals =>
    exact references_modify fun it _ => isReference_setUpvals upvals it.content
  | setuserdata idx upvals =>
    exact references_modify fun it _ => isReference_setUpvals upvals it.content
  | settable idx slots array =>
    exact references_modify fun it hit => (table_of_isTable (At.unique hvalid it hit) _ _).2
  | setmeta idx =>
    rw [BuilderCall.spec, references_modify]
    · rfl
    · intro it hit
      rfl
  | pushreference ref =>
    rw [BuilderCall.spec, references_append, references_modify]
    · rfl
    · intro it hit
      rfl
  | _ =>
    rw [BuilderCall.spec, references_append]
    rfl

theorem length_layout_le_specAll {calls : List BuilderCall} (hvalid : ValidAll items calls) :
    (layout items).length ≤ (layout (specAll items calls)).length := by
  induction calls generalizing items with
  | nil => exact le_rfl
  | cons call calls ih => exact (length_layout_le_spec hvalid.1).trans (ih hvalid.2)

theorem references_specAll {calls : List BuilderCall} (hvalid : ValidAll items calls) :
    references (specAll items calls) =
      references items + calls.countP BuilderCall.isPushreference := by
  induction calls generalizing items with
  | nil => rfl
  | cons call calls ih =>
    have hrest := ih hvalid.2
    rw [references_spec hvalid.1] at hrest
    rw [specAll, List.foldl_cons, ← specAll, hrest, List.countP_cons]
    cases call.isPushreference <;> simp
    omega

theorem Represents.build {mb : Builder} (h : Represents mb items)
    {calls : List (BuilderCall × Block)}
    (hvalid : ValidAll items (calls.map Prod.fst))
    (hsmall : (layout (specAll items (calls.map Prod.fst))).length < 2 ^ 31) :
    Represents (Casting.build mb calls) (specAll items (calls.map Prod.fst)) := by
  induction calls generalizing mb items with
  | nil => exact h
  | cons call calls ih =>
    have hnext := length_layout_le_specAll hvalid.2
    exact ih (h.apply call.1 hvalid.1 (lt_of_le_of_lt hnext hsmall) call.2) hvalid.2 hsmall

end Run

end Casting
