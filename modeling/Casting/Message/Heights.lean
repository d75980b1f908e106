import Casting.Message.Decoding

/-!
# Stack heights

What decoding does to the height of the Lua stack, however much of a stream a message counts:
every value is pushed, and a table takes its entries off again.  No part of a stream that is
left unread leaves the height as it should be.
-/

namespace Casting

/-! ## Weights -/

def Content.weight : Content → ℤ
  | .table slots _ => 1 - 2 * slots.toNat
  | _ => 1

def weight (cs : List Content) : ℤ := (cs.map Content.weight).sum

theorem weight_append (cs cs' : List Content) : weight (cs ++ cs') = weight cs + weight cs' := by
  simp [weight]

theorem weight_cons (c : Content) (cs : List Content) : weight (c :: cs) = c.weight + weight cs :=
  rfl

theorem weight_take_succ {cs : List Content} {i : ℕ} {c : Content} (hc : cs[i]? = some c) :
    weight (cs.take (i + 1)) = weight (cs.take i) + c.weight := by
  obtain ⟨hlt, hget⟩ := List.getElem?_eq_some_iff.mp hc
  rw [List.take_succ_eq_append_getElem hlt, hget, weight_append, weight_cons]
  exact congrArg _ (Int.add_zero _)

def Content.isData : Content → Bool
  | .function _ _ => false
  | .userdata _ _ => false
  | _ => true

section Encodes

variable {h : LuaHeap} {objlen : Address → ℕ}

private theorem isData_scalar {v : LuaValue} {c : Content} (hc : v.scalar = some c) :
    c.isData = true := by
  cases v with
  | nil | boolean | number | string =>
    cases hc
    rfl
  | _ => cases hc

private theorem isData_both :
    (∀ seen i v cs seen', Encodes h objlen seen i v cs seen' → ∀ c ∈ cs, c.isData = true) ∧
    ∀ seen i vs cs seen', EncodesAll h objlen seen i vs cs seen' → ∀ c ∈ cs, c.isData = true := by
  apply encodes_induction
  case scalar =>
    intro seen i v c hc c' hc'
    rw [List.mem_singleton.mp hc']
    exact isData_scalar hc
  case reference =>
    intro seen i j a _ c hc
    rw [List.mem_singleton.mp hc]
    rfl
  case table =>
    intro seen seen' i a t cs _ _ _ ih c hc
    rcases List.mem_cons.mp hc with rfl | hc
    · rfl
    · exact ih c hc
  case nil => simp
  case cons =>
    intro seen seen' seen'' i v vs cs cs' ih ih' c hc
    rcases List.mem_append.mp hc with hc | hc
    · exact ih c hc
    · exact ih' c hc

theorem EncodesAll.isData {seen seen' : Visited} {i : ℕ} {vs : List LuaValue} {cs : List Content}
    (hall : EncodesAll h objlen seen i vs cs seen') : ∀ c ∈ cs, c.isData = true :=
  isData_both.2 _ _ _ _ _ hall

end Encodes

/-! ## Reading -/

/-- Reading from position `i` to position `i'` of a stream has made the stack as much higher as
these values weigh, but for `popped` values. -/
structure Consumes (cs : List Content) (limit : ℕ) (L : LuaState) (i : ℕ) (L' : LuaState) (i' : ℕ)
    (popped : ℤ) : Prop where
  le : i ≤ i'
  bound : i' ≤ cs.length
  height : (L'.stack.length : ℤ) + popped =
    L.stack.length + (weight (cs.take i') - weight (cs.take i))
  readable : ∀ j, i ≤ j → j < i' → streamSize (cs.take j) < limit

section Consumes

variable {cs : List Content} {limit : ℕ} {L L₁ L₂ : LuaState} {i i₁ i₂ : ℕ} {n n' : ℤ}

theorem Consumes.refl (hi : i ≤ cs.length) : Consumes cs limit L i L i 0 where
  le := le_rfl
  bound := hi
  height := by omega
  readable := fun j hle hlt => (not_lt.mpr hle hlt).elim

theorem Consumes.trans (h₁ : Consumes cs limit L i L₁ i₁ n)
    (h₂ : Consumes cs limit L₁ i₁ L₂ i₂ n') :
    Consumes cs limit L i L₂ i₂ (n + n') where
  le := h₁.le.trans h₂.le
  bound := h₂.bound
  height := by
    have := h₁.height
    have := h₂.height
    omega
  readable := by
    intro j hle hlt
    by_cases hmid : j < i₁
    · exact h₁.readable j hle hmid
    · exact h₂.readable j (not_lt.mp hmid) hlt

theorem Consumes.pop (h : Consumes cs limit L i L₁ i₁ n)
    (hstack : (L₂.stack.length : ℤ) + n' = L₁.stack.length) :
    Consumes cs limit L i L₂ i₁ (n + n') where
  le := h.le
  bound := h.bound
  height := by
    have := h.height
    omega
  readable := h.readable

theorem Consumes.next {c : Content} (hc : cs[i]? = some c)
    (hlimit : streamSize (cs.take i) < limit)
    (hstack : L₁.stack.length = L.stack.length + 1) :
    Consumes cs limit L i L₁ (i + 1) (c.weight - 1) where
  le := Nat.le_succ i
  bound := (List.getElem?_eq_some_iff.mp hc).1
  height := by
    rw [weight_take_succ hc, hstack]
    push_cast
    omega
  readable := by
    intro j hle hlt
    rw [show j = i by omega]
    exact hlimit

end Consumes

section Heights

variable (cs : List Content) (limit : ℕ)

/-- A reader that keeps count of the stack, and fails only where no more can be read. -/
def Balanced (decode : ValueReader) : Prop :=
  ∀ (L : LuaState) (i : ℕ) (result : ℤ) (L' : LuaState) (cur : Cursor), i ≤ cs.length →
    decode L (cursorAt cs i) = some (result, L', cur) →
    ∃ i', cur = cursorAt cs i' ∧ Consumes cs limit L i L' i' 0 ∧
      (result ≠ ReturnCode.success.toInt → limit ≤ streamSize (cs.take i'))

variable {cs limit}

theorem length_luaRawset {L L' : LuaState} {idx : ℤ} (h : luaRawset L idx = some L') :
    L'.stack.length + 2 = L.stack.length := by
  unfold luaRawset at h
  cases htable : L.tableAt idx with
  | none => simp [htable] at h
  | some x =>
    simp only [htable, Option.bind_eq_bind, Option.bind_some] at h
    match hstack : L.stack, h with
    | v :: k :: stack, h =>
      obtain ⟨t, -, ht⟩ := Option.bind_eq_some_iff.mp h
      cases ht
      rfl
    | [v], h =>
      cases h
    | [], h =>
      cases h

theorem length_luaRawseti {L L' : LuaState} {idx n : ℤ} (h : luaRawseti L idx n = some L') :
    L'.stack.length + 1 = L.stack.length := by
  unfold luaRawseti at h
  cases htable : L.tableAt idx with
  | none => simp [htable] at h
  | some x =>
    simp only [htable, Option.bind_eq_bind, Option.bind_some] at h
    match hstack : L.stack, h with
    | v :: stack, h =>
      obtain ⟨t, -, ht⟩ := Option.bind_eq_some_iff.mp h
      cases ht
      rfl
    | [], h =>
      cases h

theorem length_luaRawgeti {L L' : LuaState} {idx n : ℤ} (h : luaRawgeti L idx n = some L') :
    L'.stack.length = L.stack.length + 1 := by
  unfold luaRawgeti at h
  cases htable : L.tableAt idx with
  | none => simp [htable] at h
  | some x =>
    simp only [htable, Option.bind_eq_bind, Option.bind_some, Option.some.injEq] at h
    rw [← h]
    rfl

theorem decodeEntries_balanced {decode : ValueReader} (hdecode : Balanced cs limit decode) {n : ℕ}
    {L L' : LuaState} {i : ℕ} {cur : Cursor} (hi : i ≤ cs.length)
    (h : decodeEntries decode n L (cursorAt cs i) = some (L', cur)) :
    ∃ i', cur = cursorAt cs i' ∧ Consumes cs limit L i L' i' (2 * n) := by
  induction n generalizing L i with
  | zero =>
    cases h
    exact ⟨i, rfl, Consumes.refl hi⟩
  | succ n ih =>
    rw [decodeEntries] at h
    obtain ⟨⟨r, Lk, curk⟩, hkey, h⟩ := Option.bind_eq_some_iff.mp h
    obtain ⟨ik, rfl, hconsk, -⟩ := hdecode L i r Lk curk hi hkey
    obtain ⟨⟨r', Lv, curv⟩, hvalue, h⟩ := Option.bind_eq_some_iff.mp h
    obtain ⟨iv, rfl, hconsv, -⟩ := hdecode Lk ik r' Lv curv hconsk.bound hvalue
    obtain ⟨L₁, hset, h⟩ := Option.bind_eq_some_iff.mp h
    have hpopped : (L₁.stack.length : ℤ) + 2 = Lv.stack.length := by
      rw [← length_luaRawset hset]
      rfl
    obtain ⟨i', hcur, hcons⟩ := ih hconsv.bound h
    refine ⟨i', hcur, ?_⟩
    have hentry := ((hconsk.trans hconsv).pop hpopped).trans hcons
    rw [show (2 * ((n + 1 : ℕ) : ℤ)) = 0 + 0 + 2 + 2 * n by push_cast; ring]
    exact hentry

theorem length_created {L L' : LuaState} {top count : ℤ} {referenced : Bool}
    (h : (if referenced then
        (luaPushvalue (luaCreatetable L) (-1)).bind fun L => luaRawseti L top count
      else some (luaCreatetable L)) = some L') : L'.stack.length = L.stack.length + 1 := by
  cases referenced with
  | false =>
    cases h
    rfl
  | true =>
    rw [if_pos rfl, luaPushvalue, LuaState.value_top ⟨L.stack, rfl⟩, Option.map_some,
      Option.bind_some] at h
    have hlength := length_luaRawseti h
    rw [LuaState.push, List.length_cons, luaCreatetable, List.length_cons] at hlength
    exact Nat.succ.inj hlength

theorem decodeBody_balanced {lib : LuaLibrary} {decode : ValueReader} {top count : ℤ} {v : Value}
    {c : Content} {L L' : LuaState} {i : ℕ} {cur : Cursor} (hdecode : Balanced cs limit decode)
    (hc : cs[i]? = some c) (hdata : c.isData = true) (hlimit : streamSize (cs.take i) < limit)
    (hv : v.content? = some c)
    (h : decodeBody lib decode top count v L (cursorAt cs (i + 1)) c.valueType = some (L', cur)) :
    ∃ i', cur = cursorAt cs i' ∧ Consumes cs limit L i L' i' 0 := by
  have hscalar : ∀ w : LuaValue, w.scalar = some c → c.weight = 1 →
      ∃ i', cur = cursorAt cs i' ∧ Consumes cs limit L i L' i' 0 := by
    intro w hw hweight
    rw [decodeBody_scalar hv hw] at h
    cases h
    have hnext : Consumes cs limit L i (L.push w) (i + 1) (c.weight - 1) :=
      Consumes.next hc hlimit rfl
    rw [hweight] at hnext
    exact ⟨i + 1, rfl, hnext⟩
  cases c with
  | nil => exact hscalar .nil rfl rfl
  | boolean b => exact hscalar (.boolean b) rfl rfl
  | number n => exact hscalar (.number n) rfl rfl
  | string s => exact hscalar (.string s) rfl rfl
  | function upvals code => cases hdata
  | userdata upvals name => cases hdata
  | reference ref =>
    rw [Content.valueType, decodeBody_reference hv] at h
    obtain ⟨L₁, hget, heq⟩ := Option.map_eq_some_iff.mp h
    cases heq
    have hnext := Consumes.next hc hlimit (length_luaRawgeti hget)
    exact ⟨i + 1, rfl, hnext⟩
  | table slots array =>
    rw [Content.valueType, decodeBody_table hv] at h
    obtain ⟨L₁, hcreate, hloop⟩ := Option.bind_eq_some_iff.mp h
    have hnext := Consumes.next hc hlimit (length_created hcreate)
    obtain ⟨i', hcur, hcons⟩ := decodeEntries_balanced hdecode hnext.bound hloop
    have htable := hnext.trans hcons
    rw [Content.weight, show (1 - 2 * (slots.toNat : ℤ) - 1 + 2 * slots.toNat) = 0 by ring]
      at htable
    exact ⟨i', hcur, htable⟩

variable {lib : LuaLibrary} {m : Message} {top : ℤ}

theorem decodeValue_balanced [lib.StackGrows] (hcarries : Carries m cs limit)
    (hend : limit ≤ streamSize cs) (hdata : ∀ c ∈ cs, c.isData = true) (fuel : ℕ) :
    Balanced cs limit (decodeValue lib m top fuel) := by
  induction fuel with
  | zero =>
    intro L i result L' cur _ h
    cases h
  | succ fuel ih =>
    intro L i result L' cur hi h
    by_cases hlimit : streamSize (cs.take i) < limit
    · have hlt : i < cs.length := by
        by_contra hle
        rw [List.take_of_length_le (not_lt.mp hle)] at hlimit
        exact absurd hlimit (not_lt.mpr hend)
      have hc := List.getElem?_eq_getElem hlt
      obtain ⟨v, hv, -, hdecode⟩ := hcarries.decodeValue lib top hc hlimit fuel L
      rw [hdecode] at h
      obtain ⟨⟨L₁, cur₁⟩, hbody, heq⟩ := Option.map_eq_some_iff.mp h
      cases heq
      obtain ⟨i', hcur, hcons⟩ :=
        decodeBody_balanced ih hc (hdata _ (List.getElem_mem hlt)) hlimit hv hbody
      exact ⟨i', hcur, hcons, fun hne => (hne rfl).elim⟩
    · rw [hcarries.decodeValue_end lib top (not_lt.mp hlimit)] at h
      cases h
      exact ⟨i, rfl, Consumes.refl hi, fun _ => not_lt.mp hlimit⟩

/-- The loop of `lua_decodemessage` reads to the end that the size of the message gives. -/
theorem decodeLoop_balanced [lib.StackGrows] (hcarries : Carries m cs limit)
    (hend : limit ≤ streamSize cs)
    (hdata : ∀ c ∈ cs, c.isData = true) {fuel n : ℕ} {L L' : LuaState} {i : ℕ}
    (hi : i ≤ cs.length) (h : decodeLoop lib m top fuel n L (cursorAt cs i) = some L') :
    ∃ i', Consumes cs limit L i L' i' 0 ∧ limit ≤ streamSize (cs.take i') := by
  induction n generalizing L i with
  | zero => cases h
  | succ n ih =>
    rw [decodeLoop] at h
    obtain ⟨⟨result, L₁, cur₁⟩, hvalue, h⟩ := Option.bind_eq_some_iff.mp h
    obtain ⟨i₁, rfl, hcons, hstop⟩ :=
      decodeValue_balanced hcarries hend hdata fuel L i result L₁ cur₁ hi hvalue
    by_cases hsuccess : result = ReturnCode.success.toInt
    · simp only [hsuccess, if_true] at h
      obtain ⟨i', hcons', hlimit⟩ := ih hcons.bound h
      exact ⟨i', hcons.trans hcons', hlimit⟩
    · simp only [hsuccess, if_false] at h
      cases h
      exact ⟨i₁, hcons, hstop hsuccess⟩

end Heights

end Casting
