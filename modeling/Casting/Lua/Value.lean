import Casting.Framework.Bytes
import Mathlib.Data.List.Basic
import Mathlib.Data.Nat.Log

/-!
# Lua values and tables

Values and tables as the functions of the Lua 5.1 manual see them.  A number is the bits of its
double.  Raw equality is equality of bits except for NaN, which equals nothing, and the two
zeros, which are equal.
-/

namespace Casting

/-- `lua_Number`. -/
abbrev LuaNumber := BitVec 64

/-- The identity of a table, function, userdata or thread: what `lua_topointer` gives. -/
abbrev Address := ℕ

namespace LuaNumber

def isNaN (x : LuaNumber) : Bool := 2047 * 2 ^ 52 < x.toNat % 2 ^ 63

def isZero (x : LuaNumber) : Bool := x.toNat % 2 ^ 63 = 0

def eq (x y : LuaNumber) : Bool :=
  !isNaN x && !isNaN y && (x = y || (isZero x && isZero y))

/-- The bits of a natural number that a double holds exactly. -/
def natBits (n : ℕ) : ℕ :=
  if n = 0 then 0
  else (1023 + Nat.log2 n) * 2 ^ 52 + (n - 2 ^ Nat.log2 n) * 2 ^ (52 - Nat.log2 n)

/-- The conversion of an `int`. -/
def ofInt (i : ℤ) : LuaNumber :=
  BitVec.ofNat 64 (natBits i.natAbs + if i < 0 then 2 ^ 63 else 0)

private theorem natBits_of_pos {n : ℕ} (hn : 0 < n) :
    natBits n =
      (1023 + Nat.log 2 n) * 2 ^ 52 + (n - 2 ^ Nat.log 2 n) * 2 ^ (52 - Nat.log 2 n) := by
  rw [natBits, if_neg (by omega), Nat.log2_eq_log_two]

theorem natBits_div {n : ℕ} (hn : 0 < n) (hsmall : n < 2 ^ 52) :
    natBits n / 2 ^ 52 = 1023 + Nat.log 2 n := by
  have hlog : 2 ^ Nat.log 2 n ≤ n := Nat.pow_log_le_self 2 (by omega)
  have hlog' : n < 2 ^ (Nat.log 2 n + 1) := Nat.lt_pow_succ_log_self (by decide) n
  have hle : Nat.log 2 n < 52 := Nat.log_lt_of_lt_pow (by omega) hsmall
  have hmantissa : (n - 2 ^ Nat.log 2 n) * 2 ^ (52 - Nat.log 2 n) < 2 ^ 52 := by
    calc (n - 2 ^ Nat.log 2 n) * 2 ^ (52 - Nat.log 2 n)
        < 2 ^ Nat.log 2 n * 2 ^ (52 - Nat.log 2 n) := by
          apply Nat.mul_lt_mul_of_pos_right
          · rw [pow_succ] at hlog'
            omega
          · exact Nat.two_pow_pos _
      _ = 2 ^ 52 := by
          rw [← pow_add]
          congr 1
          omega
  rw [natBits_of_pos hn, Nat.add_comm, Nat.add_mul_div_right _ _ (by decide),
    Nat.div_eq_of_lt hmantissa, Nat.zero_add]

theorem natBits_injective {m n : ℕ} (hm : m < 2 ^ 52) (hn : n < 2 ^ 52)
    (h : natBits m = natBits n) : m = n := by
  rcases Nat.eq_zero_or_pos m with rfl | hmpos
  · rcases Nat.eq_zero_or_pos n with rfl | hnpos
    · rfl
    · have := natBits_div hnpos hn
      rw [← h, natBits, if_pos rfl] at this
      omega
  · rcases Nat.eq_zero_or_pos n with rfl | hnpos
    · have := natBits_div hmpos hm
      rw [h, natBits, if_pos rfl] at this
      omega
    · have hlog : Nat.log 2 m = Nat.log 2 n := by
        have hmdiv := natBits_div hmpos hm
        rw [h, natBits_div hnpos hn] at hmdiv
        omega
      have hmle : 2 ^ Nat.log 2 m ≤ m := Nat.pow_log_le_self 2 (by omega)
      have hnle : 2 ^ Nat.log 2 n ≤ n := Nat.pow_log_le_self 2 (by omega)
      rw [natBits_of_pos hmpos, natBits_of_pos hnpos, hlog] at h
      have hmul := Nat.add_left_cancel h
      have := Nat.eq_of_mul_eq_mul_right (Nat.two_pow_pos _) hmul
      rw [hlog] at hmle
      omega

theorem natBits_le {n : ℕ} (hsmall : n < 2 ^ 52) : natBits n < 1100 * 2 ^ 52 := by
  rcases Nat.eq_zero_or_pos n with rfl | hpos
  · decide
  · have hdiv := natBits_div hpos hsmall
    have hle : Nat.log 2 n < 52 := Nat.log_lt_of_lt_pow (by omega) hsmall
    rw [← Nat.div_lt_iff_lt_mul (by decide)]
    omega

theorem toNat_ofInt {n : ℕ} (hsmall : n < 2 ^ 52) : (ofInt n).toNat = natBits n := by
  have := natBits_le hsmall
  rw [ofInt, if_neg (by omega), Int.natAbs_natCast, Nat.add_zero, BitVec.toNat_ofNat,
    Nat.mod_eq_of_lt (by omega)]

theorem isNaN_ofInt {n : ℕ} (hsmall : n < 2 ^ 52) : isNaN (ofInt n) = false := by
  have := natBits_le hsmall
  rw [isNaN, toNat_ofInt hsmall, Nat.mod_eq_of_lt (by omega), decide_eq_false_iff_not]
  omega

theorem eq_ofInt {m n : ℕ} (hm : m < 2 ^ 52) (hn : n < 2 ^ 52) :
    eq (ofInt m) (ofInt n) = decide (m = n) := by
  have hmle := natBits_le hm
  have hnle := natBits_le hn
  rw [eq, isNaN_ofInt hm, isNaN_ofInt hn]
  by_cases h : m = n
  · simp [h]
  · have hne : natBits m ≠ natBits n := fun hbits => h (natBits_injective hm hn hbits)
    have hbits : ofInt m ≠ ofInt n := by
      intro heq
      apply hne
      rw [← toNat_ofInt hm, heq, toNat_ofInt hn]
    have hzero : isZero (ofInt m) = true → isZero (ofInt n) = false := by
      unfold isZero
      rw [toNat_ofInt hm, toNat_ofInt hn, Nat.mod_eq_of_lt (by omega),
        Nat.mod_eq_of_lt (by omega), decide_eq_true_eq, decide_eq_false_iff_not]
      omega
    cases hz : isZero (ofInt m) with
    | false => simp [h, hbits]
    | true => simp [h, hbits, hzero hz]

end LuaNumber

/-! ## Values -/

inductive LuaValue
  | nil
  | boolean (b : Bool)
  | number (n : LuaNumber)
  | string (s : List Byte)
  | table (a : Address)
  | function (a : Address)
  | userdata (a : Address)
  | lightuserdata (a : Address)
  | thread (a : Address)
  deriving DecidableEq, Repr

namespace LuaValue

/-- `lua_rawequal`. -/
def rawEqual : LuaValue → LuaValue → Bool
  | .number x, .number y => LuaNumber.eq x y
  | v, w => v = w

/-- A value that a table can have as a key. -/
def isKey : LuaValue → Bool
  | .nil => false
  | .number n => !LuaNumber.isNaN n
  | _ => true

theorem rawEqual_self {v : LuaValue} (h : v.isKey = true) : rawEqual v v = true := by
  cases v with
  | number n =>
    have hnan : LuaNumber.isNaN n = false := by simpa [isKey] using h
    simp [rawEqual, LuaNumber.eq, hnan]
  | _ => simp [rawEqual]

theorem rawEqual_comm (v w : LuaValue) : rawEqual v w = rawEqual w v := by
  cases v <;> cases w <;> simp only [rawEqual, eq_comm]
  rename_i x y
  simp only [LuaNumber.eq, Bool.and_comm (!LuaNumber.isNaN x), eq_comm,
    Bool.and_comm (LuaNumber.isZero x)]

theorem eq_of_rawEqual {v w : LuaValue} (h : rawEqual v w = true)
    (hv : ∀ x, v ≠ .number x) : v = w := by
  cases v with
  | number x => exact (hv x rfl).elim
  | _ => exact of_decide_eq_true h

theorem rawEqual_congr {u v w : LuaValue} (h : rawEqual u v = true) :
    rawEqual u w = rawEqual v w := by
  cases u with
  | number x =>
    cases v with
    | number y =>
      cases w with
      | number z =>
        simp only [rawEqual, LuaNumber.eq, Bool.and_eq_true, Bool.not_eq_true', Bool.or_eq_true,
          decide_eq_true_eq] at h ⊢
        obtain ⟨⟨hx, hy⟩, rfl | ⟨hzx, hzy⟩⟩ := h
        · rfl
        · rw [hx, hy, hzx, hzy]
          cases hz : LuaNumber.isZero z with
          | true => simp
          | false =>
            have hxz : x ≠ z := by
              rintro rfl
              rw [hzx] at hz
              cases hz
            have hyz : y ≠ z := by
              rintro rfl
              rw [hzy] at hz
              cases hz
            simp [hxz, hyz]
      | _ => rfl
    | _ => simp [rawEqual] at h
  | _ => rw [eq_of_rawEqual h (fun _ hnumber => LuaValue.noConfusion hnumber)]

end LuaValue

/-! ## Tables -/

abbrev LuaEntry := LuaValue × LuaValue

/-- A table: its entries in the order of `lua_next`. -/
structure LuaTable where
  entries : List LuaEntry
  metatable : Option Address
  distinct : entries.Pairwise fun e f => LuaValue.rawEqual e.1 f.1 = false
  keys : ∀ e ∈ entries, e.1.isKey = true
  values : ∀ e ∈ entries, e.2 ≠ .nil

namespace LuaTable

/-- `lua_createtable`. -/
def empty : LuaTable where
  entries := []
  metatable := none
  distinct := List.Pairwise.nil
  keys := by simp
  values := by simp

/-- `lua_rawget`. -/
def rawget (t : LuaTable) (k : LuaValue) : LuaValue :=
  ((t.entries.find? fun e => LuaValue.rawEqual e.1 k).map Prod.snd).getD .nil

/-- `lua_next`: the entry after a key, the first one after nil.  A key that is not in the table
is an error. -/
def next (t : LuaTable) (k : LuaValue) : Option (Option LuaEntry) :=
  if k = .nil then some t.entries.head?
  else
    match t.entries.dropWhile fun e => !LuaValue.rawEqual e.1 k with
    | [] => none
    | _ :: rest => some rest.head?

/-- The entries after a value that is not nil is put under a key. -/
def assigned (entries : List LuaEntry) (k v : LuaValue) : List LuaEntry :=
  if entries.any fun e => LuaValue.rawEqual e.1 k then
    entries.map fun e => if LuaValue.rawEqual e.1 k then (e.1, v) else e
  else entries ++ [(k, v)]

theorem mem_assigned {entries : List LuaEntry} {k v : LuaValue} {e : LuaEntry}
    (h : e ∈ assigned entries k v) :
    (e.1 = k ∨ ∃ f ∈ entries, e.1 = f.1) ∧ (e.2 = v ∨ ∃ f ∈ entries, e.2 = f.2) := by
  unfold assigned at h
  split at h
  · obtain ⟨f, hf, rfl⟩ := List.mem_map.mp h
    split
    · exact ⟨.inr ⟨f, hf, rfl⟩, .inl rfl⟩
    · exact ⟨.inr ⟨f, hf, rfl⟩, .inr ⟨f, hf, rfl⟩⟩
  · rcases List.mem_append.mp h with he | he
    · exact ⟨.inr ⟨e, he, rfl⟩, .inr ⟨e, he, rfl⟩⟩
    · rw [List.mem_singleton.mp he]
      exact ⟨.inl rfl, .inl rfl⟩

theorem distinct_assigned {entries : List LuaEntry} {k v : LuaValue}
    (h : entries.Pairwise fun e f => LuaValue.rawEqual e.1 f.1 = false) :
    (assigned entries k v).Pairwise fun e f => LuaValue.rawEqual e.1 f.1 = false := by
  unfold assigned
  split
  · rw [List.pairwise_map]
    apply h.imp
    intro e f hne
    split <;> split <;> exact hne
  · rename_i hnone
    rw [List.pairwise_append]
    refine ⟨h, List.pairwise_singleton _ _, ?_⟩
    intro e he f hf
    rw [List.mem_singleton.mp hf]
    cases heq : LuaValue.rawEqual e.1 k with
    | false => rfl
    | true => exact (hnone (List.any_eq_true.mpr ⟨e, he, heq⟩)).elim

/-- `lua_rawset` of a value that is not nil. -/
def assign (t : LuaTable) (k v : LuaValue) (hk : k.isKey = true) (hv : v ≠ .nil) : LuaTable where
  entries := assigned t.entries k v
  metatable := t.metatable
  distinct := distinct_assigned t.distinct
  keys := by
    intro e he
    rcases (mem_assigned he).1 with heq | ⟨f, hf, heq⟩
    · rw [heq]
      exact hk
    · rw [heq]
      exact t.keys f hf
  values := by
    intro e he
    rcases (mem_assigned he).2 with heq | ⟨f, hf, heq⟩
    · rw [heq]
      exact hv
    · rw [heq]
      exact t.values f hf

/-- `lua_rawset` of nil. -/
def erase (t : LuaTable) (k : LuaValue) : LuaTable where
  entries := t.entries.filter fun e => !LuaValue.rawEqual e.1 k
  metatable := t.metatable
  distinct := t.distinct.filter _
  keys := fun e he => t.keys e (List.mem_filter.mp he).1
  values := fun e he => t.values e (List.mem_filter.mp he).1

/-- `lua_rawset`. -/
def rawset (t : LuaTable) (k v : LuaValue) : Option LuaTable :=
  if hk : k.isKey = true then
    if hv : v = .nil then some (t.erase k) else some (t.assign k v hk hv)
  else none

theorem rawset_fresh {t : LuaTable} {k v : LuaValue} (hk : k.isKey = true) (hv : v ≠ .nil)
    (hnew : ∀ e ∈ t.entries, LuaValue.rawEqual e.1 k = false) :
    ∃ t', t.rawset k v = some t' ∧ t'.entries = t.entries ++ [(k, v)] ∧
      t'.metatable = t.metatable := by
  refine ⟨t.assign k v hk hv, ?_, ?_, rfl⟩
  · rw [rawset, dif_pos hk, dif_neg hv]
  · have hnone : t.entries.any (fun e => LuaValue.rawEqual e.1 k) = false := by
      rw [List.any_eq_false]
      intro e he
      rw [hnew e he]
      exact Bool.false_ne_true
    simp only [assign, assigned, hnone]
    rfl

private theorem find?_map_assigned (entries : List LuaEntry) (k v k' : LuaValue) :
    ((entries.map fun e => if LuaValue.rawEqual e.1 k then (e.1, v) else e).find?
        fun e => LuaValue.rawEqual e.1 k').map Prod.snd =
      if LuaValue.rawEqual k k' then
        if entries.any fun e => LuaValue.rawEqual e.1 k then some v else none
      else (entries.find? fun e => LuaValue.rawEqual e.1 k').map Prod.snd := by
  induction entries with
  | nil => simp
  | cons e entries ih =>
    rw [List.map_cons, List.find?_cons, List.find?_cons, List.any_cons]
    cases hk : LuaValue.rawEqual e.1 k with
    | true =>
      have hk' := LuaValue.rawEqual_congr hk (w := k')
      cases heq : LuaValue.rawEqual k k' with
      | true => simp [hk', heq]
      | false =>
        rw [heq] at ih hk'
        simp only [if_true, hk']
        exact ih
    | false =>
      rw [if_neg Bool.false_ne_true, Bool.false_or]
      cases hk' : LuaValue.rawEqual e.1 k' with
      | true =>
        have hne : LuaValue.rawEqual k k' = false := by
          rw [LuaValue.rawEqual_comm, ← LuaValue.rawEqual_congr hk']
          exact hk
        simp [hne]
      | false => exact ih

theorem rawget_rawset {t t' : LuaTable} {k v : LuaValue} (hv : v ≠ .nil)
    (h : t.rawset k v = some t') (k' : LuaValue) :
    t'.rawget k' = if LuaValue.rawEqual k k' then v else t.rawget k' := by
  have hk : k.isKey = true := by
    unfold rawset at h
    split at h
    · assumption
    · cases h
  rw [rawset, dif_pos hk, dif_neg hv, Option.some.injEq] at h
  subst h
  have hentries : (t.assign k v hk hv).entries = assigned t.entries k v := rfl
  unfold rawget
  rw [hentries, assigned]
  cases hany : t.entries.any fun e => LuaValue.rawEqual e.1 k with
  | true =>
    rw [if_pos rfl, find?_map_assigned, hany]
    split <;> rfl
  | false =>
    rw [if_neg Bool.false_ne_true, List.find?_append]
    cases heq : LuaValue.rawEqual k k' with
    | true =>
      have hnone : (t.entries.find? fun e => LuaValue.rawEqual e.1 k') = none := by
        rw [List.find?_eq_none]
        intro e he hek'
        have hek := List.any_eq_false.mp hany e he
        rw [LuaValue.rawEqual_comm, LuaValue.rawEqual_congr heq, LuaValue.rawEqual_comm] at hek
        exact hek hek'
      simp [hnone, heq]
    | false => simp [heq]

theorem next_nil (t : LuaTable) : t.next .nil = some t.entries.head? := if_pos rfl

theorem next_key {t : LuaTable} {before after : List LuaEntry} {k v : LuaValue}
    (h : t.entries = before ++ (k, v) :: after) : t.next k = some after.head? := by
  have hk : k.isKey = true := t.keys (k, v) (by rw [h]; simp)
  have hne : k ≠ .nil := by
    rintro rfl
    cases hk
  have hbefore : ∀ e ∈ before, (!LuaValue.rawEqual e.1 k) = true := by
    intro e he
    have hdistinct := t.distinct
    rw [h, List.pairwise_append] at hdistinct
    rw [hdistinct.2.2 e he (k, v) List.mem_cons_self]
    rfl
  rw [next, if_neg hne, h, List.dropWhile_append_of_pos hbefore, List.dropWhile_cons_of_neg]
  rw [LuaValue.rawEqual_self hk]
  exact Bool.false_ne_true

end LuaTable

end Casting
