import Casting.Lua.Value
import Mathlib.Logic.Function.Basic

/-!
# Lua states

The stack of a `lua_State`, the objects its values refer to, and the functions of the Lua API
that the message code calls on them.  A call that the manual leaves undefined, or that raises an
error, has no result.
-/

namespace Casting

structure Closure where
  code : List Byte
  upvalues : List LuaValue
  deriving DecidableEq, Repr

/-- What lives behind addresses; `fresh` is the first address never used. -/
structure LuaHeap where
  tables : Address → Option LuaTable
  closures : Address → Option Closure
  fresh : Address
  bounded : ∀ a, fresh ≤ a → tables a = none

namespace LuaHeap

theorem lt_fresh {h : LuaHeap} {a : Address} {t : LuaTable} (ht : h.tables a = some t) :
    a < h.fresh := by
  by_contra hle
  rw [h.bounded a (not_lt.mp hle)] at ht
  cases ht

def create (h : LuaHeap) (t : LuaTable) : LuaHeap where
  tables := Function.update h.tables h.fresh (some t)
  closures := h.closures
  fresh := h.fresh + 1
  bounded := by
    intro a ha
    have hne : a ≠ h.fresh := Nat.ne_of_gt ha
    rw [Function.update_of_ne hne]
    exact h.bounded a (Nat.le_of_succ_le ha)

def put (h : LuaHeap) (a : Address) (t : LuaTable) : LuaHeap where
  tables := Function.update h.tables a ((h.tables a).map fun _ => t)
  closures := h.closures
  fresh := h.fresh
  bounded := by
    intro b hb
    by_cases hba : b = a
    · subst hba
      rw [Function.update_self, h.bounded b hb]
      rfl
    · rw [Function.update_of_ne hba]
      exact h.bounded b hb

def load (h : LuaHeap) (c : Closure) : LuaHeap where
  tables := h.tables
  closures := Function.update h.closures h.fresh (some c)
  fresh := h.fresh + 1
  bounded := fun a ha => h.bounded a (Nat.le_of_succ_le ha)

def putClosure (h : LuaHeap) (a : Address) (c : Closure) : LuaHeap :=
  { h with closures := Function.update h.closures a (some c) }

end LuaHeap

/-- `lua_State`: the stack, top first, and what the values on it refer to.  `metas` are the
metatables that values other than tables were given. -/
structure LuaState where
  stack : List LuaValue
  heap : LuaHeap
  metas : List (LuaValue × LuaValue)

/-- What the message code leaves to the Lua library and to Lua code: whether there is room for so
many more values on a stack, the length of a table, the string of a number, the `__save` field of a
userdata's metatable and the `__load` field of a registered one, a call, and how many upvalues the
function in a chunk has. -/
structure LuaLibrary where
  checkstack : LuaState → ℕ → Bool
  objlen : Address → ℕ
  numberString : LuaNumber → List Byte
  saver : Address → Option LuaValue
  loader : List Byte → LuaValue
  call : LuaValue → List LuaValue → Option (List LuaValue)
  chunk : List Byte → Option ℕ
  chunkError : List Byte → LuaValue

/-- There is room for more values on every stack. -/
class LuaLibrary.StackGrows (lib : LuaLibrary) : Prop where
  checkstack : ∀ L n, lib.checkstack L n = true

section Api

variable (L : LuaState) (idx : ℤ)

def luaGettop : ℤ := L.stack.length

/-- How far below the top an index is. -/
def LuaState.depth : Option ℕ :=
  if 0 < idx ∧ idx ≤ luaGettop L then some (luaGettop L - idx).toNat
  else if idx < 0 ∧ -luaGettop L ≤ idx then some (-idx - 1).toNat
  else none

def LuaState.value : Option LuaValue := (L.depth idx).bind fun i => L.stack[i]?

/-- `lc_absindex`; no caller gives it a pseudo-index. -/
def lcAbsindex : ℤ := if 0 < idx then idx else luaGettop L + 1 + idx

def LuaState.push (v : LuaValue) : LuaState := { L with stack := v :: L.stack }

def luaPop (n : ℕ) : LuaState := { L with stack := L.stack.drop n }

def luaRemove : Option LuaState :=
  (L.depth idx).map fun i => { L with stack := L.stack.eraseIdx i }

def luaPushvalue : Option LuaState := (L.value idx).map L.push

def LuaState.tableAt : Option (Address × LuaTable) :=
  match L.value idx with
  | some (.table a) => (L.heap.tables a).map fun t => (a, t)
  | _ => none

def luaCreatetable : LuaState :=
  { L with stack := .table L.heap.fresh :: L.stack, heap := L.heap.create .empty }

/-- `lua_next`, with whether it pushed an entry. -/
def luaNext : Option (Bool × LuaState) := do
  let (_, t) ← L.tableAt idx
  match L.stack with
  | [] => none
  | k :: stack =>
      match ← t.next k with
      | some e => some (true, { L with stack := e.2 :: e.1 :: stack })
      | none => some (false, { L with stack := stack })

def luaRawset : Option LuaState := do
  let (a, t) ← L.tableAt idx
  match L.stack with
  | v :: k :: stack =>
      let t ← t.rawset k v
      some { L with stack := stack, heap := L.heap.put a t }
  | _ => none

def luaRawseti (n : ℤ) : Option LuaState := do
  let (a, t) ← L.tableAt idx
  match L.stack with
  | v :: stack =>
      let t ← t.rawset (.number (LuaNumber.ofInt n)) v
      some { L with stack := stack, heap := L.heap.put a t }
  | [] => none

def luaRawgeti (n : ℤ) : Option LuaState := do
  let (_, t) ← L.tableAt idx
  some (L.push (t.rawget (.number (LuaNumber.ofInt n))))

/-- `lua_getmetatable` of a table, with whether it pushed one. -/
def luaGetmetatable : Option (Bool × LuaState) := do
  let (_, t) ← L.tableAt idx
  match t.metatable with
  | some m => some (true, L.push (.table m))
  | none => some (false, L)

def luaSetmetatable : Option LuaState := do
  let v ← L.value idx
  match L.stack with
  | .table m :: stack =>
      match v with
      | .table a =>
          let t ← L.heap.tables a
          some { L with stack := stack, heap := L.heap.put a { t with metatable := some m } }
      | _ => some { L with stack := stack, metas := (v, .table m) :: L.metas }
  | .nil :: stack =>
      match v with
      | .table a =>
          let t ← L.heap.tables a
          some { L with stack := stack, heap := L.heap.put a { t with metatable := none } }
      | _ => some { L with stack := stack, metas := (v, .nil) :: L.metas }
  | _ => none

/-- `lua_getupvalue`, with whether there is such an upvalue. -/
def luaGetupvalue (n : ℕ) : Bool × LuaState :=
  match L.value idx with
  | some (.function a) =>
      match (L.heap.closures a).bind fun c => c.upvalues[n - 1]? with
      | some v => (true, L.push v)
      | none => (false, L)
  | _ => (false, L)

/-- `lua_setupvalue`, which pops nothing when there is no such upvalue. -/
def luaSetupvalue (n : ℕ) : Option LuaState :=
  match L.stack with
  | [] => none
  | v :: stack =>
      match L.value idx with
      | some (.function a) =>
          match L.heap.closures a with
          | some c =>
              if n - 1 < c.upvalues.length then
                some { L with
                  stack := stack
                  heap := L.heap.putClosure a
                    { c with upvalues := c.upvalues.set (n - 1) v } }
              else some L
          | none => some L
      | _ => some L

/-- `luaL_loadbuffer`. -/
def luaLoadbuffer (lib : LuaLibrary) (code : List Byte) : LuaState :=
  match lib.chunk code with
  | some n =>
      { L with
        stack := .function L.heap.fresh :: L.stack
        heap := L.heap.load ⟨code, List.replicate n .nil⟩ }
  | none => L.push (lib.chunkError code)

/-- The state in which there is room for `n` more values, by `lua_checkstack`. -/
def luaCheckstack (lib : LuaLibrary) (L : LuaState) (n : ℕ) : Option LuaState :=
  if lib.checkstack L n then some L else none

/-- `lua_tolstring`: a number turns into its string where it is, and what is neither a string nor a
number has no bytes. -/
def luaTolstring (lib : LuaLibrary) : List Byte × LuaState :=
  match L.value idx with
  | some (.string s) => (s, L)
  | some (.number n) =>
      let s := lib.numberString n
      (s, { L with stack := (L.depth idx).elim L.stack fun i => L.stack.set i (.string s) })
  | _ => ([], L)

/-- `lua_call` with `n` arguments above the function: what it returned, below it the stack. -/
def luaCall (lib : LuaLibrary) (n : ℕ) : Option (List LuaValue × LuaState) :=
  match L.stack.drop n with
  | f :: stack =>
      (lib.call f (L.stack.take n).reverse).map fun results => (results, { L with stack := stack })
  | [] => none

end Api

/-! ## Indices -/

section Index

variable {L : LuaState} {idx : ℤ} {v w : LuaValue}

theorem LuaState.value_top (hstack : ∃ stack, L.stack = v :: stack) : L.value (-1) = some v := by
  obtain ⟨stack, hstack⟩ := hstack
  have hdepth : L.depth (-1) = some 0 := by
    rw [depth, if_neg (by omega), if_pos]
    · rfl
    · rw [luaGettop, hstack, List.length_cons]
      omega
  rw [value, hdepth, Option.bind_some, hstack]
  rfl

theorem LuaState.value_second (hstack : ∃ stack, L.stack = w :: v :: stack) :
    L.value (-2) = some v := by
  obtain ⟨stack, hstack⟩ := hstack
  have hdepth : L.depth (-2) = some 1 := by
    rw [depth, if_neg (by omega), if_pos]
    · rfl
    · rw [luaGettop, hstack, List.length_cons, List.length_cons]
      omega
  rw [value, hdepth, Option.bind_some, hstack]
  rfl

theorem LuaState.value_third {u : LuaValue} (hstack : ∃ stack, L.stack = u :: w :: v :: stack) :
    L.value (-3) = some v := by
  obtain ⟨stack, hstack⟩ := hstack
  have hdepth : L.depth (-3) = some 2 := by
    rw [depth, if_neg (by omega), if_pos]
    · rfl
    · rw [luaGettop, hstack, List.length_cons, List.length_cons, List.length_cons]
      omega
  rw [value, hdepth, Option.bind_some, hstack]
  rfl

theorem LuaState.value_of_pos (hidx : 0 < idx) :
    L.value idx = L.stack.reverse[(idx - 1).toNat]? := by
  unfold value depth luaGettop
  by_cases hle : idx ≤ L.stack.length
  · rw [if_pos ⟨hidx, hle⟩, Option.bind_some, List.getElem?_reverse (by omega)]
    congr 1
    omega
  · rw [if_neg (by omega), if_neg (by omega), Option.bind_none, List.getElem?_eq_none]
    rw [List.length_reverse]
    omega

theorem LuaState.value_of_bottom {L' : LuaState} (hidx : 0 < idx)
    (hstack : ∃ front, L'.stack = front ++ L.stack) (hv : L.value idx = some v) :
    L'.value idx = some v := by
  obtain ⟨front, hstack⟩ := hstack
  rw [value_of_pos hidx] at hv ⊢
  have hlt := (List.getElem?_eq_some_iff.mp hv).1
  rw [hstack, List.reverse_append, List.getElem?_append_left hlt]
  exact hv

theorem value_lcAbsindex (hv : L.value idx = some v) :
    0 < lcAbsindex L idx ∧ L.value (lcAbsindex L idx) = some v := by
  unfold lcAbsindex
  by_cases hidx : 0 < idx
  · rw [if_pos hidx]
    exact ⟨hidx, hv⟩
  · rw [if_neg hidx]
    unfold LuaState.value LuaState.depth at hv ⊢
    rw [if_neg (by omega)] at hv
    split at hv
    · rename_i hin
      rw [if_pos (by omega), ← hv]
      refine ⟨by omega, ?_⟩
      congr 2
      omega
    · cases hv

theorem luaCheckstack_eq_some {lib : LuaLibrary} {L' : LuaState} {n : ℕ} :
    luaCheckstack lib L n = some L' ↔ lib.checkstack L n = true ∧ L = L' := by
  simp [luaCheckstack]

theorem luaCheckstack_of_grows (lib : LuaLibrary) [lib.StackGrows] (L : LuaState) (n : ℕ) :
    luaCheckstack lib L n = some L :=
  luaCheckstack_eq_some.mpr ⟨LuaLibrary.StackGrows.checkstack L n, rfl⟩

theorem luaTolstring_string {s : List Byte} (hv : L.value idx = some (.string s))
    (lib : LuaLibrary) : luaTolstring L idx lib = (s, L) := by
  rw [luaTolstring, hv]

theorem length_luaTolstring (L : LuaState) (idx : ℤ) (lib : LuaLibrary) :
    (luaTolstring L idx lib).2.stack.length = L.stack.length := by
  unfold luaTolstring
  split
  · rfl
  · cases L.depth idx with
    | none => rfl
    | some i => exact List.length_set
  · rfl

end Index

/-- How a call of `lua_newuserdata` ends. -/
inductive NewUserdata
  | pushed
  | null
  | raised
  deriving DecidableEq, Repr

end Casting
