import Casting.Message.Encode
import Casting.Message.Traversal
import Mathlib.Data.List.ReduceOption

/-!
# What an encoding walks through

`write_value` without its builder: the values that it comes to, in the order in which it writes
them, and the tables that it has met.  Nothing is written for a value of a type that messages do
not have, and nothing for an upvalue that the loop of the function case does not come to.
-/

namespace Casting

/-- A part of an encoding: what is written for the values it comes to, the tables met so far, how
many metatables there were, and the Lua state. -/
structure Walk where
  calls : List (Option Content)
  seen : Visited
  metas : ℕ
  state : LuaState

def Walk.contents (w : Walk) : List Content := w.calls.reduceOption

def Walk.append (w w' : Walk) : Walk := ⟨w.calls ++ w'.calls, w'.seen, w.metas + w'.metas, w'.state⟩

/-- A part whose first value is written before the others. -/
def Walk.under (c : Option Content) (w : Walk) : Walk := { w with calls := c :: w.calls }

/-- A walk of less fuel: the tables met so far and the number of values written before it. -/
abbrev Walker := Visited → ℕ → LuaState → ℤ → Option Walk

/-- The `lua_next` loop of the table case, counting `slots`. -/
def walkEntries (walk : Walker) (idx : ℤ) :
    ℕ → Word → Visited → ℕ → LuaState → Option (Word × Walk)
  | 0, _, _, _, _ => none
  | fuel + 1, slots, seen, i, L => do
      let (more, L) ← luaNext L idx
      if more then
        let key ← walk seen i L (-2)
        let value ← walk key.seen (i + key.contents.length) key.state (-1)
        let entry := key.append value
        let (slots, rest) ← walkEntries walk idx fuel (slots + 1) entry.seen
          (i + entry.contents.length) (luaPop entry.state 1)
        some (slots, entry.append rest)
      else some (slots, ⟨[], seen, 0, L⟩)

/-- The upvalue loop of the function case. -/
def walkUpvalues (walk : Walker) (idx : ℤ) : ℕ → ℕ → Visited → ℕ → LuaState → Option Walk
  | 0, _, seen, _, L => some ⟨[], seen, 0, L⟩
  | n + 1, k, seen, i, L =>
      match luaGetupvalue L idx (k + 1) with
      | (true, L) => do
          let value ← walk seen i L (-1)
          let rest ← walkUpvalues walk idx n (k + 1) value.seen (i + value.contents.length)
            (luaPop value.state 1)
          some (value.append rest)
      | (false, L) => some ⟨List.replicate (n + 1) none, seen, 0, L⟩

/-- The loops over values on the stack: what `__save` returned, and the arguments. -/
def walkSaved (walk : Walker) : ℕ → ℤ → Visited → ℕ → LuaState → Option Walk
  | 0, _, seen, _, L => some ⟨[], seen, 0, L⟩
  | n + 1, idx, seen, i, L => do
      let value ← walk seen i L idx
      let rest ← walkSaved walk n (idx + 1) value.seen (i + value.contents.length) value.state
      some (value.append rest)

/-- The metatable of the table at `idx`, behind its entries. -/
def walkMetatable (walk : Walker) (idx : ℤ) (i : ℕ) (entries : Walk) : Option Walk := do
  let (hasMeta, L) ← luaGetmetatable entries.state idx
  if hasMeta then
    let value ← walk entries.seen (i + entries.contents.length) L (-1)
    some (entries.append { value with metas := value.metas + 1, state := luaPop value.state 1 })
  else some { entries with state := L }

/-- What stands for the results of a `__save`. -/
def savedHeader (name : List Byte) (upvals : ℤ) : Content :=
  .userdata (BitVec.ofInt 32 upvals) (name.take (BitVec.ofNat 32 name.length).toNat)

def walkValue (lib : LuaLibrary) : ℕ → Walker
  | 0, _, _, _, _ => none
  | fuel + 1, seen, i, L, idx =>
      match L.value idx with
      | some (.table a) =>
          match seen a with
          | some j => some ⟨[some (.reference (BitVec.ofNat 32 j))], seen, 0, L⟩
          | none => do
              let idx := lcAbsindex L idx
              let L ← luaCheckstack lib (L.push .nil) 2
              let (slots, entries) ← walkEntries (walkValue lib fuel) idx fuel 0
                (Function.update seen a (some i)) (i + 1) L
              let table ← walkMetatable (walkValue lib fuel) idx (i + 1) entries
              some (table.under (some (.table slots (BitVec.ofNat 32 (lib.objlen a)))))
      | some (.function a) => do
          let c ← L.heap.closures a
          let upvalues ← walkUpvalues (walkValue lib fuel) idx c.upvalues.length 0 seen (i + 1) L
          some (upvalues.under
            (some (.function (BitVec.ofNat 32 c.upvalues.length) c.code)))
      | some (.userdata a) =>
          match lib.saver a with
          | some save => do
              let L ← luaPushvalue (L.push save) idx
              let top := luaGettop L - 2
              let (results, L) ← luaCall L lib 1
              let L := { L with stack := results.reverse ++ L.stack }
              let count := luaGettop L - (top + 1)
              let (name, L) := luaTolstring L (top + 1) lib
              let saved ← walkSaved (walkValue lib fuel) count.toNat (top + 2) seen (i + 1) L
              some (saved.under (some (savedHeader name count)))
          | none => some ⟨[none], seen, 0, L⟩
      | some v => some ⟨[v.scalar], seen, 0, L⟩
      | none => some ⟨[none], seen, 0, L⟩

/-- The values that `lua_newmessage` is given. -/
def walkValues (lib : LuaLibrary) (fuel : ℕ) (L : LuaState) (count : ℕ) : Option Walk :=
  walkSaved (walkValue lib fuel) count (luaGettop L - count + 1) (fun _ => none) 0 L

section Contents

variable {w w' : Walk}

@[simp]
theorem Walk.contents_append : (w.append w').contents = w.contents ++ w'.contents :=
  List.reduceOption_append _ _

@[simp]
theorem Walk.contents_under (c : Content) : (w.under (some c)).contents = c :: w.contents :=
  List.reduceOption_cons_of_some _ _

end Contents

end Casting
