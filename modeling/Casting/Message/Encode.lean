import Casting.Lua.State
import Casting.Message.Stream

/-!
# Encoding Lua values

`ref_check`, `write_value` and `lua_newmessage` of `lc_message.c`.  `mem` is the memory that the
growths of the builder find in the blocks they allocate, by the number of values there were; all
allocations succeed.  Recursion and loops are bounded by fuel.
-/

namespace Casting

def cmpRef (a b : RefData) : ℤ := if a.key = b.key then 0 else if a.key > b.key then 1 else -1

/-- `dup_ref`. -/
def dupRef (a : RefData) : Except ReturnCode RefData := .ok a

/-- `ref_check`, with whether it found the address. -/
def refCheck (mem : ℕ → Block) (mb : Builder) (p : Address) : Option (Bool × Builder) :=
  let map := mb.refmap.getD (mapNew cmpRef (some dupRef))
  let f : RefData := ⟨p, BitVec.ofNat 32 mb.last⟩
  match mapFind map f with
  | some d =>
      let mb := (lcPushreference (some (mem mb.last)) { mb with refmap := some map } d.refid).2
      some (true, { mb with refs := mb.refs + 1 })
  | none =>
      (mapInsert true map f).map fun inserted =>
        (false, { mb with refmap := some inserted.1 })

/-- A `write_value` of less fuel. -/
abbrev ValueWriter := Builder → LuaState → ℤ → Option (ℤ × LuaState × Builder)

/-- The `lua_next` loop of the table case, counting `slots`. -/
def writeEntries (write : ValueWriter) (idx : ℤ) :
    ℕ → Word → Builder → LuaState → Option (Word × LuaState × Builder)
  | 0, _, _, _ => none
  | fuel + 1, slots, mb, L => do
      let (more, L) ← luaNext L idx
      if more then
        let (_, L, mb) ← write mb L (-2)
        let (_, L, mb) ← write mb L (-1)
        writeEntries write idx fuel (slots + 1) mb (luaPop L 1)
      else some (slots, L, mb)

/-- The upvalue loop of the function case: `n` upvalues from the `i`th on. -/
def writeUpvalues (write : ValueWriter) (idx : ℤ) :
    ℕ → ℕ → Builder → LuaState → Option (LuaState × Builder)
  | 0, _, mb, L => some (L, mb)
  | n + 1, i, mb, L =>
      match luaGetupvalue L idx (i + 1) with
      | (true, L) => do
          let (_, L, mb) ← write mb L (-1)
          writeUpvalues write idx n (i + 1) mb (luaPop L 1)
      | (false, L) => some (L, mb)

/-- The loop over the values that `__save` returned: `n` of them from index `i` on. -/
def writeSaved (write : ValueWriter) : ℕ → ℤ → Builder → LuaState → Option (LuaState × Builder)
  | 0, _, mb, L => some (L, mb)
  | n + 1, i, mb, L => do
      let (_, L, mb) ← write mb L i
      writeSaved write n (i + 1) mb L

def writeValue (lib : LuaLibrary) (mem : ℕ → Block) : ℕ → ValueWriter
  | 0, _, _, _ => none
  | fuel + 1, mb, L, idx =>
      let alloc := some (mem mb.last)
      match L.value idx with
      | some .nil => some (ReturnCode.success.toInt, L, (lcPushnil alloc mb).2)
      | some (.boolean b) =>
          some (ReturnCode.success.toInt, L, (lcPushboolean alloc mb (if b then 1 else 0)).2)
      | some (.number n) => some (ReturnCode.success.toInt, L, (lcPushnumber alloc mb n).2)
      | some (.string s) =>
          some (ReturnCode.success.toInt, L,
            (lcPushlstring alloc mb s (BitVec.ofNat 64 s.length)).2)
      | some (.table a) => do
          let (found, mb) ← refCheck mem mb a
          if found then some (ReturnCode.success.toInt, L, mb)
          else
            let (tblIdx, mb) := lcCreatetable (some (mem mb.last)) mb
            let idx := lcAbsindex L idx
            let array : Word := BitVec.ofNat 32 (lib.objlen a)
            -- without room for a key and its value the program ends
            let L ← luaCheckstack lib (L.push .nil) 2
            let (slots, L, mb) ← writeEntries (writeValue lib mem fuel) idx fuel 0 mb L
            let mb := lcSettable mb tblIdx (slots.signExtend 64) (array.signExtend 64)
            let (hasMeta, L) ← luaGetmetatable L idx
            if hasMeta then
              let (metaIdx, L, mb) ← writeValue lib mem fuel mb L (-1)
              some (ReturnCode.success.toInt, luaPop L 1, lcSetmeta mb metaIdx)
            else some (ReturnCode.success.toInt, L, mb)
      | some (.function a) => do
          let c ← L.heap.closures a
          let (fIdx, mb) := lcPushfunction alloc mb c.code
          let (L, mb) ← writeUpvalues (writeValue lib mem fuel) idx c.upvalues.length 0 mb L
          some (fIdx, L, lcSetfunction mb fIdx (BitVec.ofNat 32 c.upvalues.length))
      | some (.userdata a) =>
          match lib.saver a with
          | some save => do
              let L ← luaPushvalue (L.push save) idx
              let top := luaGettop L - 2
              let (results, L) ← luaCall L lib 1
              let L := { L with stack := results.reverse ++ L.stack }
              let newtop := luaGettop L
              let (name, L) := luaTolstring L (top + 1) lib
              let (udIdx, mb) := lcPushuserdata alloc mb name (BitVec.ofNat 32 name.length)
              let (L, mb) ← writeSaved (writeValue lib mem fuel) (newtop - (top + 1)).toNat
                (top + 2) mb L
              some (ReturnCode.success.toInt, L,
                lcSetuserdata mb udIdx (BitVec.ofInt 32 (newtop - (top + 1))))
          | none => some (ReturnCode.errUnsupported.toInt, L, mb)
      | _ => some (ReturnCode.errInval.toInt, L, mb)

/-- The loop of `lua_newmessage`: `n` values from index `idx` on. -/
def writeValues (lib : LuaLibrary) (mem : ℕ → Block) (fuel : ℕ) :
    ℕ → ℤ → Builder → LuaState → Option (LuaState × Builder)
  | 0, _, mb, L => some (L, mb)
  | n + 1, idx, mb, L => do
      let (_, L, mb) ← writeValue lib mem fuel mb L idx
      writeValues lib mem fuel n (idx + 1) mb L

/-- `lua_newmessage`; `buf` is what its builder's own array holds at first. -/
def luaNewmessage (lib : LuaLibrary) (mem : ℕ → Block) (buf : Block) (slack fuel : ℕ)
    (L : LuaState) (count : ℕ) : Option (Message × LuaState) := do
  let (L', mb) ← writeValues lib mem fuel count (luaGettop L - count + 1) (msgBuilderInit buf) L
  let msg ← msgNew slack mb
  some (msg, luaPop L' count)

end Casting
