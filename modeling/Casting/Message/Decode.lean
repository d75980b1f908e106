import Casting.Lua.State
import Casting.Message.Stream

/-!
# Decoding messages

`decode_value` and `lua_decodemessage` of `lc_message.c`.  Recursion and loops are bounded by fuel,
except for the loops that count down from a number in the message.
-/

namespace Casting

/-- A `value_t` initialised with `{ }`. -/
def blankValue : Value := ⟨0, 0, 0, 0, []⟩

/-- A `decode_value` of less fuel, on the Lua state and the cursor. -/
abbrev ValueReader := LuaState → Cursor → Option (ℤ × LuaState × Cursor)

def decodeEntries (decode : ValueReader) : ℕ → LuaState → Cursor → Option (LuaState × Cursor)
  | 0, L, cur => some (L, cur)
  | n + 1, L, cur => do
      let (_, L, cur) ← decode L cur
      let (_, L, cur) ← decode L cur
      let L ← luaRawset L (-3)
      decodeEntries decode n L cur

/-- The loop of the function case: `n` upvalues from the `i`th on. -/
def decodeUpvalues (decode : ValueReader) :
    ℕ → ℕ → LuaState → Cursor → Option (LuaState × Cursor)
  | 0, _, L, cur => some (L, cur)
  | n + 1, i, L, cur => do
      let (_, L, cur) ← decode L cur
      let L ← luaSetupvalue L (-2) (i + 1)
      decodeUpvalues decode n (i + 1) L cur

/-- The loop of the userdata case. -/
def decodeArguments (decode : ValueReader) : ℕ → LuaState → Cursor → Option (LuaState × Cursor)
  | 0, L, cur => some (L, cur)
  | n + 1, L, cur => do
      let (_, L, cur) ← decode L cur
      decodeArguments decode n L cur

/-- The cases of `decode_value` that push a value; `count` is what `msg_next` returned. -/
def decodeBody (lib : LuaLibrary) (decode : ValueReader) (top : ℤ) (count : ℤ) (v : Value)
    (L : LuaState) (cur : Cursor) : ValueType → Option (LuaState × Cursor)
  | .tNil => some (L.push .nil, cur)
  | .tTrue => some (L.push (.boolean true), cur)
  | .tFalse => some (L.push (.boolean false), cur)
  | .tNumber => some (L.push (.number v.number), cur)
  | .tString => v.payload.map fun s => (L.push (.string s), cur)
  | .tTable => do
      let L := luaCreatetable L
      let L ←
        if v.valueIsReferenced then
          (luaPushvalue L (-1)).bind fun L => luaRawseti L top count
        else some L
      decodeEntries decode v.slots.toNat L cur
  | .tFunction => do
      let code ← v.payload
      decodeUpvalues decode v.upvals.toInt.toNat 0 (luaLoadbuffer L lib code) cur
  | .tUserdata => do
      let name ← v.payload
      let (L, cur) ← decodeArguments decode v.upvals.toInt.toNat (L.push (lib.loader name)) cur
      let (results, L) ← luaCall L lib v.upvals.toInt.toNat
      some (L.push (results.headD .nil), cur)
  | .tReference => (luaRawgeti L top v.ref.toInt).map fun L => (L, cur)
  | .tLuserdata => none

/-- `decode_value`; the side table of references is at index `top`. -/
def decodeValue (lib : LuaLibrary) (m : Message) (top : ℤ) : ℕ → ValueReader
  | 0, _, _ => none
  | fuel + 1, L, cur => do
      let (count, cur, v) ← msgNext m cur blankValue
      if count < ReturnCode.success.toInt then some (-1, L, cur)
      else
        -- the result is ignored, and without room the push is undefined
        let L ← luaCheckstack lib L 1
        match v.valueType with
        | none | some .tLuserdata => some (ReturnCode.fail.toInt, L, cur)
        | some t =>
            let (L, cur) ← decodeBody lib (decodeValue lib m top fuel) top count v L cur t
            if v.valueIsMeta then
              let L ← luaSetmetatable L (-2)
              some (ReturnCode.success.toInt, L, cur)
            else some (ReturnCode.success.toInt, L, cur)

/-- The loop of `lua_decodemessage`. -/
def decodeLoop (lib : LuaLibrary) (m : Message) (top : ℤ) (fuel : ℕ) :
    ℕ → LuaState → Cursor → Option LuaState
  | 0, _, _ => none
  | n + 1, L, cur => do
      let (result, L, cur) ← decodeValue lib m top fuel L cur
      if result = ReturnCode.success.toInt then decodeLoop lib m top fuel n L cur
      else some L

/-- The Lua state in which the loop of `lua_decodemessage` starts. -/
def decodeStart (m : Message) (L : LuaState) : LuaState :=
  if m.refs ≠ 0 then luaCreatetable L else L

/-- `lua_decodemessage`: the number of values and the state afterwards. -/
def luaDecodemessage (lib : LuaLibrary) (m : Message) (fuel : ℕ) (L : LuaState) :
    Option (ℤ × LuaState) :=
  if m.count ≠ 0 then do
    let L := decodeStart m L
    let top := luaGettop L
    let L ← decodeLoop lib m top fuel fuel L msgCursorInit
    let L ← if m.refs ≠ 0 then luaRemove L (top - 1) else some L
    some (m.count.toInt, L)
  else some (1, L.push .nil)

end Casting
