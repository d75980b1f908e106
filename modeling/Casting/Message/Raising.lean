import Casting.Framework.Raising
import Casting.Message.Encode

/-!
# Encoding that may raise

`write_value` and `lua_newmessage` once more, in a Lua runtime where API functions and Lua code may
raise errors.  An error leaves the recursion from any depth, and `lua_newmessage` with it.  The
world `ω` is what Lua code, and a collector that runs meanwhile, can change besides the Lua state.
-/

namespace Casting

open Raising

/-- The API functions called here for which the manual has errors. -/
inductive LuaApi
  | tolstring
  | checkstack
  | next
  | dump
  | getinfo
  | getmetafield
  | pushstring
  deriving DecidableEq, Repr

/-- What API functions do to the world, or raise, before they do their work on the Lua state; and
what a call of a function does.  The other parts of `library` raise nothing. -/
structure LuaRuntime (ω : Type) where
  library : LuaLibrary
  enter : LuaApi → LuaState → Raising ω LuaValue Unit
  call : LuaHeap → LuaValue → List LuaValue → Raising ω LuaValue (List LuaValue × LuaHeap)

/-- A `write_value` of less fuel. -/
abbrev RaisingWriter (ω : Type) :=
  Builder → LuaState → ℤ → Raising ω LuaValue (ℤ × LuaState × Builder)

namespace LuaRuntime

variable {ω : Type} (rt : LuaRuntime ω)

/-- `lua_call` with `n` arguments above the function: what it returned, below it the stack. -/
def luaCall (L : LuaState) (n : ℕ) : Raising ω LuaValue (List LuaValue × LuaState) :=
  match L.stack.drop n with
  | f :: stack => do
      let (results, heap) ← rt.call L.heap f (L.stack.take n).reverse
      pure (results, { L with stack := stack, heap := heap })
  | [] => ofOption none

/-- The `lua_next` loop of the table case, counting `slots`. -/
def writeEntries (write : RaisingWriter ω) (idx : ℤ) :
    ℕ → Word → Builder → LuaState → Raising ω LuaValue (Word × LuaState × Builder)
  | 0, _, _, _ => ofOption none
  | fuel + 1, slots, mb, L => do
      rt.enter .next L
      let (more, L) ← ofOption (luaNext L idx)
      if more then
        let (_, L, mb) ← write mb L (-2)
        let (_, L, mb) ← write mb L (-1)
        writeEntries write idx fuel (slots + 1) mb (luaPop L 1)
      else pure (slots, L, mb)

/-- The upvalue loop of the function case: `n` upvalues from the `i`th on. -/
def writeUpvalues (write : RaisingWriter ω) (idx : ℤ) :
    ℕ → ℕ → Builder → LuaState → Raising ω LuaValue (LuaState × Builder)
  | 0, _, mb, L => pure (L, mb)
  | n + 1, i, mb, L =>
      match luaGetupvalue L idx (i + 1) with
      | (true, L) => do
          let (_, L, mb) ← write mb L (-1)
          writeUpvalues write idx n (i + 1) mb (luaPop L 1)
      | (false, L) => pure (L, mb)

/-- The loop over the values that `__save` returned: `n` of them from index `i` on. -/
def writeSaved (write : RaisingWriter ω) :
    ℕ → ℤ → Builder → LuaState → Raising ω LuaValue (LuaState × Builder)
  | 0, _, mb, L => pure (L, mb)
  | n + 1, i, mb, L => do
      let (_, L, mb) ← write mb L i
      writeSaved write n (i + 1) mb L

def writeValue (mem : ℕ → Block) : ℕ → RaisingWriter ω
  | 0, _, _, _ => ofOption none
  | fuel + 1, mb, L, idx =>
      let alloc := some (mem mb.last)
      match L.value idx with
      | some .nil => pure (ReturnCode.success.toInt, L, (lcPushnil alloc mb).2)
      | some (.boolean b) =>
          pure (ReturnCode.success.toInt, L, (lcPushboolean alloc mb (if b then 1 else 0)).2)
      | some (.number n) => pure (ReturnCode.success.toInt, L, (lcPushnumber alloc mb n).2)
      | some (.string s) =>
          pure (ReturnCode.success.toInt, L,
            (lcPushlstring alloc mb s (BitVec.ofNat 64 s.length)).2)
      | some (.table a) => do
          let (found, mb) ← ofOption (refCheck mem mb a)
          if found then pure (ReturnCode.success.toInt, L, mb)
          else
            let (tblIdx, mb) := lcCreatetable (some (mem mb.last)) mb
            let idx := lcAbsindex L idx
            let array : Word := BitVec.ofNat 32 (rt.library.objlen a)
            rt.enter .checkstack (L.push .nil)
            let L ← ofOption (luaCheckstack rt.library (L.push .nil) 2)
            let (slots, L, mb) ← rt.writeEntries (writeValue mem fuel) idx fuel 0 mb L
            let mb := lcSettable mb tblIdx (slots.signExtend 64) (array.signExtend 64)
            let (hasMeta, L) ← ofOption (luaGetmetatable L idx)
            if hasMeta then
              let (metaIdx, L, mb) ← writeValue mem fuel mb L (-1)
              pure (ReturnCode.success.toInt, luaPop L 1, lcSetmeta mb metaIdx)
            else pure (ReturnCode.success.toInt, L, mb)
      | some (.function a) => do
          let c ← ofOption (L.heap.closures a)
          rt.enter .dump (L.push (.function a))
          let (fIdx, mb) := lcPushfunction alloc mb c.code
          rt.enter .getinfo (L.push (.function a))
          let (L, mb) ← writeUpvalues (writeValue mem fuel) idx c.upvalues.length 0 mb L
          pure (fIdx, L, lcSetfunction mb fIdx (BitVec.ofNat 32 c.upvalues.length))
      | some (.userdata a) => do
          rt.enter .getmetafield L
          match rt.library.saver a with
          | some save => do
              let L ← ofOption (luaPushvalue (L.push save) idx)
              let top := luaGettop L - 2
              let (results, L) ← rt.luaCall L 1
              let L := { L with stack := results.reverse ++ L.stack }
              let newtop := luaGettop L
              rt.enter .tolstring L
              let (name, L) := luaTolstring L (top + 1) rt.library
              let (udIdx, mb) := lcPushuserdata alloc mb name (BitVec.ofNat 32 name.length)
              let (L, mb) ← writeSaved (writeValue mem fuel) (newtop - (top + 1)).toNat
                (top + 2) mb L
              pure (ReturnCode.success.toInt, L,
                lcSetuserdata mb udIdx (BitVec.ofInt 32 (newtop - (top + 1))))
          | none => pure (ReturnCode.errUnsupported.toInt, L, mb)
      | _ => pure (ReturnCode.errInval.toInt, L, mb)

/-- The loop of `lua_newmessage`: `n` values from index `idx` on. -/
def writeValues (mem : ℕ → Block) (fuel : ℕ) :
    ℕ → ℤ → Builder → LuaState → Raising ω LuaValue (LuaState × Builder)
  | 0, _, mb, L => pure (L, mb)
  | n + 1, idx, mb, L => do
      let (_, L, mb) ← rt.writeValue mem fuel mb L idx
      writeValues mem fuel n (idx + 1) mb L

/-- `lua_newmessage`; an error leaves it with its message not made. -/
def luaNewmessage (mem : ℕ → Block) (buf : Block) (slack fuel : ℕ) (L : LuaState)
    (count : ℕ) : Raising ω LuaValue (Message × LuaState) := do
  let (L', mb) ←
    rt.writeValues mem fuel count (luaGettop L - count + 1) (msgBuilderInit buf) L
  let msg ← ofOption (msgNew slack mb)
  pure (msg, luaPop L' count)

/-! ### What an encoding keeps -/

/-- API functions and Lua code leave `P` as they found it. -/
structure Leaves (P : ω → Prop) : Prop where
  enter : ∀ api L, Keeps P (rt.enter api L)
  call : ∀ heap f args, Keeps P (rt.call heap f args)

section Leaves

variable {rt} {P : ω → Prop} {write : RaisingWriter ω}

theorem Leaves.luaCall (h : rt.Leaves P) (L : LuaState) (n : ℕ) :
    Keeps P (rt.luaCall L n) := by
  unfold LuaRuntime.luaCall
  split
  · exact (h.call _ _ _).bind fun _ => Keeps.pure _
  · exact Keeps.ofOption none

theorem Leaves.writeEntries (h : rt.Leaves P) (hwrite : ∀ mb L idx, Keeps P (write mb L idx))
    (idx : ℤ) (fuel : ℕ) (slots : Word) (mb : Builder) (L : LuaState) :
    Keeps P (rt.writeEntries write idx fuel slots mb L) := by
  induction fuel generalizing slots mb L with
  | zero => exact Keeps.ofOption none
  | succ fuel ih =>
    unfold LuaRuntime.writeEntries
    apply (h.enter _ _).bind
    intro _
    apply (Keeps.ofOption _).bind
    intro ⟨more, L⟩
    cases more with
    | true => exact (hwrite _ _ _).bind fun _ => (hwrite _ _ _).bind fun _ => ih _ _ _
    | false => exact Keeps.pure _

theorem keeps_writeUpvalues (hwrite : ∀ mb L idx, Keeps P (write mb L idx)) (idx : ℤ)
    (n i : ℕ) (mb : Builder) (L : LuaState) :
    Keeps P (writeUpvalues write idx n i mb L) := by
  induction n generalizing i mb L with
  | zero => exact Keeps.pure _
  | succ n ih =>
    unfold LuaRuntime.writeUpvalues
    split
    · exact (hwrite _ _ _).bind fun _ => ih _ _ _
    · exact Keeps.pure _

theorem keeps_writeSaved (hwrite : ∀ mb L idx, Keeps P (write mb L idx)) (n : ℕ) (i : ℤ)
    (mb : Builder) (L : LuaState) : Keeps P (writeSaved write n i mb L) := by
  induction n generalizing i mb L with
  | zero => exact Keeps.pure _
  | succ n ih => exact (hwrite _ _ _).bind fun _ => ih _ _ _

theorem Leaves.writeValue (h : rt.Leaves P) (mem : ℕ → Block) (fuel : ℕ) (mb : Builder)
    (L : LuaState) (idx : ℤ) : Keeps P (rt.writeValue mem fuel mb L idx) := by
  induction fuel generalizing mb L idx with
  | zero => exact Keeps.ofOption none
  | succ fuel ih =>
    unfold LuaRuntime.writeValue
    cases L.value idx with
    | none => exact Keeps.pure _
    | some v =>
      cases v with
      | table a =>
        apply (Keeps.ofOption _).bind
        intro ⟨found, mb⟩
        cases found with
        | true => exact Keeps.pure _
        | false =>
          apply (h.enter _ _).bind
          intro _
          apply (Keeps.ofOption _).bind
          intro L
          apply (h.writeEntries ih _ _ _ _ _).bind
          intro ⟨slots, L, mb⟩
          apply (Keeps.ofOption _).bind
          intro ⟨hasMeta, L⟩
          cases hasMeta with
          | true => exact (ih _ _ _).bind fun _ => Keeps.pure _
          | false => exact Keeps.pure _
      | function a =>
        apply (Keeps.ofOption _).bind
        intro c
        apply (h.enter _ _).bind
        intro _
        apply (h.enter _ _).bind
        intro _
        exact (keeps_writeUpvalues ih _ _ _ _ _).bind fun _ => Keeps.pure _
      | userdata a =>
        apply (h.enter _ _).bind
        intro _
        cases rt.library.saver a with
        | none => exact Keeps.pure _
        | some save =>
          apply (Keeps.ofOption _).bind
          intro L
          apply (h.luaCall _ _).bind
          intro ⟨results, L⟩
          apply (h.enter _ _).bind
          intro _
          exact (keeps_writeSaved ih _ _ _ _).bind fun _ => Keeps.pure _
      | _ => exact Keeps.pure _

theorem Leaves.writeValues (h : rt.Leaves P) (mem : ℕ → Block) (fuel n : ℕ) (idx : ℤ)
    (mb : Builder) (L : LuaState) : Keeps P (rt.writeValues mem fuel n idx mb L) := by
  induction n generalizing idx mb L with
  | zero => exact Keeps.pure _
  | succ n ih => exact (h.writeValue mem fuel mb L idx).bind fun _ => ih _ _ _

theorem Leaves.luaNewmessage (h : rt.Leaves P) (mem : ℕ → Block) (buf : Block) (slack fuel : ℕ)
    (L : LuaState) (count : ℕ) :
    Keeps P (rt.luaNewmessage mem buf slack fuel L count) := by
  apply (h.writeValues mem fuel count _ _ L).bind
  intro ⟨L', mb⟩
  exact (Keeps.ofOption _).bind fun _ => Keeps.pure _

end Leaves

/-! ### What an encoding returns -/

/-- Calls return what `library` says, and leave the objects behind the values as they are. -/
def Answers : Prop :=
  ∀ heap f args,
    Returns (rt.call heap f args) ((rt.library.call f args).map fun results => (results, heap))

section Answers

variable {rt} {write : RaisingWriter ω} {write' : ValueWriter}

theorem Answers.luaCall (h : rt.Answers) (L : LuaState) (n : ℕ) :
    Returns (rt.luaCall L n) (Casting.luaCall L rt.library n) := by
  unfold LuaRuntime.luaCall Casting.luaCall
  cases L.stack.drop n with
  | nil => exact Returns.ofOption none
  | cons f stack =>
    have hcall := (h L.heap f (L.stack.take n).reverse).bind fun r =>
      Returns.pure (r.1, { L with stack := stack, heap := r.2 })
    show Returns _ ((rt.library.call f (L.stack.take n).reverse).map _)
    cases hanswer : rt.library.call f (L.stack.take n).reverse with
    | none =>
      rw [hanswer] at hcall
      exact hcall
    | some results =>
      rw [hanswer] at hcall
      exact hcall

theorem returns_writeEntries (hwrite : ∀ mb L idx, Returns (write mb L idx) (write' mb L idx))
    (idx : ℤ) (fuel : ℕ) (slots : Word) (mb : Builder) (L : LuaState) :
    Returns (rt.writeEntries write idx fuel slots mb L)
      (Casting.writeEntries write' idx fuel slots mb L) := by
  induction fuel generalizing slots mb L with
  | zero => exact Returns.ofOption none
  | succ fuel ih =>
    unfold LuaRuntime.writeEntries Casting.writeEntries
    apply Returns.after
    intro _
    apply (Returns.ofOption _).bind
    intro ⟨more, L⟩
    cases more with
    | true => exact (hwrite _ _ _).bind fun _ => (hwrite _ _ _).bind fun _ => ih _ _ _
    | false => exact Returns.pure _

theorem returns_writeUpvalues (hwrite : ∀ mb L idx, Returns (write mb L idx) (write' mb L idx))
    (idx : ℤ) (n i : ℕ) (mb : Builder) (L : LuaState) :
    Returns (writeUpvalues write idx n i mb L) (Casting.writeUpvalues write' idx n i mb L) := by
  induction n generalizing i mb L with
  | zero => exact Returns.pure _
  | succ n ih =>
    unfold LuaRuntime.writeUpvalues Casting.writeUpvalues
    cases luaGetupvalue L idx (i + 1) with
    | mk there L =>
      cases there with
      | true => exact (hwrite _ _ _).bind fun _ => ih _ _ _
      | false => exact Returns.pure _

theorem returns_writeSaved (hwrite : ∀ mb L idx, Returns (write mb L idx) (write' mb L idx))
    (n : ℕ) (i : ℤ) (mb : Builder) (L : LuaState) :
    Returns (writeSaved write n i mb L) (Casting.writeSaved write' n i mb L) := by
  induction n generalizing i mb L with
  | zero => exact Returns.pure _
  | succ n ih => exact (hwrite _ _ _).bind fun _ => ih _ _ _

theorem Answers.writeValue (h : rt.Answers) (mem : ℕ → Block) (fuel : ℕ) (mb : Builder)
    (L : LuaState) (idx : ℤ) :
    Returns (rt.writeValue mem fuel mb L idx)
      (Casting.writeValue rt.library mem fuel mb L idx) := by
  induction fuel generalizing mb L idx with
  | zero => exact Returns.ofOption none
  | succ fuel ih =>
    unfold LuaRuntime.writeValue Casting.writeValue
    cases L.value idx with
    | none => exact Returns.pure _
    | some v =>
      cases v with
      | table a =>
        apply (Returns.ofOption _).bind
        intro ⟨found, mb⟩
        cases found with
        | true => exact Returns.pure _
        | false =>
          apply Returns.after
          intro _
          apply (Returns.ofOption _).bind
          intro L
          apply (returns_writeEntries ih _ _ _ _ _).bind
          intro ⟨slots, L, mb⟩
          apply (Returns.ofOption _).bind
          intro ⟨hasMeta, L⟩
          cases hasMeta with
          | true => exact (ih _ _ _).bind fun _ => Returns.pure _
          | false => exact Returns.pure _
      | function a =>
        apply (Returns.ofOption _).bind
        intro c
        apply Returns.after
        intro _
        apply Returns.after
        intro _
        exact (returns_writeUpvalues ih _ _ _ _ _).bind fun _ => Returns.pure _
      | userdata a =>
        dsimp only
        apply Returns.after
        intro _
        cases rt.library.saver a with
        | none => exact Returns.pure _
        | some save =>
          apply (Returns.ofOption _).bind
          intro L
          apply (h.luaCall _ _).bind
          intro ⟨results, L⟩
          apply Returns.after
          intro _
          exact (returns_writeSaved ih _ _ _ _).bind fun _ => Returns.pure _
      | _ => exact Returns.pure _

theorem Answers.writeValues (h : rt.Answers) (mem : ℕ → Block) (fuel n : ℕ) (idx : ℤ)
    (mb : Builder) (L : LuaState) :
    Returns (rt.writeValues mem fuel n idx mb L)
      (Casting.writeValues rt.library mem fuel n idx mb L) := by
  induction n generalizing idx mb L with
  | zero => exact Returns.pure _
  | succ n ih => exact (h.writeValue mem fuel mb L idx).bind fun _ => ih _ _ _

/-- An encoding that no error ends makes the message that `luaNewmessage` makes. -/
theorem Answers.luaNewmessage (h : rt.Answers) (mem : ℕ → Block) (buf : Block)
    (slack fuel : ℕ) (L : LuaState) (count : ℕ) :
    Returns (rt.luaNewmessage mem buf slack fuel L count)
      (Casting.luaNewmessage rt.library mem buf slack fuel L count) := by
  apply (h.writeValues mem fuel count _ _ L).bind
  intro ⟨L', mb⟩
  exact (Returns.ofOption _).bind fun _ => Returns.pure _

end Answers

end LuaRuntime

end Casting
