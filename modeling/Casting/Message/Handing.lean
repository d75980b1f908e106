import Casting.Framework.Recording
import Casting.Message.Encode

/-!
# Values that an encoding hands on

`write_value` once more, with each function of the Lua API that it calls and with a record of what
it hands to `lua_next`, to `lua_dump` and to a `__save`.
-/

namespace Casting

open Recording

inductive Receiver
  | next
  | dump
  | save
  deriving DecidableEq, Repr

/-- A value that was handed on, and the one at the index that `write_value` was called with. -/
structure Handing where
  receiver : Receiver
  entry : Option LuaValue
  handed : Option LuaValue
  deriving DecidableEq, Repr

/-- What was handed on is what `write_value` was pointed at. -/
def Handing.Faithful (p : Handing) : Prop := p.handed = p.entry

instance : DecidablePred Handing.Faithful :=
  fun p => inferInstanceAs (Decidable (p.handed = p.entry))

/-- `lua_dump` of the function on top. -/
def luaDump (L : LuaState) : Option (List Byte) :=
  match L.value (-1) with
  | some (.function a) => (L.heap.closures a).map Closure.code
  | _ => none

/-- `lua_getinfo` with `>u`, which takes the function off the stack: how many upvalues it has. -/
def luaGetinfo (L : LuaState) : Option (ℕ × LuaState) :=
  match L.stack with
  | .function a :: stack =>
      (L.heap.closures a).map fun c => (c.upvalues.length, { L with stack := stack })
  | _ => none

/-- `luaL_getmetafield` of a userdata for `__save`, with whether it pushed the field. -/
def luaGetmetafield (lib : LuaLibrary) (L : LuaState) (idx : ℤ) : Bool × LuaState :=
  match L.value idx with
  | some (.userdata a) =>
      match lib.saver a with
      | some save => (true, L.push save)
      | none => (false, L)
  | _ => (false, L)

section Api

variable {L : LuaState} {idx : ℤ} {v : LuaValue} {a : Address}

theorem luaPushvalue_value (hv : L.value idx = some v) :
    luaPushvalue L idx = some (L.push v) := by
  rw [luaPushvalue, hv]
  rfl

theorem luaDump_push :
    luaDump (L.push (.function a)) = (L.heap.closures a).map Closure.code := by
  have hvalue : (L.push (.function a)).value (-1) = some (.function a) :=
    LuaState.value_top ⟨L.stack, rfl⟩
  rw [luaDump, hvalue]
  rfl

theorem luaGetinfo_push :
    luaGetinfo (L.push (.function a)) =
      (L.heap.closures a).map fun c => (c.upvalues.length, L) := rfl

theorem luaGetmetafield_value {lib : LuaLibrary} (hv : L.value idx = some (.userdata a)) :
    luaGetmetafield lib L idx =
      match lib.saver a with
      | some save => (true, L.push save)
      | none => (false, L) := by
  rw [luaGetmetafield, hv]

end Api

/-- A `write_value` of less fuel. -/
abbrev RecordingWriter :=
  Builder → LuaState → ℤ → Recording Handing (ℤ × LuaState × Builder)

namespace Recorded

/-- The `lua_next` loop of the table case, where `entry` is the table. -/
def writeEntries (write : RecordingWriter) (entry : Option LuaValue) (idx : ℤ) :
    ℕ → Word → Builder → LuaState → Recording Handing (Word × LuaState × Builder)
  | 0, _, _, _ => ofOption none
  | fuel + 1, slots, mb, L => do
      record ⟨.next, entry, L.value idx⟩
      let (more, L) ← ofOption (luaNext L idx)
      if more then
        let (_, L, mb) ← write mb L (-2)
        let (_, L, mb) ← write mb L (-1)
        writeEntries write entry idx fuel (slots + 1) mb (luaPop L 1)
      else pure (slots, L, mb)

/-- The end of the table case, behind its loop. -/
def writeMetatable (write : RecordingWriter) (idx : ℤ) (mb : Builder) (L : LuaState) :
    Recording Handing (ℤ × LuaState × Builder) := do
  let (hasMeta, L) ← ofOption (luaGetmetatable L idx)
  if hasMeta then
    let (metaIdx, L, mb) ← write mb L (-1)
    pure (ReturnCode.success.toInt, luaPop L 1, lcSetmeta mb metaIdx)
  else pure (ReturnCode.success.toInt, L, mb)

/-- The upvalue loop of the function case: `n` upvalues from the `i`th on. -/
def writeUpvalues (write : RecordingWriter) (idx : ℤ) :
    ℕ → ℕ → Builder → LuaState → Recording Handing (LuaState × Builder)
  | 0, _, mb, L => pure (L, mb)
  | n + 1, i, mb, L =>
      match luaGetupvalue L idx (i + 1) with
      | (true, L) => do
          let (_, L, mb) ← write mb L (-1)
          writeUpvalues write idx n (i + 1) mb (luaPop L 1)
      | (false, L) => pure (L, mb)

/-- The loop over the values that `__save` returned: `n` of them from index `i` on. -/
def writeSaved (write : RecordingWriter) :
    ℕ → ℤ → Builder → LuaState → Recording Handing (LuaState × Builder)
  | 0, _, mb, L => pure (L, mb)
  | n + 1, i, mb, L => do
      let (_, L, mb) ← write mb L i
      writeSaved write n (i + 1) mb L

def writeValue (lib : LuaLibrary) (mem : ℕ → Block) : ℕ → RecordingWriter
  | 0, _, _, _ => ofOption none
  | fuel + 1, mb, L, idx =>
      let alloc := some (mem mb.last)
      let entry := L.value idx
      match entry with
      | some .nil => pure (ReturnCode.success.toInt, L, (lcPushnil alloc mb).2)
      | some (.boolean b) =>
          pure (ReturnCode.success.toInt, L, (lcPushboolean alloc mb (if b then 1 else 0)).2)
      | some (.number n) => pure (ReturnCode.success.toInt, L, (lcPushnumber alloc mb n).2)
      | some (.string s) =>
          pure (ReturnCode.success.toInt, L,
            (lcPushlstring alloc mb s (BitVec.ofNat 64 s.length)).2)
      | some (.table a) => do
          let (found, mb) ← ofOption (refCheck mem mb a)
          if found then pure (ReturnCode.success.toInt, L, mb)
          else
            let (tblIdx, mb) := lcCreatetable (some (mem mb.last)) mb
            let idx := lcAbsindex L idx
            let array : Word := BitVec.ofNat 32 (lib.objlen a)
            let L ← ofOption (luaCheckstack lib (L.push .nil) 2)
            let (slots, L, mb) ← writeEntries (writeValue lib mem fuel) entry idx fuel 0 mb L
            let mb := lcSettable mb tblIdx (slots.signExtend 64) (array.signExtend 64)
            writeMetatable (writeValue lib mem fuel) idx mb L
      | some (.function _) => do
          let L ← ofOption (luaPushvalue L idx)
          record ⟨.dump, entry, L.value (-1)⟩
          let code ← ofOption (luaDump L)
          let (fIdx, mb) := lcPushfunction alloc mb code
          let (nups, L) ← ofOption (luaGetinfo L)
          let (L, mb) ← writeUpvalues (writeValue lib mem fuel) idx nups 0 mb L
          pure (fIdx, L, lcSetfunction mb fIdx (BitVec.ofNat 32 nups))
      | some (.userdata _) =>
          match luaGetmetafield lib L idx with
          | (true, L) => do
              let L ← ofOption (luaPushvalue L idx)
              let top := luaGettop L - 2
              record ⟨.save, entry, L.value (-1)⟩
              let (results, L) ← ofOption (luaCall L lib 1)
              let L := { L with stack := results.reverse ++ L.stack }
              let newtop := luaGettop L
              let (name, L) := luaTolstring L (top + 1) lib
              let (udIdx, mb) := lcPushuserdata alloc mb name (BitVec.ofNat 32 name.length)
              let (L, mb) ← writeSaved (writeValue lib mem fuel) (newtop - (top + 1)).toNat
                (top + 2) mb L
              pure (ReturnCode.success.toInt, L,
                lcSetuserdata mb udIdx (BitVec.ofInt 32 (newtop - (top + 1))))
          | (false, L) => pure (ReturnCode.errUnsupported.toInt, L, mb)
      | _ => pure (ReturnCode.errInval.toInt, L, mb)

/-! ### Without the records -/

section Erases

variable {write : RecordingWriter} {write' : ValueWriter} {entry : Option LuaValue} {idx : ℤ}

theorem erases_writeEntries (hwrite : ∀ mb L idx, Erases (write mb L idx) (write' mb L idx))
    (fuel : ℕ) (slots : Word) (mb : Builder) (L : LuaState) :
    Erases (writeEntries write entry idx fuel slots mb L)
      (Casting.writeEntries write' idx fuel slots mb L) := by
  induction fuel generalizing slots mb L with
  | zero => exact Erases.ofOption none
  | succ fuel ih =>
    unfold writeEntries Casting.writeEntries
    apply Erases.record
    apply (Erases.ofOption _).bind
    intro ⟨more, L⟩
    cases more with
    | true => exact (hwrite _ _ _).bind fun _ => (hwrite _ _ _).bind fun _ => ih _ _ _
    | false => exact Erases.pure _

theorem erases_writeUpvalues (hwrite : ∀ mb L idx, Erases (write mb L idx) (write' mb L idx))
    (n i : ℕ) (mb : Builder) (L : LuaState) :
    Erases (writeUpvalues write idx n i mb L) (Casting.writeUpvalues write' idx n i mb L) := by
  induction n generalizing i mb L with
  | zero => exact Erases.pure _
  | succ n ih =>
    unfold writeUpvalues Casting.writeUpvalues
    cases luaGetupvalue L idx (i + 1) with
    | mk there L =>
      cases there with
      | true => exact (hwrite _ _ _).bind fun _ => ih _ _ _
      | false => exact Erases.pure _

theorem erases_writeSaved (hwrite : ∀ mb L idx, Erases (write mb L idx) (write' mb L idx))
    (n : ℕ) (i : ℤ) (mb : Builder) (L : LuaState) :
    Erases (writeSaved write n i mb L) (Casting.writeSaved write' n i mb L) := by
  induction n generalizing i mb L with
  | zero => exact Erases.pure _
  | succ n ih => exact (hwrite _ _ _).bind fun _ => ih _ _ _

/-- Without its records, this is the `write_value` that all else is said about. -/
theorem erases_writeValue (lib : LuaLibrary) (mem : ℕ → Block) (fuel : ℕ) (mb : Builder)
    (L : LuaState) (idx : ℤ) :
    Erases (writeValue lib mem fuel mb L idx) (Casting.writeValue lib mem fuel mb L idx) := by
  induction fuel generalizing mb L idx with
  | zero => exact Erases.ofOption none
  | succ fuel ih =>
    unfold writeValue Casting.writeValue
    cases hv : L.value idx with
    | none => exact Erases.pure _
    | some v =>
      cases v with
      | table a =>
        apply (Erases.ofOption _).bind
        intro ⟨found, mb⟩
        cases found with
        | true => exact Erases.pure _
        | false =>
          apply (Erases.ofOption _).bind
          intro L
          apply (erases_writeEntries ih _ _ _ _).bind
          intro ⟨slots, L, mb⟩
          apply (Erases.ofOption _).bind
          intro ⟨hasMeta, L⟩
          cases hasMeta with
          | true => exact (ih _ _ _).bind fun _ => Erases.pure _
          | false => exact Erases.pure _
      | function a =>
        dsimp only
        rw [luaPushvalue_value hv]
        apply Erases.value
        apply Erases.record
        rw [luaDump_push, luaGetinfo_push]
        cases L.heap.closures a with
        | none => exact Erases.nothing
        | some c =>
          apply Erases.value
          apply Erases.value
          exact (erases_writeUpvalues ih _ _ _ _).bind fun _ => Erases.pure _
      | userdata a =>
        dsimp only
        rw [luaGetmetafield_value hv]
        cases lib.saver a with
        | none => exact Erases.pure _
        | some save =>
          apply (Erases.ofOption _).bind
          intro L
          apply Erases.record
          apply (Erases.ofOption _).bind
          intro ⟨results, L⟩
          exact (erases_writeSaved ih _ _ _ _).bind fun _ => Erases.pure _
      | _ => exact Erases.pure _

end Erases

/-! ### One case at a time -/

section Cases

variable {lib : LuaLibrary} {mem : ℕ → Block} {fuel : ℕ} {mb mb' : Builder} {L L' : LuaState}
  {idx rc : ℤ} {a : Address} {es es' : List Handing}

theorem run_function {c : Closure} (hv : L.value idx = some (.function a))
    (hc : L.heap.closures a = some c) :
    (writeValue lib mem (fuel + 1) mb L idx).run es =
      ((writeUpvalues (writeValue lib mem fuel) idx c.upvalues.length 0
        (lcPushfunction (some (mem mb.last)) mb c.code).2 L).run
        (es ++ [⟨.dump, some (.function a), some (.function a)⟩])).map fun r =>
          (((lcPushfunction (some (mem mb.last)) mb c.code).1, r.1.1,
            lcSetfunction r.1.2 (lcPushfunction (some (mem mb.last)) mb c.code).1
              (BitVec.ofNat 32 c.upvalues.length)), r.2) := by
  have htop : (L.push (.function a)).value (-1) = some (.function a) :=
    LuaState.value_top ⟨L.stack, rfl⟩
  rw [writeValue]
  simp only [hv, luaPushvalue_value hv]
  rw [run_bind_value, run_bind_record, htop, luaDump_push, luaGetinfo_push, hc, Option.map_some,
    run_bind_value, Option.map_some, run_bind_value]
  exact run_bind_pure _

theorem run_function_none (hv : L.value idx = some (.function a))
    (hc : L.heap.closures a = none) :
    (writeValue lib mem (fuel + 1) mb L idx).run es = none := by
  rw [writeValue]
  simp only [hv, luaPushvalue_value hv]
  rw [run_bind_value, run_bind_record, luaDump_push, hc, Option.map_none, run_bind_nothing]

/-- What a `__save` returns is put where its function and its argument were. -/
theorem luaCall_pushed {save : LuaValue} {results : List LuaValue} {L₁ L₂ : LuaState}
    (hpush : luaPushvalue (L.push save) idx = some L₁)
    (hcall : luaCall L₁ lib 1 = some (results, L₂)) :
    ∃ arg, L₁.value (-1) = some arg ∧ lib.call save [arg] = some results ∧ L = L₂ := by
  obtain ⟨arg, -, rfl⟩ := Option.map_eq_some_iff.mp hpush
  obtain ⟨_, hresults, heq⟩ := Option.map_eq_some_iff.mp hcall
  cases heq
  exact ⟨arg, LuaState.value_top ⟨_, rfl⟩, hresults, rfl⟩

theorem run_userdata {save : LuaValue} (hv : L.value idx = some (.userdata a))
    (hsaver : lib.saver a = some save)
    (hwrite : (writeValue lib mem (fuel + 1) mb L idx).run es = some ((rc, L', mb'), es')) :
    ∃ arg results L₁ n i mb₁ mb₂, lib.call save [arg] = some results ∧
      L₁.stack.length = results.length + L.stack.length ∧
      (writeSaved (writeValue lib mem fuel) n i mb₁ L₁).run
        (es ++ [⟨.save, some (.userdata a), some arg⟩]) = some ((L', mb₂), es') := by
  rw [writeValue] at hwrite
  simp only [hv, luaGetmetafield_value hv, hsaver] at hwrite
  obtain ⟨L₁, es₁, hstep, hwrite⟩ := run_bind_eq_some.mp hwrite
  obtain ⟨hpush, rfl⟩ := run_ofOption_eq_some.mp hstep
  rw [run_bind_record] at hwrite
  obtain ⟨⟨results, L₂⟩, es₂, hstep, hwrite⟩ := run_bind_eq_some.mp hwrite
  obtain ⟨hcall, rfl⟩ := run_ofOption_eq_some.mp hstep
  obtain ⟨arg, harg, hresults, rfl⟩ := luaCall_pushed hpush hcall
  rw [harg] at hwrite
  obtain ⟨⟨L₃, mb₃⟩, es₃, hsaved, hwrite⟩ := run_bind_eq_some.mp hwrite
  cases hwrite
  refine ⟨arg, results, _, _, _, _, _, hresults, ?_, hsaved⟩
  rw [length_luaTolstring, List.length_append, List.length_reverse]

end Cases

end Recorded

/-! ## The height of the stack -/

section Height

variable {L L' : LuaState} {idx : ℤ}

theorem length_luaNext {more : Bool} (hnext : luaNext L idx = some (more, L')) :
    L'.stack.length + 1 = L.stack.length + 2 * more.toNat := by
  obtain ⟨⟨a, t⟩, -, hnext⟩ := Option.bind_eq_some_iff.mp hnext
  cases hstack : L.stack with
  | nil => simp [hstack] at hnext
  | cons k stack =>
    simp only [hstack] at hnext
    obtain ⟨e, -, hnext⟩ := Option.bind_eq_some_iff.mp hnext
    cases e with
    | none =>
      cases hnext
      rfl
    | some e =>
      cases hnext
      rfl

theorem length_luaGetupvalue {there : Bool} {n : ℕ}
    (hget : luaGetupvalue L idx n = (there, L')) :
    L'.stack.length = L.stack.length + there.toNat := by
  unfold luaGetupvalue at hget
  split at hget
  · split at hget
    · cases hget
      rfl
    · cases hget
      rfl
  · cases hget
    rfl

theorem length_luaGetmetatable {hasMeta : Bool}
    (hmeta : luaGetmetatable L idx = some (hasMeta, L')) :
    L'.stack.length = L.stack.length + hasMeta.toNat := by
  obtain ⟨⟨a, t⟩, -, hmeta⟩ := Option.bind_eq_some_iff.mp hmeta
  cases hm : t.metatable with
  | none =>
    simp only [hm] at hmeta
    cases hmeta
    rfl
  | some m =>
    simp only [hm] at hmeta
    cases hmeta
    rfl

theorem length_luaPop (n : ℕ) : (luaPop L n).stack.length = L.stack.length - n :=
  List.length_drop

end Height

/-- Calls of this writer take nothing off the stack for good, and keep the records. -/
def Rises (write : RecordingWriter) : Prop :=
  ∀ (mb mb' : Builder) (L L' : LuaState) (idx rc : ℤ) (es es' : List Handing),
    (write mb L idx).run es = some ((rc, L', mb'), es') →
    L.stack.length ≤ L'.stack.length ∧ es ⊆ es'

section Rises

variable {write : RecordingWriter} {mb mb' : Builder} {L L' : LuaState}
  {es es' : List Handing}

theorem Rises.entries (hrises : Rises write) {entry : Option LuaValue} {idx : ℤ} {n : ℕ}
    {slots slots' : Word}
    (hwrite : (Recorded.writeEntries write entry idx n slots mb L).run es =
      some ((slots', L', mb'), es')) :
    L.stack.length ≤ L'.stack.length + 1 ∧ es ⊆ es' := by
  induction n generalizing slots mb L es with
  | zero => cases hwrite
  | succ n ih =>
    rw [Recorded.writeEntries, run_bind_record] at hwrite
    obtain ⟨⟨more, L₁⟩, es₁, hstep, hwrite⟩ := run_bind_eq_some.mp hwrite
    obtain ⟨hnext, rfl⟩ := run_ofOption_eq_some.mp hstep
    have hheight := length_luaNext hnext
    have hrecord : es ⊆ es ++ [⟨.next, entry, L.value idx⟩] := List.subset_append_left _ _
    cases more with
    | false =>
      cases hwrite
      exact ⟨Nat.le_of_eq hheight.symm, hrecord⟩
    | true =>
      obtain ⟨⟨_, L₂, mb₂⟩, es₂, hkey, hwrite⟩ := run_bind_eq_some.mp hwrite
      obtain ⟨⟨_, L₃, mb₃⟩, es₃, hvalue, hwrite⟩ := run_bind_eq_some.mp hwrite
      obtain ⟨hle₂, hes₂⟩ := hrises _ _ _ _ _ _ _ _ hkey
      obtain ⟨hle₃, hes₃⟩ := hrises _ _ _ _ _ _ _ _ hvalue
      obtain ⟨hle, hes⟩ := ih hwrite
      rw [length_luaPop] at hle
      rw [Bool.toNat_true] at hheight
      exact ⟨by omega, fun p hp => hes (hes₃ (hes₂ (hrecord hp)))⟩

theorem Rises.upvalues (hrises : Rises write) {idx : ℤ} {n i : ℕ}
    (hwrite : (Recorded.writeUpvalues write idx n i mb L).run es = some ((L', mb'), es')) :
    L.stack.length ≤ L'.stack.length ∧ es ⊆ es' := by
  induction n generalizing i mb L es with
  | zero =>
    cases hwrite
    exact ⟨le_rfl, fun _ hp => hp⟩
  | succ n ih =>
    rw [Recorded.writeUpvalues] at hwrite
    cases hget : luaGetupvalue L idx (i + 1) with
    | mk there L₁ =>
      have hheight := length_luaGetupvalue hget
      simp only [hget] at hwrite
      cases there with
      | false =>
        cases hwrite
        exact ⟨Nat.le_of_eq hheight.symm, fun _ hp => hp⟩
      | true =>
        obtain ⟨⟨_, L₂, mb₂⟩, es₂, hvalue, hwrite⟩ := run_bind_eq_some.mp hwrite
        obtain ⟨hle₂, hes₂⟩ := hrises _ _ _ _ _ _ _ _ hvalue
        dsimp only at hwrite
        obtain ⟨hle, hes⟩ := ih hwrite
        rw [length_luaPop] at hle
        rw [Bool.toNat_true] at hheight
        exact ⟨by omega, fun p hp => hes (hes₂ hp)⟩

theorem Rises.saved (hrises : Rises write) {n : ℕ} {i : ℤ}
    (hwrite : (Recorded.writeSaved write n i mb L).run es = some ((L', mb'), es')) :
    L.stack.length ≤ L'.stack.length ∧ es ⊆ es' := by
  induction n generalizing i mb L es with
  | zero =>
    cases hwrite
    exact ⟨le_rfl, fun _ hp => hp⟩
  | succ n ih =>
    obtain ⟨⟨_, L₁, mb₁⟩, es₁, hvalue, hwrite⟩ := run_bind_eq_some.mp hwrite
    obtain ⟨hle₁, hes₁⟩ := hrises _ _ _ _ _ _ _ _ hvalue
    obtain ⟨hle, hes⟩ := ih hwrite
    exact ⟨hle₁.trans hle, fun p hp => hes (hes₁ hp)⟩

theorem Rises.metatable (hrises : Rises write) {idx rc : ℤ}
    (hwrite : (Recorded.writeMetatable write idx mb L).run es = some ((rc, L', mb'), es')) :
    L.stack.length ≤ L'.stack.length ∧ es ⊆ es' := by
  obtain ⟨⟨hasMeta, L₁⟩, es₁, hstep, hwrite⟩ := run_bind_eq_some.mp hwrite
  obtain ⟨hmeta, rfl⟩ := run_ofOption_eq_some.mp hstep
  have hheight := length_luaGetmetatable hmeta
  cases hasMeta with
  | false =>
    cases hwrite
    exact ⟨Nat.le_of_eq hheight.symm, fun _ hp => hp⟩
  | true =>
    obtain ⟨⟨_, L₂, mb₂⟩, es₂, hvalue, hwrite⟩ := run_bind_eq_some.mp hwrite
    obtain ⟨hle₂, hes₂⟩ := hrises _ _ _ _ _ _ _ _ hvalue
    cases hwrite
    rw [length_luaPop]
    rw [Bool.toNat_true] at hheight
    exact ⟨by omega, hes₂⟩

theorem writeValue_rises (lib : LuaLibrary) (mem : ℕ → Block) (fuel : ℕ) :
    Rises (Recorded.writeValue lib mem fuel) := by
  induction fuel with
  | zero =>
    intro mb mb' L L' idx rc es es' hwrite
    cases hwrite
  | succ fuel ih =>
    intro mb mb' L L' idx rc es es' hwrite
    cases hv : L.value idx with
    | none =>
      simp only [Recorded.writeValue, hv] at hwrite
      cases hwrite
      exact ⟨le_rfl, fun _ hp => hp⟩
    | some v =>
      cases v with
      | table a =>
        simp only [Recorded.writeValue, hv] at hwrite
        obtain ⟨⟨found, mb₁⟩, es₁, hstep, hwrite⟩ := run_bind_eq_some.mp hwrite
        obtain ⟨hcheck, rfl⟩ := run_ofOption_eq_some.mp hstep
        cases found with
        | true =>
          cases hwrite
          exact ⟨le_rfl, fun _ hp => hp⟩
        | false =>
          obtain ⟨L₁, es₁, hstep, hwrite⟩ := run_bind_eq_some.mp hwrite
          obtain ⟨hroom, rfl⟩ := run_ofOption_eq_some.mp hstep
          obtain ⟨-, rfl⟩ := luaCheckstack_eq_some.mp hroom
          obtain ⟨⟨slots, L₂, mb₂⟩, es₂, hentries, hwrite⟩ := run_bind_eq_some.mp hwrite
          obtain ⟨hle₂, hes₂⟩ := ih.entries hentries
          obtain ⟨hle, hes⟩ := ih.metatable hwrite
          exact ⟨(Nat.le_of_succ_le_succ hle₂).trans hle, fun p hp => hes (hes₂ hp)⟩
      | function a =>
        cases hc : L.heap.closures a with
        | none =>
          rw [Recorded.run_function_none hv hc] at hwrite
          cases hwrite
        | some c =>
          rw [Recorded.run_function hv hc] at hwrite
          obtain ⟨⟨⟨L₁, mb₁⟩, es₁⟩, hupvalues, heq⟩ := Option.map_eq_some_iff.mp hwrite
          obtain ⟨hle, hes⟩ := ih.upvalues hupvalues
          cases heq
          exact ⟨hle, fun p hp => hes (List.mem_append_left _ hp)⟩
      | userdata a =>
        cases hsaver : lib.saver a with
        | none =>
          simp only [Recorded.writeValue, hv, luaGetmetafield_value hv, hsaver] at hwrite
          cases hwrite
          exact ⟨le_rfl, fun _ hp => hp⟩
        | some save =>
          obtain ⟨arg, results, L₁, _, _, _, _, -, hheight, hsaved⟩ :=
            Recorded.run_userdata hv hsaver hwrite
          obtain ⟨hle, hes⟩ := ih.saved hsaved
          exact ⟨by omega, fun p hp => hes (List.mem_append_left _ hp)⟩
      | _ =>
        simp only [Recorded.writeValue, hv] at hwrite
        cases hwrite
        exact ⟨le_rfl, fun _ hp => hp⟩

end Rises

end Casting
