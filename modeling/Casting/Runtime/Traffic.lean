import Casting.Message.Footprint
import Casting.Message.Functions
import Casting.Runtime.Releases

/-!
# Lua values through the run-time system

The system with the contents of its messages: what `luac_write`, `luaS_createtask` and
`luat_resume` make of Lua values, what the `write` case of `task_callback` makes of `true`, and
what `task_run` and `session_callback` decode.  Lua code runs between the steps, so a caller's
stack and heap may be any that a message can be made of, and a reader's any at all.
-/

namespace Casting.Runtime

open Transition

/-- The topmost values of a Lua stack that a message can be made of. -/
structure Shipment (lib : LuaLibrary) (slack fuel : ℕ) where
  state : LuaState
  values : List LuaValue
  below : List LuaValue
  stack : state.stack = values.reverse ++ below
  portable : state.heap.IsPortable lib values
  small : ∀ cs seen, ShipsAll state.heap lib (fun _ => none) 0 values cs seen →
    sizeofMessage + streamSize cs < 2 ^ 31 ∧ Spared slack cs ∧ cs.length < fuel

/-- A message, and the values that it was made of as they were then. -/
structure Made where
  message : Message
  heap : LuaHeap
  values : List LuaValue

/-- A call of `lua_decodemessage`: the state before, the result and the state after. -/
structure Receipt where
  message : MessageId
  before : LuaState
  count : ℤ
  after : LuaState

structure Traffic where
  system : State
  made : MessageId → Option Made
  receipts : List Receipt

/-- A step that neither takes values nor gives any, a call with values to be sent, or the decoding
of a message in the Lua state of a reader. -/
inductive Transfer (lib : LuaLibrary) (slack fuel : ℕ)
  | plain (a : Label)
  | send (a : Label) (p : Shipment lib slack fuel)
  | receive (a : Label) (R : LuaState)

def Transfer.label {lib : LuaLibrary} {slack fuel : ℕ} : Transfer lib slack fuel → Label
  | .plain a | .send a _ | .receive a _ => a

/-- What the message that the step makes is made of. -/
def Transfer.Carries {lib : LuaLibrary} {slack fuel : ℕ} (a : Transfer lib slack fuel) (d : Made) :
    Prop :=
  match a with
  | .send _ p => d.heap = p.state.heap ∧ d.values = p.values
  | _ => d.values = [.boolean true]

/-- The coroutine that `task_run` decodes in is new if the task is ready. -/
def State.reader (s : State) (a : Label) (R : LuaState) : LuaState :=
  match a with
  | .taskRun th =>
      match s.pc th with
      | .popped _ (some job) =>
          if (s.sched.tasks job.tid).map Task.status = some .ready then { R with stack := [] }
          else R
      | _ => R
  | _ => R

/-- The message of the `write` case of `task_callback`. -/
def writtenMessage (mem : ℕ → Block) (buf : Block) (slack : ℕ) : Option Message :=
  let mb := msgBuilderInit buf
  msgNew slack (lcPushboolean (some (mem mb.last)) mb 1).2

namespace Traffic

section Steps

variable (lib : LuaLibrary) (mem : ℕ → Block) (buf : Block) (slack fuel : ℕ)

def start (size : ChannelId → Int) : Traffic := ⟨State.start size, fun _ => none, []⟩

def step (t : Traffic) : Transfer lib slack fuel → Option Traffic
  | .plain a => do
      let system ← t.system.step a
      match t.system.makes a, t.system.decodes a with
      | none, none => some { t with system := system }
      | some .written, none => do
          let m ← writtenMessage mem buf slack
          let made : Made := ⟨m, emptyState.heap, [.boolean true]⟩
          some { t with system := system
                        made := Function.update t.made t.system.store.next (some made) }
      | _, _ => none
  | .send a p => do
      let system ← t.system.step a
      match t.system.makes a with
      | some .values => do
          let (m, _) ← luaNewmessage lib mem buf slack fuel p.state p.values.length
          let made : Made := ⟨m, p.state.heap, p.values⟩
          some { t with system := system
                        made := Function.update t.made t.system.store.next (some made) }
      | _ => none
  | .receive a R => do
      let system ← t.system.step a
      let m ← t.system.decodes a
      let made ← t.made m
      let before := t.system.reader a R
      let (count, after) ← luaDecodemessage lib made.message fuel before
      some ⟨system, t.made, t.receipts ++ [⟨m, before, count, after⟩]⟩

end Steps

end Traffic

/-- The values on top of the stack are a copy of those that the message was made of; a message of
no values arrives as `nil`.  The heap of the reader has only grown, and its stack is below the
values, but for the place that the table of references takes. -/
def Receipt.Delivers (r : Receipt) (d : Made) : Prop :=
  let vs := if d.values = [] then [.nil] else d.values
  r.count = vs.length ∧ r.before.Extends r.after ∧
    ∃ vs', r.after.stack = vs'.reverse ++ stackBelow d.message r.before ∧
      d.heap.CopiesTo vs r.after.heap r.before.heap.fresh vs'

/-! ### Messages -/

section Messages

variable (lib : LuaLibrary) (slack fuel : ℕ)

def Made.Sound (d : Made) : Prop :=
  ∃ cs seen, ShipsAll d.heap lib (fun _ => none) 0 d.values cs seen ∧
    sizeofMessage + streamSize cs < 2 ^ 31 ∧ Spared slack cs ∧ cs.length < fuel ∧
    d.message = messageOf cs d.values.length

variable {lib slack fuel} {mem : ℕ → Block} {buf : Block}

theorem Shipment.made_sound [lib.StackGrows] (p : Shipment lib slack fuel) {m : Message}
    {L' : LuaState}
    (hnew : luaNewmessage lib mem buf slack fuel p.state p.values.length = some (m, L')) :
    Made.Sound lib slack fuel ⟨m, p.state.heap, p.values⟩ := by
  obtain ⟨cs, seen, hall⟩ := p.portable.shipsAll
  obtain ⟨hsmall, hspared, hfuel⟩ := p.small cs seen hall
  rw [hall.luaNewmessage p.stack hsmall mem buf hspared.1 hfuel] at hnew
  cases hnew
  exact ⟨cs, seen, hall, hsmall, hspared, hfuel, rfl⟩

theorem written_sound [lib.StackGrows] (hfuel : 1 < fuel) {m : Message}
    (hwritten : writtenMessage mem buf slack = some m) :
    Made.Sound lib slack fuel ⟨m, emptyState.heap, [.boolean true]⟩ := by
  have hall : ShipsAll emptyState.heap lib (fun _ => none) 0 [.boolean true] [.boolean true]
      (fun _ => none) := .cons (.scalar rfl) .nil
  have hsmall : sizeofMessage + streamSize [.boolean true] < 2 ^ 31 := by decide
  have hspared : Spared slack [.boolean true] := ⟨Nat.zero_le _, by decide⟩
  have hstack : (⟨[.boolean true], emptyState.heap, []⟩ : LuaState).stack =
      [LuaValue.boolean true].reverse ++ [] := rfl
  have hnew := hall.luaNewmessage hstack hsmall mem buf hspared.1 hfuel
  have hsame : luaNewmessage lib mem buf slack fuel ⟨[.boolean true], emptyState.heap, []⟩ 1 =
      (writtenMessage mem buf slack).map fun m => (m, ⟨[], emptyState.heap, []⟩) := by
    obtain ⟨fuel, rfl⟩ := Nat.exists_eq_succ_of_ne_zero (Nat.ne_zero_of_lt hfuel)
    have hwrite : writeValues lib mem (fuel + 1) 1
        (luaGettop ⟨[.boolean true], emptyState.heap, []⟩ - (1 : ℕ) + 1) (msgBuilderInit buf)
        ⟨[.boolean true], emptyState.heap, []⟩ = some (⟨[.boolean true], emptyState.heap, []⟩,
          (lcPushboolean (some (mem (msgBuilderInit buf).last)) (msgBuilderInit buf) 1).2) := rfl
    exact luaNewmessage_of_writeValues hwrite slack
  rw [show [LuaValue.boolean true].length = 1 from rfl, hsame, hwritten] at hnew
  refine ⟨_, _, hall, hsmall, hspared, hfuel, ?_⟩
  exact (Prod.mk.inj (Option.some.inj hnew)).1

theorem copiesTo_nil (h H : LuaHeap) (base : Address) : h.CopiesTo [.nil] H base [.nil] := by
  refine ⟨fun _ _ => False, ⟨?_, ?_⟩, .cons (.scalar rfl) .nil, ?_⟩
  · exact fun _ _ _ hab => hab.elim
  · exact fun _ _ _ hab => hab.elim
  · exact fun _ _ hab => hab.elim

/-- Whatever `lua_decodemessage` returns of a sound message is a delivery. -/
theorem Made.Sound.delivers [lib.StackGrows] {d : Made} (hd : d.Sound lib slack fuel)
    (m : MessageId) {before after : LuaState} {count : ℤ}
    (hdecode : luaDecodemessage lib d.message fuel before = some (count, after)) :
    Receipt.Delivers ⟨m, before, count, after⟩ d := by
  obtain ⟨message, h, vs⟩ := d
  obtain ⟨cs, seen, hall, hsmall, hspared, hfuel, hmessage⟩ := hd
  change ShipsAll h lib (fun _ => none) 0 vs cs seen at hall
  change message = messageOf cs vs.length at hmessage
  subst hmessage
  have hlength := length_le_streamSize cs
  have hle := hall.length_le
  by_cases hvs : vs = []
  · subst hvs
    cases hall
    cases hdecode
    exact ⟨rfl, ⟨rfl, fun _ _ => ⟨rfl, rfl⟩⟩, [.nil], rfl, copiesTo_nil _ _ _⟩
  · have hcount : (messageOf cs vs.length).count.toInt = vs.length :=
      toInt_ofNat_small (by omega)
    have hne : (messageOf cs vs.length).count ≠ 0 :=
      count_messageOf_ne_zero (List.length_pos_iff.mpr hvs) (by omega)
    obtain ⟨vs', R', hloop, hstack, hextends, hcopies⟩ := decodeLoop_copies lib before hall hsmall
      (reads_iff_last.mpr hspared.2) vs.length hfuel
    change luaDecodemessage lib (messageOf cs vs.length) fuel before = _ at hdecode
    rw [luaDecodemessage_of_loop hne hloop hstack, hcount] at hdecode
    split at hdecode
    · cases hdecode
      refine ⟨by rw [if_neg hvs], hextends, vs', rfl, ?_⟩
      rw [if_neg hvs]
      exact hcopies
    · cases hdecode

end Messages

/-! ### Runs -/

namespace Traffic

section Runs

variable {lib : LuaLibrary} {mem : ℕ → Block} {buf : Block} {slack fuel : ℕ} {t t' : Traffic}
  {a : Transfer lib slack fuel}

theorem step_cases [lib.StackGrows] (hfuel : 1 < fuel)
    (hstep : t.step lib mem buf slack fuel a = some t') :
    t.system.step a.label = some t'.system ∧
      ((t.system.makes a.label = none ∧ t'.made = t.made) ∨
        ∃ o d, t.system.makes a.label = some o ∧ Made.Sound lib slack fuel d ∧ a.Carries d ∧
          t'.made = Function.update t.made t.system.store.next (some d)) ∧
      ((t.system.decodes a.label = none ∧ t'.receipts = t.receipts) ∨
        ∃ r d, t.system.decodes a.label = some r.message ∧ t.made r.message = some d ∧
          t'.receipts = t.receipts ++ [r] ∧
          luaDecodemessage lib d.message fuel r.before = some (r.count, r.after)) := by
  cases a with
  | plain a =>
      obtain ⟨system, hsystem, hstep⟩ := Option.bind_eq_some_iff.mp hstep
      split at hstep
      · rename_i hmakes hdecodes
        cases hstep
        exact ⟨hsystem, .inl ⟨hmakes, rfl⟩, .inl ⟨hdecodes, rfl⟩⟩
      · rename_i hmakes hdecodes
        obtain ⟨m, hwritten, hstep⟩ := Option.bind_eq_some_iff.mp hstep
        cases hstep
        exact ⟨hsystem, .inr ⟨_, _, hmakes, written_sound hfuel hwritten, rfl, rfl⟩,
          .inl ⟨hdecodes, rfl⟩⟩
      · cases hstep
  | send a p =>
      obtain ⟨system, hsystem, hstep⟩ := Option.bind_eq_some_iff.mp hstep
      split at hstep
      · rename_i hmakes
        obtain ⟨⟨m, L'⟩, hnew, hstep⟩ := Option.bind_eq_some_iff.mp hstep
        cases hstep
        have hdecodes : t.system.decodes a = none := by
          rcases t.system.makes_eq_none_or_decodes_eq_none a with hnone | hnone
          · rw [hmakes] at hnone
            cases hnone
          · exact hnone
        exact ⟨hsystem, .inr ⟨_, _, hmakes, p.made_sound hnew, ⟨rfl, rfl⟩, rfl⟩,
          .inl ⟨hdecodes, rfl⟩⟩
      · cases hstep
  | receive a R =>
      obtain ⟨system, hsystem, hstep⟩ := Option.bind_eq_some_iff.mp hstep
      obtain ⟨m, hdecodes, hstep⟩ := Option.bind_eq_some_iff.mp hstep
      obtain ⟨d, hmade, hstep⟩ := Option.bind_eq_some_iff.mp hstep
      obtain ⟨⟨count, after⟩, hdecode, hstep⟩ := Option.bind_eq_some_iff.mp hstep
      cases hstep
      have hmakes : t.system.makes a = none := by
        rcases t.system.makes_eq_none_or_decodes_eq_none a with hnone | hnone
        · exact hnone
        · rw [hdecodes] at hnone
          cases hnone
      exact ⟨hsystem, .inl ⟨hmakes, rfl⟩,
        .inr ⟨⟨m, t.system.reader a R, count, after⟩, d, hdecodes, hmade, rfl, hdecode⟩⟩

variable (lib slack fuel) in
/-- Every message has contents, each was decoded once at most, and what was decoded is what was
sent. -/
structure Sound (t : Traffic) : Prop where
  owners : t.system.SingleOwner
  made : ∀ m < t.system.store.next, ∃ d, t.made m = some d ∧ d.Sound lib slack fuel
  past : t.system.Past (t.receipts.map Receipt.message)
  delivered : ∀ r ∈ t.receipts, ∃ d, t.made r.message = some d ∧ r.Delivers d

theorem sound_start (size : ChannelId → Int) : (start size).Sound lib slack fuel where
  owners := State.singleOwner_start size
  made m hm := absurd hm (Nat.not_lt_zero m)
  past := ⟨List.nodup_nil, List.forall_mem_nil _, List.forall_mem_nil _⟩
  delivered := List.forall_mem_nil _

theorem Sound.step [lib.StackGrows] (ht : t.Sound lib slack fuel) (hfuel : 1 < fuel)
    (hguard : t.system.ReleaseKept a.label)
    (hstep : t.step lib mem buf slack fuel a = some t') : t'.Sound lib slack fuel := by
  obtain ⟨hsystem, hmakes, hdecodes⟩ := step_cases hfuel hstep
  have hnext := State.next_step hsystem
  have hpast := ht.past.step ht.owners hguard hsystem
  -- what was made stays as it is
  have hkept : ∀ m < t.system.store.next, t'.made m = t.made m := by
    intro m hm
    rcases hmakes with ⟨_, hmade⟩ | ⟨_, _, _, _, _, hmade⟩
    · rw [hmade]
    · rw [hmade, Function.update_of_ne (Nat.ne_of_lt hm)]
  have hreceipts : t'.receipts.map Receipt.message =
      t.receipts.map Receipt.message ++ (t.system.decodes a.label).toList := by
    rcases hdecodes with ⟨hnone, heq⟩ | ⟨r, _, hsome, _, heq, _⟩
    · rw [hnone, heq, Option.toList_none, List.append_nil]
    · rw [hsome, heq, Option.toList_some, List.map_append]
      rfl
  constructor
  · exact ht.owners.step hguard hsystem
  · intro m hm
    rw [hnext] at hm
    rcases hmakes with ⟨hnone, hmade⟩ | ⟨o, d, hsome, hd, _, hmade⟩
    · rw [hnone] at hm
      rw [hmade]
      exact ht.made m hm
    · rw [hsome] at hm
      rcases Nat.lt_succ_iff_lt_or_eq.mp hm with hlt | rfl
      · rw [hkept m hlt]
        exact ht.made m hlt
      · exact ⟨d, by rw [hmade, Function.update_self], hd⟩
  · rw [hreceipts]
    exact hpast
  · have hold : ∀ r ∈ t.receipts, ∃ d, t'.made r.message = some d ∧ r.Delivers d := by
      intro r hr
      rw [hkept r.message (ht.past.made _ (List.mem_map_of_mem hr))]
      exact ht.delivered r hr
    intro r hr
    rcases hdecodes with ⟨_, heq⟩ | ⟨last, d, hsome, hmade, heq, hdecode⟩
    · rw [heq] at hr
      exact hold r hr
    · rw [heq] at hr
      rcases List.mem_append.mp hr with hr | hr
      · exact hold r hr
      · rw [List.mem_singleton.mp hr]
        obtain ⟨th, hth⟩ := State.mem_held_of_decodes hsome
        have hlt := (ht.owners.counted (.thread th) last.message hth).1
        obtain ⟨d', hd', hsound⟩ := ht.made last.message hlt
        rw [hmade] at hd'
        cases hd'
        exact ⟨d, by rw [hkept _ hlt, hmade], hsound.delivers last.message hdecode⟩

theorem carried_run [lib.StackGrows] (hfuel : 1 < fuel) (size : ChannelId → Int)
    (steps : List (Transfer lib slack fuel)) {final : Traffic}
    (hrun : run (step lib mem buf slack fuel) (start size) steps = some final) :
    ∀ m d, final.made m = some d → ∃ a ∈ steps, a.Carries d := by
  have hall : Respects (step lib mem buf slack fuel) (fun _ a => a ∈ steps) (start size) steps :=
    respects_of_forall (fun _ ha => ha) _
  refine hall.run_invariant (I := fun t => ∀ m d, t.made m = some d → ∃ a ∈ steps, a.Carries d)
    ?_ ?_ hrun
  · intro t a t' ht ha hstep m d hd
    rcases (step_cases hfuel hstep).2.1 with ⟨_, hmade⟩ | ⟨_, d', _, _, hcarries, hmade⟩
    · rw [hmade] at hd
      exact ht m d hd
    · rw [hmade] at hd
      by_cases hm : m = t.system.store.next
      · rw [hm, Function.update_self] at hd
        cases hd
        exact ⟨a, ha, hcarries⟩
      · rw [Function.update_of_ne hm] at hd
        exact ht m d hd
  · intro m d hd
    cases hd

end Runs

/-- A function and `true`. -/
def closureShipment : Shipment closureLibrary 0 4 where
  state := ⟨[.boolean true, .function 0], closureHeap, []⟩
  values := [.function 0, .boolean true]
  below := []
  stack := rfl
  portable := isPortable_closureHeap
  small := by
    intro cs seen hall
    rw [ships_closureHeap hall]
    decide

/-- A task is created with the function and waits to write it to a program outside any task.  When
the program has read it, the task's callback destroys the message, and the task resumes. -/
def readOutside : List (Transfer closureLibrary 0 4) :=
  [.plain (.newTask 0), .send (.queueTask 1 true) closureShipment, .plain (.take 0),
    .plain (.enter 0), .receive (.taskRun 0) emptyState, .send (.luac 0 0 true) closureShipment,
    .plain (.test 0), .plain (.locked 0), .plain (.leave 0), .plain (.yielded 0 .yield),
    .plain (.finish 0), .plain (.luac 1 0 false), .plain (.test 1), .plain (.locked 1),
    .receive (.callback 1) emptyState, .plain (.callback 1), .plain (.queue 1), .plain (.leave 1),
    .plain (.take 0), .plain (.enter 0), .receive (.taskRun 0) ⟨[.nil], closureHeap, []⟩]

end Traffic

end Casting.Runtime
