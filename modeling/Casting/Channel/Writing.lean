import Casting.Channel.Operations
import Casting.Map.Counted
import Casting.Message.Raising
import Casting.Runtime.State

/-!
# Writes that fail

`luac_write` on the channels of the process, run from start to end by one thread: what it leaves of
the channel when an error is raised while its arguments are encoded.
-/

namespace Casting

open Raising RefCount Transition Casting.Runtime

/-! ### Handling a counted record -/

section Handling

variable {α : Type*} [Inhabited α]

/-- A record is in the table with this reference count. -/
def HasCount (id : ℕ) (n : ℤ) (s : Table α) : Prop :=
  ∃ g t, s.Stores g ∧ g id = some t ∧ t.refCount = n

/-- What goes on with a record: a reference to it is taken, one is given back, or the record is
changed by somebody who has one. -/
inductive Handling (α : Type*)
  | take
  | give
  | change (body : α)

/-- A step with a table and the number of references to the record that can be given back. -/
def Table.handle (id : ℕ) : Table α × ℕ → Handling α → Option (Table α × ℕ)
  | (s, n), .take => (s.ref id).2.map fun _ => ((s.ref id).1, n + 1)
  | (_, 0), .give => none
  | (s, n + 1), .give => (s.free id).map fun (s, _) => (s, n)
  | (s, n), .change body =>
      (s.find id).map fun t => ({ s with map := s.map.assign { t with body := body } }, n)

/-- The reference count does not overflow, also where one reference cannot be given back. -/
def HandleInRange : Table α × ℕ → Handling α → Prop
  | (_, n), .take => n + 1 < maxCount
  | _, _ => True

/-- However references are taken and given back, the record stays. -/
def NeverDestroyed (id n : ℕ) (s : Table α) : Prop :=
  ∀ as, Respects (Table.handle id) HandleInRange (s, n) as →
    Throughout (Table.handle id) (fun p => p.1.find id ≠ none) (s, n) as

/-- The record is as it was, and goes with the last of the references that it counted. -/
structure Restores (id : ℕ) (s s' : Table α) : Prop where
  same : s'.find id = s.find id
  destroyed : ∀ t, s.find id = some t → ∀ n : ℕ, t.refCount = n → ∀ as final,
    Respects (Table.handle id) HandleInRange (s', n) as →
    run (Table.handle id) (s', n) as = some (final, 0) → final.find id = none

/-- The table counts `extra` references more than can be given back. -/
structure Surplus (id extra : ℕ) (p : Table α × ℕ) : Prop where
  counted : ∃ g, p.1.Stores g ∧ (g id).map Counted.refCount = count (p.2 + extra)
  range : p.2 + extra ≤ maxCount

variable {id extra n : ℕ} {s s' : Table α} {g : ℕ → Option (Counted α)}

theorem HasCount.find {n : ℤ} (h : HasCount id n s) :
    (s.find id).map Counted.refCount = some n := by
  obtain ⟨g, t, hs, hg, hcount⟩ := h
  rw [hs.find, hg, ← hcount]
  rfl

omit [Inhabited α] in
theorem HasCount.surplus (h : HasCount id (n + extra : ℕ) s) (hpos : 0 < n + extra)
    (hrange : n + extra ≤ maxCount) : Surplus id extra (s, n) := by
  obtain ⟨g, t, hs, hg, hcount⟩ := h
  refine ⟨⟨g, hs, ?_⟩, hrange⟩
  rw [hg, Option.map_some, hcount]
  exact (count_of_pos hpos).symm

theorem Surplus.find {p : Table α × ℕ} (h : Surplus id extra p) :
    (p.1.find id).map Counted.refCount = count (p.2 + extra) := by
  obtain ⟨g, hs, hcount⟩ := h.counted
  rw [hs.find, hcount]

omit [Inhabited α] in
theorem refCount_of_count {t : Counted α} (hcount : (g id).map Counted.refCount = count n)
    (hg : g id = some t) : 0 < n ∧ t.refCount = n := by
  have hpos : 0 < n := by
    rw [Nat.pos_iff_ne_zero]
    intro hzero
    rw [hg, count_eq_none.mpr hzero] at hcount
    cases hcount
  rw [hg, count_of_pos hpos] at hcount
  exact ⟨hpos, Option.some.inj hcount⟩

theorem Surplus.take {q : Table α × ℕ} (h : Surplus id extra (s, n))
    (hrange : n + extra < maxCount) (hstep : Table.handle id (s, n) .take = some q) :
    Surplus id extra q := by
  obtain ⟨g, hs, hcount⟩ := h.counted
  change s.Stores g at hs
  cases hg : g id with
  | none =>
    rw [Table.handle, hs.ref_none hg] at hstep
    cases hstep
  | some t =>
    obtain ⟨_, hrefs⟩ := refCount_of_count hcount hg
    obtain ⟨s', href, _, hs'⟩ := hs.ref_some hg
    rw [Table.handle, href] at hstep
    cases hstep
    have hinc : inc t.refCount = (n + 1 + extra : ℕ) := by
      rw [hrefs, inc_of_lt hrange, Nat.add_right_comm]
    have hcount' : some (inc t.refCount) = count (n + 1 + extra) := by
      rw [hinc, count_of_pos (by omega)]
    have hrange' : n + 1 + extra ≤ maxCount := by omega
    refine ⟨⟨_, hs', ?_⟩, hrange'⟩
    rw [Function.update_self]
    exact hcount'

theorem Surplus.give {q : Table α × ℕ} (h : Surplus id extra (s, n + 1))
    (hstep : Table.handle id (s, n + 1) .give = some q) : Surplus id extra q := by
  obtain ⟨g, hs, hcount⟩ := h.counted
  change s.Stores g at hs
  have hrange : n + 1 + extra ≤ maxCount := h.range
  cases hg : g id with
  | none =>
    rw [hg, Option.map_none, count_of_pos (by omega)] at hcount
    cases hcount
  | some t =>
    obtain ⟨hpos, hrefs⟩ := refCount_of_count hcount hg
    obtain ⟨⟨s', removed⟩, hfree, heq⟩ := Option.map_eq_some_iff.mp hstep
    cases heq
    obtain ⟨_, _, hs'⟩ := hs.free_some hg hfree
    have hdec : dec t.refCount = (n + extra : ℕ) := by
      rw [hrefs, dec_of_pos hpos hrange]
      congr 1
      omega
    have hrange' : n + extra ≤ maxCount := by omega
    refine ⟨⟨_, hs', ?_⟩, hrange'⟩
    rw [Function.update_self, refCount_afterFree, hdec]
    exact (count_eq_if _).symm

theorem Surplus.change {q : Table α × ℕ} {body : α} (h : Surplus id extra (s, n))
    (hstep : Table.handle id (s, n) (.change body) = some q) : Surplus id extra q := by
  obtain ⟨g, hs, hcount⟩ := h.counted
  change s.Stores g at hs
  obtain ⟨t, hfind, heq⟩ := Option.map_eq_some_iff.mp hstep
  cases heq
  have hg : g id = some t := by rw [← hs.find, hfind]
  have hid : t.id = id := hs.id_eq hg
  refine ⟨⟨_, hs.assign hg hid, ?_⟩, h.range⟩
  rw [hg] at hcount
  rw [Function.update_self]
  exact hcount

theorem Surplus.handle {p q : Table α × ℕ} {a : Handling α} (hextra : extra ≤ 1)
    (h : Surplus id extra p) (hrange : HandleInRange p a)
    (hstep : Table.handle id p a = some q) : Surplus id extra q := by
  obtain ⟨s, n⟩ := p
  cases a with
  | take =>
    have hlt : n + 1 < maxCount := hrange
    exact h.take (by omega) hstep
  | give =>
    cases n with
    | zero => cases hstep
    | succ n => exact h.give hstep
  | change body => exact h.change hstep

theorem Surplus.neverDestroyed (h : Surplus id 1 (s, n)) : NeverDestroyed id n s := by
  intro as hrange
  apply throughout_of_respects (I := Surplus id 1) _ _ h hrange
  · intro p a q hp hguard hstep
    exact hp.handle (Nat.le_refl _) hguard hstep
  · intro p hp hnone
    have hfind := hp.find
    rw [hnone, count_of_pos (Nat.succ_pos _)] at hfind
    cases hfind

end Handling

/-! ### `luac_write` -/

abbrev ChannelTable := Table (Channel Waiter Message)

instance {κ μ : Type*} : Inhabited (Channel κ μ) := ⟨channelNew 0⟩

/-- What `luac_write` needs more of Lua: `luaL_checkudata` of a handle, with the id in it or the
error raised, and the value that `luaL_error` raises. -/
structure ChannelRuntime extends LuaRuntime ChannelTable where
  checkudata : LuaState → ℤ → Except LuaValue ChannelId
  luaLError : LuaState → String → LuaValue

/-- How `luac_write` goes on after `channel_write`, with the callbacks that this made: it returns
that the channel is closed, calls `task_yield`, waits for its semaphore, or returns true. -/
inductive WriteOutcome
  | closed
  | yields (invocations : List (Invocation Waiter Message))
  | waits (invocations : List (Invocation Waiter Message))
  | written (invocations : List (Invocation Waiter Message))
  deriving DecidableEq, Repr

/-- `channel_write` on a channel of the table. -/
def ChannelTable.channelWrite (s : ChannelTable) (cid : ChannelId) (m : Message) (w : Waiter) :
    Option (ChannelTable × ReturnCode × List (Invocation Waiter Message)) := do
  let c ← s.find cid
  let result ← Casting.channelWrite c.body (some m) (some w)
  some ({ s with map := s.map.assign { c with body := result.channel } }, result.rc,
    result.invocations)

/-- `luac_write` with its message made: `tid` is the current task, or 0, and `frame` the
`session_cb` of a call outside any task. -/
def luacSend (cid : ChannelId) (tid : TaskId) (frame : FrameId) (m : Message) (s : ChannelTable) :
    Option (WriteOutcome × ChannelTable) :=
  if tid ≠ 0 then do
    let (s, _, invocations) ← s.channelWrite cid m (.task tid)
    let (s, _) ← s.free cid
    some (.yields invocations, s)
  else do
    let (s, rc, invocations) ← s.channelWrite cid m (.session frame)
    if rc = .errFull then some (.waits invocations, s)
    else
      let (s, _) ← s.free cid
      some (.written invocations, s)

namespace ChannelRuntime

variable (rt : ChannelRuntime) (mem : ℕ → Block) (buf : Block) (slack fuel : ℕ)

def luacWrite (tid : TaskId) (frame : FrameId) (L : LuaState) :
    Raising ChannelTable LuaValue WriteOutcome :=
  match rt.checkudata L 1 with
  | .error e => throw e
  | .ok cid => do
      match ← ofState fun s => some (s.ref cid).swap with
      | none => throw (rt.luaLError L "Invalid channel")
      | some c =>
          if c.body.status = .channelClosed then do
            rt.enter .pushstring (L.push .nil)
            ofState fun s => (s.free c.id).map fun (s, _) => (.closed, s)
          else do
            let (m, _) ← rt.luaNewmessage mem buf slack fuel L (luaGettop L - 1).toNat
            ofState (luacSend c.id tid frame m)

variable {rt mem buf slack fuel} {tid : TaskId} {frame : FrameId} {L : LuaState}
  {s s' : ChannelTable} {g : ℕ → Option (Counted (Channel Waiter Message))} {cid : ChannelId}
  {t : Counted (Channel Waiter Message)} {e : LuaValue}

/-- An error on an open channel was raised in `lua_newmessage`, with the reference taken, and
nothing is done after it. -/
theorem luacWrite_raised (hs : s.Stores g) (ht : g cid = some t)
    (hopen : t.body.status = .channelOpen) (hcid : rt.checkudata L 1 = .ok cid)
    (hrun : (rt.luacWrite mem buf slack fuel tid frame L).runs s = some (.error e, s')) :
    ∃ taken : ChannelTable,
      taken.Stores (Function.update g cid (some { t with refCount := inc t.refCount })) ∧
      (rt.luaNewmessage mem buf slack fuel L (luaGettop L - 1).toNat).runs taken =
        some (.error e, s') := by
  obtain ⟨taken, href, _, htaken⟩ := hs.ref_some ht
  refine ⟨taken, htaken, ?_⟩
  unfold luacWrite at hrun
  rw [hcid] at hrun
  dsimp only at hrun
  have hswap : (ofState fun s => some (s.ref cid).swap : Raising ChannelTable LuaValue _).runs s =
      some (.ok (some { t with refCount := inc t.refCount }), taken) := by
    simp [href]
  rw [runs_bind_of_ok hswap] at hrun
  dsimp only at hrun
  rw [if_neg (by simp [hopen])] at hrun
  rcases runs_bind_eq_some.mp hrun with ⟨⟨m, L'⟩, v, _, hrest⟩ | ⟨e', heq, hraise⟩
  · obtain ⟨r, _, heq⟩ := Option.map_eq_some_iff.mp hrest
    cases heq
  · cases heq
    exact hraise

/-- The queues and the status are as before, if the Lua code leaves the channel alone. -/
theorem find_of_luacWrite_raised (hs : s.Stores g) (ht : g cid = some t)
    (hopen : t.body.status = .channelOpen) (hcid : rt.checkudata L 1 = .ok cid)
    (hlua : ∀ c, rt.Leaves fun s => ∃ g, Table.Stores s g ∧ g cid = c)
    (hrun : (rt.luacWrite mem buf slack fuel tid frame L).runs s = some (.error e, s')) :
    s'.find cid = some { t with refCount := inc t.refCount } := by
  obtain ⟨taken, htaken, hraise⟩ := luacWrite_raised hs ht hopen hcid hrun
  have hafter := ((hlua _).luaNewmessage mem buf slack fuel L _).ends _ _ _ hraise
    ⟨_, htaken, Function.update_self _ _ _⟩
  obtain ⟨g', hstores, hg'⟩ := hafter
  rw [hstores.find, hg']

/-- A write that fails while its arguments are encoded leaves the channel with one reference more
than anybody gives back, if the Lua code that runs meanwhile gives back what it takes. -/
theorem luacWrite_leaks (hs : s.Stores g) (ht : g cid = some t)
    (hopen : t.body.status = .channelOpen) (hcid : rt.checkudata L 1 = .ok cid)
    (hlua : rt.Leaves (HasCount cid (inc t.refCount)))
    (hrun : (rt.luacWrite mem buf slack fuel tid frame L).runs s = some (.error e, s')) :
    ¬ Restores cid s s' ∧
      (s'.find cid).map Counted.refCount = some (inc t.refCount) ∧
      ∀ n : ℕ, t.refCount = n → n < maxCount → NeverDestroyed cid n s' := by
  obtain ⟨taken, htaken, hraise⟩ := luacWrite_raised hs ht hopen hcid hrun
  have hbefore : HasCount cid (inc t.refCount) taken :=
    ⟨_, { t with refCount := inc t.refCount }, htaken, Function.update_self _ _ _, rfl⟩
  have hafter := (hlua.luaNewmessage mem buf slack fuel L _).ends _ _ _ hraise hbefore
  refine ⟨?_, hafter.find, ?_⟩
  · intro hrestores
    have hcount := hafter.find
    rw [hrestores.same, hs.find, ht] at hcount
    exact inc_ne_self t.refCount (Option.some.inj hcount).symm
  · intro n hn hmax
    rw [hn, inc_of_lt hmax] at hafter
    exact (hafter.surplus (Nat.succ_pos n) hmax).neverDestroyed

/-! ### A metamethod that raises -/

/-- Function 9, which the metatable of userdata 2 has as `__save`, raises an error; userdata 1 is
a handle of channel 1. -/
def throwing : ChannelRuntime where
  library := {
    checkstack := fun _ _ => true
    numberString := fun _ => []
    objlen := fun _ => 0
    saver := fun a => if a = 2 then some (.function 9) else none
    loader := fun _ => .nil
    call := fun _ _ => none
    chunk := fun _ => none
    chunkError := fun _ => .nil }
  enter _ _ := pure ()
  call _ _ _ := throw .nil
  checkudata _ _ := .ok 1
  luaLError _ _ := .nil

theorem throwing_leaves (P : ChannelTable → Prop) : throwing.Leaves P where
  enter _ _ := Keeps.pure ()
  call _ _ _ := Keeps.throw LuaValue.nil

/-- The stack with the handle, and above it the userdata to be written. -/
def throwingState : LuaState :=
  ⟨[.userdata 2, .userdata 1], ⟨fun _ => none, fun _ => none, 10, fun _ _ => rfl⟩, []⟩

/-- `channel_new` on the empty table. -/
def oneChannel : ChannelTable :=
  ((Table.start fun n => n : ChannelTable).create true (channelNew 0)).elim
    (Table.start fun n => n) Prod.fst

theorem oneChannel_stores :
    oneChannel.Stores (Function.update (fun _ => none) 1 (some ⟨1, 1, channelNew 0⟩)) := by
  have hcall : (Table.start fun n => n : ChannelTable).map.call
      (.insert true ⟨1, 1, channelNew 0⟩) = some (oneChannel.map, .inserted (.ok 1)) := rfl
  exact (Table.start_stores.insert hcall 1).2

/-- `luac_write` outside a task. -/
def throwingWrite : Raising ChannelTable LuaValue WriteOutcome :=
  throwing.luacWrite (fun _ _ => ⟨0, 0, 0, 0, []⟩) (fun _ => ⟨0, 0, 0, 0, []⟩) 0 1 0 0 throwingState

theorem runs_throwingWrite :
    throwingWrite.runs oneChannel = some (.error .nil, (oneChannel.ref 1).1) := rfl

theorem restores_fails :
    ¬ ∀ e s', throwingWrite.runs oneChannel = some (.error e, s') → Restores 1 oneChannel s' := by
  intro h
  have hsame := (h .nil _ runs_throwingWrite).same
  have hcounts := congrArg (Option.map Counted.refCount) hsame
  exact absurd hcounts (by decide)

theorem luacWrite_leaks_throwing :
    ¬ Restores 1 oneChannel (oneChannel.ref 1).1 ∧
      ((oneChannel.ref 1).1.find 1).map Counted.refCount = some 2 ∧
      ∀ n : ℕ, (1 : ℤ) = n → n < maxCount → NeverDestroyed 1 n (oneChannel.ref 1).1 :=
  luacWrite_leaks oneChannel_stores (Function.update_self _ _ _) rfl rfl (throwing_leaves _)
    runs_throwingWrite

end ChannelRuntime

end Casting
