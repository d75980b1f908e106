import Casting.Framework.Locks
import Casting.Framework.RefCount
import Casting.Runtime.State

/-!
# Destroying a session

`session_free` closes the Lua state of a session while it holds the lock of the session table.
The state finalizes the userdata that it owns, and these are handles of sessions, tasks and
channels.
-/

namespace Casting

open Locks RefCount Casting.Runtime

/-- The tables, each with its lock. -/
inductive Registry
  | sessions
  | tasks
  | channels
  deriving DecidableEq, Repr

/-- A userdata with a finalizer: `lua_Session`, `lua_Task` or `lua_Channel`. -/
inductive Userdata
  | session (sid : SessionId)
  | task (tid : TaskId)
  | channel (cid : ChannelId)
  deriving DecidableEq, Repr

/-- A parked callback with its data: `session_callback` with a semaphore or `task_callback`. -/
inductive Parked
  | session (sem : ℕ)
  | task (tid : TaskId)
  deriving DecidableEq, Repr

structure OwningSession where
  refCount : ℤ
  userdata : List Userdata

structure ParkingChannel where
  refCount : ℤ
  readers : List Parked
  writers : List Parked

structure Registries where
  sessions : SessionId → Option OwningSession
  tasks : TaskId → Option ℤ
  channels : ChannelId → Option ParkingChannel
  posts : ℕ → ℕ

/-- Finalizers, the bodies of the critical sections, and the callbacks of a closed channel. -/
inductive Cleanup
  | gc (u : Userdata)
  | sessionDrop (sid : SessionId)
  | taskDrop (tid : TaskId)
  | channelLookup (cid : ChannelId)
  | channelDrop (c : Option ChannelId)
  | closed (p : Parked)
  deriving DecidableEq, Repr

abbrev Code := List (Instr Registry Cleanup)

namespace Registries

def sessionFree (sid : SessionId) : Code :=
  .lock .sessions :: [.op (.sessionDrop sid)] ++ [.unlock .sessions]

def taskFree (tid : TaskId) : Code :=
  .lock .tasks :: [.op (.taskDrop tid)] ++ [.unlock .tasks]

/-- `channel_find`, and what is done with the channel found. -/
def channelFind (cid : ChannelId) : Code :=
  .lock .channels :: [.op (.channelLookup cid)]

def channelFree (c : Option ChannelId) : Code :=
  .lock .channels :: [.op (.channelDrop c)] ++ [.unlock .channels]

def luasDestroy (sid : SessionId) : Code := sessionFree sid

def luatDestroy (tid : TaskId) : Code := taskFree tid

def luacDestroy (cid : ChannelId) : Code := channelFind cid

/-- Closing a state finalizes its userdata. -/
def luaClose (userdata : List Userdata) : Code := userdata.map fun u => .op (.gc u)

def exec : Cleanup → Registries → Registries × Code
  | .gc (.session sid), r => (r, luasDestroy sid)
  | .gc (.task tid), r => (r, luatDestroy tid)
  | .gc (.channel cid), r => (r, luacDestroy cid)
  | .sessionDrop sid, r =>
      match r.sessions sid with
      | none => (r, [])
      | some s =>
          let s := { s with refCount := dec s.refCount }
          if 0 < s.refCount then
            ({ r with sessions := Function.update r.sessions sid (some s) }, [])
          else ({ r with sessions := Function.update r.sessions sid none }, luaClose s.userdata)
  | .taskDrop tid, r => ({ r with tasks := RefCount.free r.tasks tid }, [])
  | .channelLookup cid, r =>
      (r, .unlock .channels :: channelFree ((r.channels cid).map fun _ => cid))
  | .channelDrop none, r => (r, [])
  | .channelDrop (some cid), r =>
      match r.channels cid with
      | none => (r, [])
      | some c =>
          let c := { c with refCount := dec c.refCount }
          if 0 < c.refCount then
            ({ r with channels := Function.update r.channels cid (some c) }, [])
          else ({ r with channels := Function.update r.channels cid none },
            (c.readers ++ c.writers).map fun p => .op (.closed p))
  | .closed (.session sem), r =>
      ({ r with posts := Function.update r.posts sem (r.posts sem + 1) }, [])
  | .closed (.task _), r => (r, [])

/-- A thread that calls `session_free`. -/
def call (r : Registries) (sid : SessionId) : Thread Registry Registries Cleanup :=
  ⟨r, [], sessionFree sid⟩

/-- If the call gives the last reference back, the state of the session owns no session. -/
def OwnsNoSession (r : Registries) (sid : SessionId) : Prop :=
  ∀ s ∈ r.sessions sid, dec s.refCount ≤ 0 → ∀ other, .session other ∉ s.userdata

variable {r : Registries} {held : List Registry} {sid : SessionId} {us : List Userdata}

theorem returns_closed (ps : List Parked) (r : Registries) :
    ∃ r', Returns exec held (ps.map fun p => .op (.closed p)) r r' := by
  induction ps generalizing r with
  | nil => exact ⟨r, returns_nil⟩
  | cons p ps ih =>
      have hfirst : ∃ r', Returns exec held [.op (.closed p)] r r' := by
        cases p with
        | session sem => exact ⟨_, Returns.op rfl returns_nil⟩
        | task tid => exact ⟨_, Returns.op rfl returns_nil⟩
      obtain ⟨r', hfirst⟩ := hfirst
      obtain ⟨r'', hrest⟩ := ih r'
      exact ⟨r'', hfirst.append hrest⟩

theorem returns_taskFree (htasks : .tasks ∉ held) (tid : TaskId) (r : Registries) :
    ∃ r', Returns exec held (taskFree tid) r r' :=
  ⟨_, (Returns.op rfl returns_nil).locked htasks⟩

theorem returns_channelFree (hchannels : .channels ∉ held) (c : Option ChannelId)
    (r : Registries) : ∃ r', Returns exec held (channelFree c) r r' := by
  have hdrop : ∃ r', Returns exec (.channels :: held) [.op (.channelDrop c)] r r' := by
    cases c with
    | none => exact ⟨r, Returns.op rfl returns_nil⟩
    | some cid =>
        cases hc : r.channels cid with
        | none =>
            have hexec : exec (.channelDrop (some cid)) r = (r, []) := by simp only [exec, hc]
            exact ⟨r, Returns.op hexec returns_nil⟩
        | some c =>
            by_cases hpos : 0 < dec c.refCount
            · have hexec : exec (.channelDrop (some cid)) r =
                  ({ r with
                      channels := Function.update r.channels cid
                        (some { c with refCount := dec c.refCount }) }, []) := by
                simp only [exec, hc, if_pos hpos]
              exact ⟨_, Returns.op hexec returns_nil⟩
            · have hexec : exec (.channelDrop (some cid)) r =
                  ({ r with channels := Function.update r.channels cid none },
                    (c.readers ++ c.writers).map fun p => .op (.closed p)) := by
                simp only [exec, hc, if_neg hpos]
              obtain ⟨r', hclosed⟩ := returns_closed (c.readers ++ c.writers)
                { r with channels := Function.update r.channels cid none }
              exact ⟨r', Returns.op hexec hclosed⟩
  obtain ⟨r', hdrop⟩ := hdrop
  exact ⟨r', hdrop.locked hchannels⟩

theorem returns_luacDestroy (hchannels : .channels ∉ held) (cid : ChannelId) (r : Registries) :
    ∃ r', Returns exec held (luacDestroy cid) r r' := by
  obtain ⟨r', hfree⟩ := returns_channelFree hchannels ((r.channels cid).map fun _ => cid) r
  refine ⟨r', fun rest => ?_⟩
  have hlock : Reaches exec ⟨r, held, luacDestroy cid ++ rest⟩
      ⟨r, .channels :: held, .op (.channelLookup cid) :: rest⟩ := reaches_lock hchannels
  have hlookup : Reaches exec ⟨r, .channels :: held, .op (.channelLookup cid) :: rest⟩
      ⟨r, .channels :: held, (.unlock .channels ::
        channelFree ((r.channels cid).map fun _ => cid)) ++ rest⟩ := reaches_op rfl
  exact ((hlock.trans hlookup).trans reaches_unlock).trans (hfree rest)

/-- The finalizers of tasks and channels take locks of their own. -/
theorem returns_gc (htasks : .tasks ∉ held) (hchannels : .channels ∉ held) {u : Userdata}
    (hu : ∀ other, u ≠ .session other) (r : Registries) :
    ∃ r', Returns exec held [.op (.gc u)] r r' := by
  cases u with
  | session other => exact absurd rfl (hu other)
  | task tid =>
      obtain ⟨r', hfree⟩ := returns_taskFree htasks tid r
      exact ⟨r', Returns.op rfl hfree⟩
  | channel cid =>
      obtain ⟨r', hdestroy⟩ := returns_luacDestroy hchannels cid r
      exact ⟨r', Returns.op rfl hdestroy⟩

theorem returns_luaClose (htasks : .tasks ∉ held) (hchannels : .channels ∉ held)
    (hus : ∀ other, .session other ∉ us) (r : Registries) :
    ∃ r', Returns exec held (luaClose us) r r' := by
  induction us generalizing r with
  | nil => exact ⟨r, returns_nil⟩
  | cons u us ih =>
      have hu : ∀ other, u ≠ .session other := by
        intro other heq
        exact hus other (heq ▸ List.mem_cons_self)
      obtain ⟨r', hgc⟩ := returns_gc htasks hchannels hu r
      obtain ⟨r'', hrest⟩ := ih (fun other hmem => hus other (List.mem_cons_of_mem u hmem)) r'
      exact ⟨r'', hgc.append hrest⟩

/-- The finalizer of a session takes the lock that is held while the state is closed. -/
theorem hangs_luaClose (hsessions : .sessions ∈ held) (htasks : .tasks ∉ held)
    (hchannels : .channels ∉ held) {other : SessionId} (hus : .session other ∈ us)
    (r : Registries) : Hangs exec held (luaClose us) r := by
  induction us generalizing r with
  | nil => cases hus
  | cons u us ih =>
      by_cases hu : ∃ sid, u = .session sid
      · obtain ⟨sid, rfl⟩ := hu
        have hfirst : Hangs exec held [.op (.gc (.session sid))] r :=
          Hangs.op rfl (hangs_lock hsessions)
        exact hfirst.append
      · obtain ⟨r', hgc⟩ := returns_gc htasks hchannels (fun sid heq => hu ⟨sid, heq⟩) r
        have hrest : .session other ∈ us := by
          rcases List.mem_cons.mp hus with heq | hmem
          · exact absurd ⟨other, heq.symm⟩ hu
          · exact hmem
        exact hgc.hangs (ih hrest r')

theorem exec_sessionDrop_none (hs : r.sessions sid = none) :
    exec (.sessionDrop sid) r = (r, []) := by
  simp only [exec, hs]

theorem exec_sessionDrop_kept {s : OwningSession} (hs : r.sessions sid = some s)
    (hpos : 0 < dec s.refCount) : exec (.sessionDrop sid) r =
      ({ r with
          sessions := Function.update r.sessions sid
            (some { s with refCount := dec s.refCount }) }, []) := by
  simp only [exec, hs, if_pos hpos]

theorem exec_sessionDrop_last {s : OwningSession} (hs : r.sessions sid = some s)
    (hlast : dec s.refCount ≤ 0) : exec (.sessionDrop sid) r =
      ({ r with sessions := Function.update r.sessions sid none }, luaClose s.userdata) := by
  simp only [exec, hs, if_neg (Int.not_lt.mpr hlast)]

theorem returns_sessionFree (h : OwnsNoSession r sid) :
    ∃ r', Returns exec [] (sessionFree sid) r r' := by
  have hdrop : ∃ r', Returns exec [.sessions] [.op (.sessionDrop sid)] r r' := by
    cases hs : r.sessions sid with
    | none => exact ⟨r, Returns.op (exec_sessionDrop_none hs) returns_nil⟩
    | some s =>
        by_cases hpos : 0 < dec s.refCount
        · exact ⟨_, Returns.op (exec_sessionDrop_kept hs hpos) returns_nil⟩
        · have hlast := Int.not_lt.mp hpos
          have hclose : ∃ r', Returns exec [.sessions] (luaClose s.userdata)
              { r with sessions := Function.update r.sessions sid none } r' :=
            returns_luaClose (by decide) (by decide) (h s hs hlast) _
          obtain ⟨r', hclose⟩ := hclose
          exact ⟨r', Returns.op (exec_sessionDrop_last hs hlast) hclose⟩
  obtain ⟨r', hdrop⟩ := hdrop
  exact ⟨r', hdrop.locked (by decide)⟩

theorem hangs_sessionFree (h : ¬ OwnsNoSession r sid) : Hangs exec [] (sessionFree sid) r := by
  simp only [OwnsNoSession, not_forall, not_not] at h
  obtain ⟨s, hs, hlast, other, hmem⟩ := h
  have hclose : Hangs exec [.sessions] (luaClose s.userdata)
      { r with sessions := Function.update r.sessions sid none } :=
    hangs_luaClose List.mem_cons_self (by decide) (by decide) hmem _
  have hdrop : Hangs exec [.sessions] [.op (.sessionDrop sid)] r :=
    Hangs.op (exec_sessionDrop_last hs hlast) hclose
  exact hdrop.locked (by decide)

/-- `session_free` comes to its end, and never waits for itself on the way, exactly if it does not
close a state that owns a session. -/
theorem ends_iff_ownsNoSession (r : Registries) (sid : SessionId) :
    (Ends exec (call r sid) ∧ ∀ t, Reaches exec (call r sid) t → ¬ SelfLocks t) ↔
      OwnsNoSession r sid := by
  constructor
  · intro ⟨hends, _⟩
    by_contra howns
    exact (hangs_sessionFree howns).not_ends hends
  · intro howns
    obtain ⟨r', hreturns⟩ := returns_sessionFree howns
    exact ⟨hreturns.ends, fun t hreach => hreturns.ends.not_selfLocks hreach⟩

/-- A session whose state owns the handle of another one. -/
def ownerOfTwo : Registries where
  sessions := fun sid => if sid = 1 then some ⟨1, [.session 2]⟩
    else if sid = 2 then some ⟨1, []⟩ else none
  tasks := fun _ => none
  channels := fun _ => none
  posts := fun _ => 0

theorem ends_fails :
    ¬ ∀ (r : Registries) (sid : SessionId), Ends exec (call r sid) ∧
      ∀ t, Reaches exec (call r sid) t → ¬ SelfLocks t := by
  intro hall
  have howns : ¬ OwnsNoSession ownerOfTwo 1 := by
    intro howns
    exact howns ⟨1, [.session 2]⟩ rfl (by decide) 2 List.mem_cons_self
  exact (hangs_sessionFree howns).not_ends (hall ownerOfTwo 1).1

end Registries

end Casting
