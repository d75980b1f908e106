import Casting.Channel.Callbacks
import Casting.Framework.Custody
import Casting.Lua.Value
import Casting.Runtime.Wakeups

/-!
# Reads and writes outside tasks

Outside a task `luac_read` and `luac_write` give the channel a `session_cb` on their own stack.
Both wait for the callback only if the return code is `ERR_FULL`, which `channel_read` never
returns, and both return `true`.
-/

namespace Casting.Runtime

open Transition Custody

/-- The call outside a task that the callback belongs to. -/
def Waiter.frame : Waiter → Option FrameId
  | .task _ => none
  | .session frame => some frame

/-- The call outside a task that the thread is in. -/
def Pc.frame : Pc → Option FrameId
  | .testing f _ _ | .locking f _ _ | .calling f _ _ | .queueing f _ _ _ _ => f.waiter.frame
  | .waiting frame => some frame
  | _ => none

/-- The same, where the call is past its locked section and will not wait. -/
def Pc.passing : Pc → Option FrameId
  | .calling f full _ | .queueing f full _ _ _ => if full then none else f.waiter.frame
  | _ => none

theorem Pc.frame_of_passing {p : Pc} {frame : FrameId} (h : p.passing = some frame) :
    p.frame = some frame := by
  cases p with
  | calling f full calls | queueing f full job release calls =>
      cases full with
      | true => cases h
      | false => exact h
  | _ => cases h

def Pc.calls : Pc → List Callback
  | .calling _ _ calls | .queueing _ _ _ _ calls => calls
  | _ => []

/-- The message that a read of the channel is given. -/
def first (ch : Channel Waiter MessageId) : Option MessageId :=
  ch.messages.head?.or (ch.writers.head?.map Writer.message)

/-- A thread before the locked section of a `channel_read` outside a task finds a message that
decodes to the one value `true`. -/
def Pc.ReadsTrue (contents : MessageId → List LuaValue)
    (channels : ChannelId → Channel Waiter MessageId) : Pc → Prop
  | .locking (.plain _) c .read => (first (channels c)).map contents = some [.boolean true]
  | _ => True

instance (contents : MessageId → List LuaValue)
    (channels : ChannelId → Channel Waiter MessageId) (p : Pc) :
    Decidable (p.ReadsTrue contents channels) := by
  rcases p with _ | _ | _ | _ | _ | ⟨⟨⟩ | ⟨⟩, _, ⟨⟩ | ⟨⟩⟩ | _ | _ | _ | _ | _ <;>
    unfold Pc.ReadsTrue <;> infer_instance

/-- A return from `luac_read` or `luac_write` outside a task, with the messages that were decoded
onto the stack of the call. -/
structure Return where
  frame : FrameId
  decoded : List MessageId
  values : List LuaValue
  deriving DecidableEq, Repr

/-- The string `closed`. -/
def closedText : List Byte := [99, 108, 111, 115, 101, 100]

/-- The run-time system with the returns from calls outside tasks. -/
structure PlainLog where
  state : State
  returned : List Return

namespace State

def plainReturn (s : State) : Label → Option Return
  | .luac th c _ =>
      match s.pc th with
      | .idle =>
          if (s.channels c).status = .channelClosed then
            some ⟨s.nextFrame, [], [.nil, .string closedText]⟩
          else none
      | _ => none
  | .leave th =>
      match s.pc th with
      | .calling (.plain frame) false [] =>
          some ⟨frame, (s.frames frame).decoded, [.boolean true]⟩
      | _ => none
  | .wake th =>
      match s.pc th with
      | .waiting frame => some ⟨frame, (s.frames frame).decoded, [.boolean true]⟩
      | _ => none
  | _ => none

/-- The call is still running. -/
def Live (s : State) (frame : FrameId) : Prop := ∃ th, (s.pc th).frame = some frame

end State

namespace PlainLog

def start (size : ChannelId → Int) : PlainLog := ⟨State.start size, []⟩

def step (l : PlainLog) (a : Label) : Option PlainLog :=
  (l.state.step a).map fun next => ⟨next, l.returned ++ (l.state.plainReturn a).toList⟩

/-- A `session_cb` that is parked, or that a callback will be made with, belongs to a call still
running; and a read that got a message returned what the message decodes to. -/
structure Blocks (contents : MessageId → List LuaValue) (l : PlainLog) : Prop where
  parked : ∀ c frame, Holds (l.state.channels c) (.session frame) → l.state.Live frame
  pending : ∀ th, ∀ i ∈ (l.state.pc th).calls, ∀ frame, i.cb = .session frame →
    l.state.Live frame
  values : ∀ r ∈ l.returned, r.decoded ≠ [] → ∃ m, r.decoded = [m] ∧ r.values = contents m

/-- The step is not the locked section of a `channel_read` outside a task, or that finds a message
which decodes to the one value `true`. -/
def ReadsTrue (contents : MessageId → List LuaValue) (l : PlainLog) : Label → Prop
  | .locked th => (l.state.pc th).ReadsTrue contents l.state.channels
  | _ => True

instance decidableReadsTrue (contents : MessageId → List LuaValue) (l : PlainLog) (a : Label) :
    Decidable (l.ReadsTrue contents a) := by
  cases a <;> unfold ReadsTrue <;> infer_instance

end PlainLog

/-! ### Who holds the callback of a call -/

/-- The places where the callback of a call can be. -/
inductive WaitPlace
  | channel (c : ChannelId)
  | thread (th : ThreadId)
  deriving DecidableEq, Repr

def awaiting (ws : List Waiter) : List FrameId := ws.filterMap Waiter.frame

def Pc.awaits : Pc → List FrameId
  | .testing f _ _ | .locking f _ _ => awaiting [f.waiter]
  | p => awaiting (p.calls.map Invocation.cb)

def State.awaits (s : State) : WaitPlace → List FrameId
  | .channel c => awaiting (s.channels c).callbacks
  | .thread th => (s.pc th).awaits

theorem mem_awaiting {ws : List Waiter} {frame : FrameId} :
    frame ∈ awaiting ws ↔ .session frame ∈ ws := by
  rw [awaiting, List.mem_filterMap]
  constructor
  · intro ⟨w, hw, hframe⟩
    cases w with
    | task tid => cases hframe
    | session other =>
        cases hframe
        exact hw
  · exact fun h => ⟨_, h, rfl⟩

theorem awaiting_append (ws vs : List Waiter) :
    awaiting (ws ++ vs) = awaiting ws ++ awaiting vs := List.filterMap_append

theorem holds_iff {ch : Channel Waiter MessageId} {frame : FrameId} :
    Holds ch (.session frame) ↔ frame ∈ awaiting ch.callbacks := by
  rw [mem_awaiting, Channel.callbacks, List.mem_append, List.mem_map, List.mem_map, Holds]
  constructor
  · rintro (h | h)
    · exact .inl ⟨_, h, rfl⟩
    · exact .inr h
  · rintro (⟨⟨cb⟩, h, rfl⟩ | h)
    · exact .inl h
    · exact .inr h

/-- The locked section hands callbacks over: those of the channel and of the caller are parked
afterwards, or about to be made. -/
theorem lockedSection_waiters {ch ch' : Channel Waiter MessageId} {w : Waiter} {op : Operation}
    {full : Bool} {calls : List Callback} (hc : Rendezvous ch)
    (h : State.lockedSection ch w op = some (ch', full, calls)) :
    (calls.map Invocation.cb ++ ch'.callbacks).Perm (w :: ch.callbacks) := by
  cases op with
  | write m =>
      obtain ⟨calls', hcalls, _, hperm, _⟩ := channelWriteLocked_callbacks hc m w
      simp only [State.lockedSection, hcalls, Option.map_some, Option.some.injEq,
        Prod.mk.injEq] at h
      obtain ⟨rfl, _, rfl⟩ := h
      exact hperm
  | read =>
      rcases channelReadLocked_callbacks ch w with ⟨_, heq, hcalls⟩ | ⟨m, _, heq, hcalls⟩
      · simp only [State.lockedSection, hcalls, Option.map_some, Option.some.injEq,
          Prod.mk.injEq] at h
        obtain ⟨rfl, _, rfl⟩ := h
        rw [heq]
        simp only [Channel.callbacks, List.map_nil, List.nil_append, List.map_append,
          List.map_cons, List.append_assoc]
        exact List.perm_middle
      · simp only [State.lockedSection, hcalls, Option.map_some, Option.some.injEq,
          Prod.mk.injEq] at h
        obtain ⟨rfl, _, rfl⟩ := h
        rw [heq]
        exact channelRead_perm w m

theorem lockedSection_awaiting {ch ch' : Channel Waiter MessageId} {w : Waiter} {op : Operation}
    {full : Bool} {calls : List Callback} (hc : Rendezvous ch)
    (h : State.lockedSection ch w op = some (ch', full, calls)) :
    (awaiting (calls.map Invocation.cb) ++ awaiting ch'.callbacks).Perm
      (awaiting [w] ++ awaiting ch.callbacks) := by
  rw [← awaiting_append, ← awaiting_append]
  exact (lockedSection_waiters hc h).filterMap Waiter.frame

theorem lockedSection_calls {ch ch' : Channel Waiter MessageId} {w : Waiter} {op : Operation}
    {full : Bool} {calls : List Callback} (hc : Rendezvous ch)
    (h : State.lockedSection ch w op = some (ch', full, calls)) :
    (full = false → (op = .read → first ch ≠ none) → w ∈ calls.map Invocation.cb) ∧
      (∀ r ∈ ch'.readers, r ∈ ch.readers ∨ (r.cb = w ∧ op = .read ∧ first ch = none)) ∧
      (∀ i ∈ calls, i.event = .read → (∃ r ∈ ch.readers, i.cb = r.cb) ∨
        (i.cb = w ∧ op = .read ∧ i.message = first ch)) := by
  cases op with
  | write m =>
      obtain ⟨calls', hcalls, hrc, _, hcalled, hreaders, _⟩ :=
        channelWriteLocked_callbacks hc m w
      simp only [State.lockedSection, hcalls, Option.map_some, Option.some.injEq,
        Prod.mk.injEq] at h
      obtain ⟨rfl, rfl, rfl⟩ := h
      refine ⟨?_, fun r hr => .inl (hreaders r hr), ?_⟩
      · intro hfull _
        rcases hrc with ⟨_, hown⟩ | hrc
        · exact List.mem_map_of_mem hown
        · exact absurd hrc (of_decide_eq_false hfull)
      · intro i hi hevent
        rcases hcalled i hi with rfl | ⟨r, hr, rfl⟩
        · cases hevent
        · exact .inl ⟨r, hr, rfl⟩
  | read =>
      rcases channelReadLocked_callbacks ch w with ⟨hnone, heq, hcalls⟩ | ⟨m, hm, heq, hcalls⟩
      · simp only [State.lockedSection, hcalls, Option.map_some, Option.some.injEq,
          Prod.mk.injEq] at h
        obtain ⟨rfl, _, rfl⟩ := h
        refine ⟨fun _ hsome => absurd hnone (hsome rfl), ?_, ?_⟩
        · rw [heq]
          intro r hr
          rcases List.mem_append.mp hr with hr | hr
          · exact .inl hr
          · rw [List.mem_singleton.mp hr]
            exact .inr ⟨rfl, rfl, hnone⟩
        · rintro i ⟨⟩
      · simp only [State.lockedSection, hcalls, Option.map_some, Option.some.injEq,
          Prod.mk.injEq] at h
        obtain ⟨rfl, _, rfl⟩ := h
        refine ⟨fun _ _ => List.mem_cons_self, ?_, ?_⟩
        · rw [heq]
          exact fun r hr => .inl hr
        · intro i hi hevent
          rcases List.mem_cons.mp hi with rfl | hi
          · exact .inr ⟨rfl, rfl, hm.symm⟩
          · obtain ⟨x, _, rfl⟩ := List.mem_map.mp hi
            cases hevent

namespace State

/-- The callback of a call is in one place, and there only while the call runs and has not been
told anything; a read is never parked, and its message decodes to `true`. -/
structure Tended (contents : MessageId → List LuaValue) (s : State) : Prop where
  rendezvous : ∀ c, Rendezvous (s.channels c)
  apart : Disjointly s.awaits
  live : ∀ p, ∀ frame ∈ s.awaits p, s.Live frame
  used : ∀ frame, s.Live frame → frame < s.nextFrame
  fresh : ∀ frame, s.nextFrame ≤ frame → s.frames frame = ⟨0, []⟩
  untold : ∀ p, ∀ frame ∈ s.awaits p, s.frames frame = ⟨0, []⟩
  passing : ∀ th frame, (s.pc th).passing = some frame → ∀ p, frame ∈ s.awaits p → p = .thread th
  readers : ∀ c, ∀ r ∈ (s.channels c).readers, r.cb.frame = none
  reads : ∀ th, ∀ i ∈ (s.pc th).calls, i.cb.frame ≠ none → i.event = .read →
    ∃ m, i.message = some m ∧ contents m = [.boolean true]
  decoded : ∀ frame, (s.frames frame).decoded = [] ∨
    ∃ m, (s.frames frame).decoded = [m] ∧ contents m = [.boolean true]

variable {contents : MessageId → List LuaValue}

theorem tended_start (size : ChannelId → Int) : (start size).Tended contents where
  rendezvous c := channelNew_rendezvous (size c)
  apart := by
    constructor
    · rintro ⟨⟩ <;> exact List.nodup_nil
    · rintro ⟨⟩ _ _ h <;> cases h
  live := by
    rintro ⟨⟩ _ h <;> cases h
  used := by
    intro frame ⟨_, h⟩
    cases h
  fresh _ _ := rfl
  untold _ _ _ := rfl
  passing _ _ h := by cases h
  readers _ _ h := by cases h
  reads _ _ h := by cases h
  decoded _ := .inl rfl

/-- Callbacks change hands: `fresh` are those of calls that begin, and `gone` those that are made
or given up. -/
theorem Tended.handover {s next : State} (hs : s.Tended contents) {fresh gone : List FrameId}
    {places : List WaitPlace} (hmoved : Handover s.awaits next.awaits fresh gone places)
    (hnodup : fresh.Nodup) (hfresh : ∀ x ∈ fresh, s.nextFrame ≤ x ∧ x < next.nextFrame)
    (hrendezvous : ∀ c, Rendezvous (next.channels c))
    (hlive : ∀ p, ∀ frame ∈ next.awaits p, next.Live frame)
    (hused : ∀ frame, next.Live frame → frame < next.nextFrame)
    (hnext : s.nextFrame ≤ next.nextFrame)
    (hframes : ∀ frame, frame ∉ gone → next.frames frame = s.frames frame)
    (hpassing : ∀ th frame, (next.pc th).passing = some frame →
      ((s.pc th).passing = some frame ∧ .thread th ∉ places ∧ frame ∉ fresh) ∨
        ∀ p, frame ∈ next.awaits p → p = .thread th)
    (hreaders : ∀ c, ∀ r ∈ (next.channels c).readers, r.cb.frame = none)
    (hreads : ∀ th, ∀ i ∈ (next.pc th).calls, i.cb.frame ≠ none → i.event = .read →
      ∃ m, i.message = some m ∧ contents m = [.boolean true])
    (hdecoded : ∀ frame ∈ gone, (next.frames frame).decoded = [] ∨
      ∃ m, (next.frames frame).decoded = [m] ∧ contents m = [.boolean true]) :
    next.Tended contents := by
  have hnew : ∀ x ∈ fresh, ∀ p, x ∉ s.awaits p := by
    intro x hx p hp
    exact absurd (hs.used x (hs.live p x hp)) (Nat.not_lt.mpr (hfresh x hx).1)
  constructor
  · exact hrendezvous
  · exact hmoved.disjointly hs.apart hnodup hnew
  · exact hlive
  · exact hused
  · intro frame hle
    have hkept : frame ∉ gone := by
      intro hgone
      rcases hmoved.mem_moved (List.mem_append_left _ hgone) with h | ⟨q, _, hq⟩
      · exact absurd (hfresh frame h).2 (Nat.not_lt.mpr hle)
      · have hlt := hs.used frame (hs.live q frame hq)
        exact absurd (Nat.lt_of_lt_of_le hlt hnext) (Nat.not_lt.mpr hle)
    rw [hframes frame hkept]
    exact hs.fresh frame (Nat.le_trans hnext hle)
  · intro p frame hp
    have hkept : frame ∉ gone := fun h => hmoved.not_mem_of_gone hs.apart hnodup hnew h p hp
    rw [hframes frame hkept]
    rcases hmoved.mem hp with h | ⟨q, hq⟩
    · exact hs.fresh frame (hfresh frame h).1
    · exact hs.untold q frame hq
  · intro th frame hpass p hp
    rcases hpassing th frame hpass with ⟨hold, hth, hnotfresh⟩ | h
    · by_cases hplace : p ∈ places
      · rcases hmoved.mem_changed hplace hp with hmem | ⟨q, hq, hmem⟩
        · exact absurd hmem hnotfresh
        · rw [hs.passing th frame hold q hmem] at hq
          exact absurd hq hth
      · rw [hmoved.same p hplace] at hp
        exact hs.passing th frame hold p hp
    · exact h p hp
  · exact hreaders
  · exact hreads
  · intro frame
    by_cases h : frame ∈ gone
    · exact hdecoded frame h
    · rw [hframes frame h]
      exact hs.decoded frame

theorem Tended.same {s next : State} (hs : s.Tended contents) (hpc : next.pc = s.pc)
    (hchannels : next.channels = s.channels) (hframes : next.frames = s.frames)
    (hnext : s.nextFrame ≤ next.nextFrame) : next.Tended contents := by
  have hawaits : next.awaits = s.awaits := by
    funext p
    cases p <;> simp only [awaits, hchannels, hpc]
  have hlive : next.Live = s.Live := by
    funext frame
    simp only [Live, hpc]
  have hmoved : Handover s.awaits next.awaits [] [] [] := by
    rw [hawaits]
    exact ⟨List.nodup_nil, fun _ _ => rfl, List.Subperm.refl _⟩
  refine hs.handover hmoved List.nodup_nil (by simp) ?_ ?_ ?_ hnext ?_ ?_ ?_ ?_ (by simp)
  · rw [hchannels]
    exact hs.rendezvous
  · rw [hawaits, hlive]
    exact hs.live
  · rw [hlive]
    exact fun frame h => Nat.lt_of_lt_of_le (hs.used frame h) hnext
  · rw [hframes]
    exact fun _ _ => rfl
  · rw [hpc]
    exact fun th frame h => .inl ⟨h, List.not_mem_nil, List.not_mem_nil⟩
  · rw [hchannels]
    exact hs.readers
  · rw [hpc]
    exact hs.reads

theorem Tended.advance {s next : State} {th : ThreadId} {p : Pc} (hs : s.Tended contents)
    (gone : List FrameId) (hpc : next.pc = Function.update s.pc th p)
    (hchannels : next.channels = s.channels) (hnext : next.nextFrame = s.nextFrame)
    (hframes : ∀ frame, frame ∉ gone → next.frames frame = s.frames frame)
    (hmoved : (gone ++ p.awaits).Subperm (s.pc th).awaits)
    (hframe : p.frame = (s.pc th).frame ∨
      (p.frame = none ∧ ∀ frame, (s.pc th).frame = some frame → ∀ q, frame ∉ s.awaits q))
    (hpassing : ∀ frame, p.passing = some frame →
      (s.pc th).passing = some frame ∨ frame ∈ gone)
    (hcalls : ∀ i ∈ p.calls, i ∈ (s.pc th).calls)
    (hdecoded : ∀ frame ∈ gone, (next.frames frame).decoded = [] ∨
      ∃ m, (next.frames frame).decoded = [m] ∧ contents m = [.boolean true]) :
    next.Tended contents := by
  have hsame : ∀ q, q ∉ [WaitPlace.thread th] → next.awaits q = s.awaits q := by
    intro q hq
    cases q with
    | channel c => simp only [awaits, hchannels]
    | thread other =>
        have hother : other ≠ th := by simpa using hq
        simp only [awaits, hpc, Function.update_of_ne hother]
  have hhandover : Handover s.awaits next.awaits [] gone [.thread th] := by
    refine ⟨List.nodup_singleton _, hsame, ?_⟩
    simpa only [List.flatMap_singleton, List.nil_append, awaits, hpc, Function.update_self]
      using hmoved
  have hothers : ∀ other, other ≠ th → next.pc other = s.pc other := by
    intro other hother
    rw [hpc, Function.update_of_ne hother]
  have hself : next.pc th = p := by rw [hpc, Function.update_self]
  refine hs.handover hhandover List.nodup_nil (by simp) ?_ ?_ ?_ (Nat.le_of_eq hnext.symm)
    hframes ?_ ?_ ?_ hdecoded
  · rw [hchannels]
    exact hs.rendezvous
  · intro q frame hq
    rcases hhandover.mem hq with h | ⟨q', hq'⟩
    · cases h
    · obtain ⟨th', hth'⟩ := hs.live q' frame hq'
      by_cases hother : th' = th
      · subst hother
        rcases hframe with heq | ⟨_, hnone⟩
        · exact ⟨th', by rw [hself, heq, hth']⟩
        · exact absurd hq' (hnone frame hth' q')
      · exact ⟨th', by rw [hothers th' hother, hth']⟩
  · intro frame ⟨th', hth'⟩
    rw [hnext]
    by_cases hother : th' = th
    · subst hother
      rw [hself] at hth'
      rcases hframe with heq | ⟨hnone, _⟩
      · exact hs.used frame ⟨th', by rw [← heq, hth']⟩
      · rw [hnone] at hth'
        cases hth'
    · rw [hothers th' hother] at hth'
      exact hs.used frame ⟨th', hth'⟩
  · intro th' frame hpass
    by_cases hother : th' = th
    · subst hother
      right
      intro q hq
      rw [hself] at hpass
      by_contra hne
      rcases hpassing frame hpass with hold | hgone
      · rw [hsame q (by simpa using hne)] at hq
        exact hne (hs.passing th' frame hold q hq)
      · exact hhandover.not_mem_of_gone hs.apart List.nodup_nil (by simp) hgone q hq
    · left
      rw [hothers th' hother] at hpass
      exact ⟨hpass, by simpa using hother, List.not_mem_nil⟩
  · rw [hchannels]
    exact hs.readers
  · intro th' i hi
    by_cases hother : th' = th
    · subst hother
      rw [hself] at hi
      exact hs.reads th' i (hcalls i hi)
    · rw [hothers th' hother] at hi
      exact hs.reads th' i hi

theorem Tended.stay {s next : State} {th : ThreadId} {p : Pc} (hs : s.Tended contents)
    (hpc : next.pc = Function.update s.pc th p) (hchannels : next.channels = s.channels)
    (hframes : next.frames = s.frames) (hnext : next.nextFrame = s.nextFrame)
    (hframe : p.frame = (s.pc th).frame)
    (hawaits : p.awaits = [] ∨ p.awaits = (s.pc th).awaits)
    (hpassing : p.passing = none ∨ p.passing = (s.pc th).passing)
    (hcalls : p.calls = [] ∨ p.calls = (s.pc th).calls) : next.Tended contents := by
  apply hs.advance [] hpc hchannels hnext
  · rw [hframes]
    exact fun _ _ => rfl
  · rcases hawaits with h | h <;> rw [h]
    · exact List.nil_subperm
    · exact List.Subperm.refl _
  · exact .inl hframe
  · rcases hpassing with h | h <;> rw [h]
    · rintro frame ⟨⟩
    · exact fun _ h => .inl h
  · rcases hcalls with h | h <;> rw [h]
    · rintro i ⟨⟩
    · exact fun _ h => h
  · rintro frame ⟨⟩

theorem Tended.setPc {s : State} {th : ThreadId} {p : Pc} (hs : s.Tended contents)
    (hframe : p.frame = (s.pc th).frame)
    (hawaits : p.awaits = [] ∨ p.awaits = (s.pc th).awaits)
    (hpassing : p.passing = none ∨ p.passing = (s.pc th).passing)
    (hcalls : p.calls = [] ∨ p.calls = (s.pc th).calls) : (s.setPc th p).Tended contents :=
  hs.stay (pc_setPc s th p) rfl rfl rfl hframe hawaits hpassing hcalls

theorem Tended.leave {s : State} {th : ThreadId} (hs : s.Tended contents)
    (hnone : ∀ frame, (s.pc th).frame = some frame → ∀ q, frame ∉ s.awaits q) :
    (s.setPc th .idle).Tended contents := by
  apply hs.advance [] (pc_setPc s th .idle) rfl rfl
  · exact fun _ _ => rfl
  · exact List.nil_subperm
  · exact .inr ⟨rfl, hnone⟩
  · rintro frame ⟨⟩
  · rintro i ⟨⟩
  · rintro frame ⟨⟩

/-! ### What the steps do to the frames -/

theorem frames_taskSetCurrent (s : State) (th : ThreadId) (tid : TaskId) :
    (s.taskSetCurrent th tid).frames = s.frames ∧
      (s.taskSetCurrent th tid).nextFrame = s.nextFrame := by
  unfold taskSetCurrent
  split <;> exact ⟨rfl, rfl⟩

theorem frames_taskRunEnter (s : State) (th : ThreadId) (sid : SessionId) (job : Job) :
    (s.taskRunEnter th sid job).frames = s.frames ∧
      (s.taskRunEnter th sid job).nextFrame = s.nextFrame := by
  unfold taskRunEnter
  split
  · exact ⟨rfl, rfl⟩
  · exact frames_taskSetCurrent _ th job.tid
  · exact frames_taskSetCurrent _ th job.tid

theorem invoke_frames (s : State) (th : ThreadId) (f : CallFrame) (full : Bool) (i : Callback)
    (rest : List Callback) :
    (s.invoke th f full i rest).nextFrame = s.nextFrame ∧
      ((i.cb.frame = none ∧ (s.invoke th f full i rest).frames = s.frames) ∨
        ∃ frame, i.cb = .session frame ∧
          (s.invoke th f full i rest).pc = Function.update s.pc th (.calling f full rest) ∧
          (s.invoke th f full i rest).frames = Function.update s.frames frame
            ⟨(s.frames frame).sem + 1, (s.frames frame).decoded ++
              if i.event = .read then i.message.toList else []⟩) := by
  obtain ⟨cb, m, event⟩ := i
  cases cb with
  | session frame =>
      refine ⟨?_, .inr ⟨frame, rfl, ?_, ?_⟩⟩
      · cases event <;> rfl
      · cases event <;> exact pc_setPc (s.sessionCallback frame _) th (.calling f full rest)
      · cases event <;> simp [invoke, setPc, sessionCallback]
  | task tid =>
      refine ⟨?_, .inl ⟨rfl, ?_⟩⟩ <;> cases event <;> simp only [invoke] <;>
        first | rfl | (split <;> rfl)

theorem closedCallbacks_frames (s : State) (calls : List Callback) :
    (s.closedCallbacks calls).nextFrame = s.nextFrame ∧
      (∀ frame, frame ∉ awaiting (calls.map Invocation.cb) →
        (s.closedCallbacks calls).frames frame = s.frames frame) ∧
      ∀ frame, ((s.closedCallbacks calls).frames frame).decoded = (s.frames frame).decoded := by
  induction calls generalizing s with
  | nil => exact ⟨rfl, fun _ _ => rfl, fun _ => rfl⟩
  | cons i calls ih =>
      obtain ⟨cb, m, event⟩ := i
      cases cb with
      | task tid => exact ih s
      | session frame =>
          obtain ⟨hnext, hframes, hdecoded⟩ := ih (s.sessionCallback frame none)
          refine ⟨hnext, ?_, ?_⟩
          · intro other hother
            have hne : other ≠ frame := by
              rintro rfl
              exact hother List.mem_cons_self
            have hrest := hframes other fun h => hother (List.mem_cons_of_mem _ h)
            refine hrest.trans ?_
            exact Function.update_of_ne hne _ _
          · intro other
            refine (hdecoded other).trans ?_
            by_cases hne : other = frame
            · subst hne
              simp [sessionCallback]
            · simp [sessionCallback, hne]

/-! ### The steps -/

theorem Tended.callback {s : State} {th : ThreadId} {f : CallFrame} {full : Bool} {i : Callback}
    {rest : List Callback} (hs : s.Tended contents)
    (hpc : s.pc th = .calling f full (i :: rest)) :
    (s.invoke th f full i rest).Tended contents := by
  obtain ⟨p, hpc', hchannels, _, hp⟩ := s.invoke_spec th f full i rest
  obtain ⟨hnext, hcases⟩ := s.invoke_frames th f full i rest
  rcases hcases with ⟨hnone, hframes⟩ | ⟨frame, hcb, hpc'', hframes⟩
  · have hpawaits : p.frame = (s.pc th).frame ∧ p.awaits = awaiting (rest.map Invocation.cb) ∧
        p.passing = (s.pc th).passing ∧ p.calls = rest := by
      rw [hpc]
      rcases hp with ⟨_, _, _, _, rfl⟩ | ⟨rfl, _⟩ <;> exact ⟨rfl, rfl, rfl, rfl⟩
    obtain ⟨hframe, hawaits, hpassing, hcalls⟩ := hpawaits
    apply hs.advance [] hpc' hchannels hnext
    · rw [hframes]
      exact fun _ _ => rfl
    · rw [hawaits, hpc]
      simp [Pc.awaits, Pc.calls, awaiting, hnone, List.Subperm.refl]
    · exact .inl hframe
    · rw [hpassing]
      exact fun _ h => .inl h
    · rw [hcalls, hpc]
      exact fun _ h => List.mem_cons_of_mem i h
    · rintro other ⟨⟩
  · have hmem : frame ∈ s.awaits (.thread th) := by
      simp [awaits, hpc, Pc.awaits, Pc.calls, awaiting, hcb, Waiter.frame]
    have huntold := hs.untold _ frame hmem
    apply hs.advance [frame] hpc'' hchannels hnext
    · intro other hother
      rw [hframes, Function.update_of_ne (by simpa using hother)]
    · rw [hpc]
      simp [Pc.awaits, Pc.calls, awaiting, hcb, Waiter.frame, List.Subperm.refl]
    · rw [hpc]
      exact .inl rfl
    · rw [hpc]
      exact fun _ h => .inl h
    · rw [hpc]
      exact fun _ h => List.mem_cons_of_mem i h
    · intro other hother
      rw [List.mem_singleton.mp hother, hframes, Function.update_self, huntold]
      by_cases hevent : i.event = .read
      · obtain ⟨m, hm, htrue⟩ := hs.reads th i (by simp [hpc, Pc.calls])
          (by simp [hcb, Waiter.frame]) hevent
        right
        exact ⟨m, by simp [hevent, hm], htrue⟩
      · left
        simp [hevent]

/-! ### The locked section of a call -/

/-- A `channel_read` outside a task finds a message, and it decodes to `true`. -/
def FindsTrue (contents : MessageId → List LuaValue) (ch : Channel Waiter MessageId)
    (f : CallFrame) (op : Operation) : Prop :=
  ∀ frame, f = .plain frame → op = .read →
    ∃ m, first ch = some m ∧ contents m = [.boolean true]

section Locked

variable {ch ch' : Channel Waiter MessageId} {f : CallFrame} {op : Operation} {full : Bool}
  {calls : List Callback}

/-- A call outside a task that passes on has its callback among those about to be made. -/
theorem FindsTrue.passing (htrue : FindsTrue contents ch f op) (hc : Rendezvous ch)
    (hsection : lockedSection ch f.waiter op = some (ch', full, calls)) {frame : FrameId}
    (hpassing : (Pc.calling f full calls).passing = some frame) :
    frame ∈ awaiting (calls.map Invocation.cb) := by
  cases full with
  | true => cases hpassing
  | false =>
      have hplain : f = .plain frame := by
        cases f <;> cases hpassing
        rfl
      have hfound : op = .read → first ch ≠ none := by
        intro hop
        obtain ⟨m, hm, _⟩ := htrue frame hplain hop
        simp [hm]
      have hw := (lockedSection_calls hc hsection).1 rfl hfound
      rw [hplain] at hw
      exact mem_awaiting.mpr hw

theorem FindsTrue.readers (htrue : FindsTrue contents ch f op) (hc : Rendezvous ch)
    (hsection : lockedSection ch f.waiter op = some (ch', full, calls))
    (hold : ∀ r ∈ ch.readers, r.cb.frame = none) : ∀ r ∈ ch'.readers, r.cb.frame = none := by
  intro r hr
  rcases (lockedSection_calls hc hsection).2.1 r hr with hr | ⟨hcb, hop, hnone⟩
  · exact hold r hr
  · cases f with
    | task sid tid current =>
        rw [hcb]
        rfl
    | plain frame =>
        obtain ⟨m, hm, _⟩ := htrue frame rfl hop
        rw [hnone] at hm
        cases hm

/-- A call outside a task is told of a message that decodes to `true`. -/
theorem FindsTrue.reads (htrue : FindsTrue contents ch f op) (hc : Rendezvous ch)
    (hsection : lockedSection ch f.waiter op = some (ch', full, calls))
    (hold : ∀ r ∈ ch.readers, r.cb.frame = none) {i : Callback} (hi : i ∈ calls)
    (hsession : i.cb.frame ≠ none) (hevent : i.event = .read) :
    ∃ m, i.message = some m ∧ contents m = [.boolean true] := by
  rcases (lockedSection_calls hc hsection).2.2 i hi hevent with ⟨r, hr, hcb⟩ | ⟨hcb, hop, hmessage⟩
  · rw [hcb] at hsession
    exact absurd (hold r hr) hsession
  · cases f with
    | task sid tid current =>
        rw [hcb] at hsession
        exact absurd rfl hsession
    | plain frame =>
        obtain ⟨m, hm, hcontents⟩ := htrue frame rfl hop
        exact ⟨m, hmessage.trans hm, hcontents⟩

end Locked

theorem locked_handover {s next : State} {th : ThreadId} {f : CallFrame} {c : ChannelId}
    {op : Operation} {ch : Channel Waiter MessageId} {full : Bool} {calls : List Callback}
    (hc : Rendezvous (s.channels c)) (hpc : s.pc th = .locking f c op)
    (hsection : lockedSection (s.channels c) f.waiter op = some (ch, full, calls))
    (hchannels : next.channels = Function.update s.channels c ch)
    (hpc' : next.pc = Function.update s.pc th (.calling f full calls)) :
    Handover s.awaits next.awaits [] [] [.channel c, .thread th] := by
  refine ⟨by simp, ?_, ?_⟩
  · intro q hq
    cases q with
    | channel other =>
        have hother : other ≠ c := by
          rintro rfl
          simp at hq
        simp only [awaits, hchannels, Function.update_of_ne hother]
    | thread other =>
        have hother : other ≠ th := by
          rintro rfl
          simp at hq
        simp only [awaits, hpc', Function.update_of_ne hother]
  · have hperm := lockedSection_awaiting hc hsection
    simp only [List.flatMap_cons, List.flatMap_nil, List.append_nil, List.nil_append, awaits,
      hchannels, hpc', Function.update_self, hpc]
    exact (List.perm_append_comm.trans (hperm.trans List.perm_append_comm)).subperm

theorem Tended.locked {s : State} {th : ThreadId} {f : CallFrame} {c : ChannelId}
    {op : Operation} {ch : Channel Waiter MessageId} {full : Bool} {calls : List Callback}
    (hs : s.Tended contents) (hpc : s.pc th = .locking f c op)
    (hsection : lockedSection (s.channels c) f.waiter op = some (ch, full, calls))
    (htrue : FindsTrue contents (s.channels c) f op) :
    ((s.setChannel c ch).setPc th (.calling f full calls)).Tended contents := by
  have hc := hs.rendezvous c
  have hpc' : ((s.setChannel c ch).setPc th (.calling f full calls)).pc =
      Function.update s.pc th (.calling f full calls) := pc_setPc _ _ _
  generalize hnext : (s.setChannel c ch).setPc th (.calling f full calls) = next at hpc' ⊢
  have hchannels : next.channels = Function.update s.channels c ch := by
    rw [← hnext]
    rfl
  have hself : next.pc th = .calling f full calls := by rw [hpc', Function.update_self]
  have hothers : ∀ other, other ≠ th → next.pc other = s.pc other := by
    intro other hother
    rw [hpc', Function.update_of_ne hother]
  have hlive : ∀ frame, next.Live frame ↔ s.Live frame := by
    intro frame
    have hframe : ∀ other, (next.pc other).frame = (s.pc other).frame := by
      intro other
      by_cases hother : other = th
      · rw [hother, hself, hpc]
        rfl
      · rw [hothers other hother]
    simp only [Live, hframe]
  have hhandover := locked_handover hc hpc hsection hchannels hpc'
  have hapart : Disjointly next.awaits :=
    hhandover.disjointly hs.apart List.nodup_nil (by simp)
  have hframes : next.frames = s.frames ∧ next.nextFrame = s.nextFrame := by
    rw [← hnext]
    exact ⟨rfl, rfl⟩
  refine hs.handover hhandover List.nodup_nil (by simp) ?_ ?_ ?_ (Nat.le_of_eq hframes.2.symm)
    ?_ ?_ ?_ ?_ (by simp)
  · intro other
    rw [hchannels]
    by_cases hother : other = c
    · rw [hother, Function.update_self]
      exact (lockedSection_kept hc hsection).rendezvous
    · rw [Function.update_of_ne hother]
      exact hs.rendezvous other
  · intro q frame hq
    rcases hhandover.mem hq with h | ⟨q', hq'⟩
    · cases h
    · exact (hlive frame).mpr (hs.live q' frame hq')
  · rw [hframes.2]
    exact fun frame h => hs.used frame ((hlive frame).mp h)
  · rw [hframes.1]
    exact fun _ _ => rfl
  · intro other frame hpassing
    by_cases hother : other = th
    · right
      rw [hother, hself] at hpassing
      have hmem : frame ∈ next.awaits (.thread th) := by
        simp only [awaits, hself]
        exact htrue.passing hc hsection hpassing
      intro q hq
      rw [hother]
      exact hapart.apart q (.thread th) frame hq hmem
    · left
      rw [hothers other hother] at hpassing
      exact ⟨hpassing, by simpa using hother, List.not_mem_nil⟩
  · intro other r hr
    rw [hchannels] at hr
    by_cases hother : other = c
    · rw [hother, Function.update_self] at hr
      exact htrue.readers hc hsection (hs.readers c) r hr
    · rw [Function.update_of_ne hother] at hr
      exact hs.readers other r hr
  · intro other i hi hsession hevent
    by_cases hother : other = th
    · rw [hother, hself] at hi
      exact htrue.reads hc hsection (hs.readers c) hi hsession hevent
    · rw [hothers other hother] at hi
      exact hs.reads other i hi hsession hevent

theorem channelClose_awaiting (ch : Channel Waiter MessageId) :
    awaiting ((channelClose ch).2.2.map Invocation.cb) ++
      awaiting (channelClose ch).1.callbacks = awaiting ch.callbacks := by
  cases hstatus : ch.status with
  | channelOpen =>
      obtain ⟨_, hempty, hcalled, _⟩ := channelClose_callbacks hstatus
      rw [hcalled, hempty]
      exact List.append_nil _
  | channelClosed =>
      simp only [channelClose, hstatus]
      rfl

theorem Tended.close {s : State} (hs : s.Tended contents) (c : ChannelId) :
    (s.close c).Tended contents := by
  obtain ⟨hpc, hchannels, _⟩ := s.close_spec c
  have hclosed : ∃ calls : List Callback, awaiting (calls.map Invocation.cb) ++
        awaiting (channelClose (s.channels c)).1.callbacks = awaiting (s.channels c).callbacks ∧
      (s.close c).nextFrame = s.nextFrame ∧
      (∀ frame, frame ∉ awaiting (calls.map Invocation.cb) →
        (s.close c).frames frame = s.frames frame) ∧
      ∀ frame, ((s.close c).frames frame).decoded = (s.frames frame).decoded :=
    ⟨_, channelClose_awaiting (s.channels c), closedCallbacks_frames _ _⟩
  obtain ⟨calls, hawaiting, hnext, hframes, hdecoded⟩ := hclosed
  have hreaders : ∀ r ∈ (channelClose (s.channels c)).1.readers, r.cb.frame = none := by
    intro r hr
    unfold channelClose at hr
    split at hr
    · cases hr
    · exact hs.readers c r hr
  generalize s.close c = next at hpc hchannels hnext hframes hdecoded ⊢
  have hlive : next.Live = s.Live := by
    funext frame
    simp only [Live, hpc]
  have hhandover : Handover s.awaits next.awaits [] (awaiting (calls.map Invocation.cb))
      [.channel c] := by
    refine ⟨List.nodup_singleton _, ?_, ?_⟩
    · intro q hq
      cases q with
      | channel other =>
          have hother : other ≠ c := by simpa using hq
          simp only [awaits, hchannels, Function.update_of_ne hother]
      | thread other => simp only [awaits, hpc]
    · simp only [List.flatMap_singleton, List.nil_append, awaits, hchannels,
        Function.update_self, hawaiting, List.Subperm.refl]
  refine hs.handover hhandover List.nodup_nil (by simp) ?_ ?_ ?_ (Nat.le_of_eq hnext.symm)
    hframes ?_ ?_ ?_ ?_
  · intro other
    rw [hchannels]
    by_cases hother : other = c
    · rw [hother, Function.update_self]
      exact channelClose_rendezvous (hs.rendezvous c)
    · rw [Function.update_of_ne hother]
      exact hs.rendezvous other
  · intro q frame hq
    rw [hlive]
    rcases hhandover.mem hq with h | ⟨q', hq'⟩
    · cases h
    · exact hs.live q' frame hq'
  · rw [hlive, hnext]
    exact hs.used
  · rw [hpc]
    exact fun th frame h => .inl ⟨h, by simp, List.not_mem_nil⟩
  · intro other r hr
    rw [hchannels] at hr
    by_cases hother : other = c
    · rw [hother, Function.update_self] at hr
      exact hreaders r hr
    · rw [Function.update_of_ne hother] at hr
      exact hs.readers other r hr
  · rw [hpc]
    exact hs.reads
  · intro frame _
    rw [hdecoded]
    exact hs.decoded frame

theorem Tended.begin {s next : State} {th : ThreadId} {p : Pc} (hs : s.Tended contents)
    (hpc : s.pc th = .idle) (hpc' : next.pc = Function.update s.pc th p)
    (hchannels : next.channels = s.channels) (hframes : next.frames = s.frames)
    (hnext : next.nextFrame = s.nextFrame + 1) (hframe : p.frame = some s.nextFrame)
    (hawaits : p.awaits = [s.nextFrame]) (hpassing : p.passing = none) (hcalls : p.calls = []) :
    next.Tended contents := by
  have hself : next.pc th = p := by rw [hpc', Function.update_self]
  have hothers : ∀ other, other ≠ th → next.pc other = s.pc other := by
    intro other hother
    rw [hpc', Function.update_of_ne hother]
  have hhandover : Handover s.awaits next.awaits [s.nextFrame] [] [.thread th] := by
    refine ⟨List.nodup_singleton _, ?_, ?_⟩
    · intro q hq
      cases q with
      | channel other => simp only [awaits, hchannels]
      | thread other =>
          have hother : other ≠ th := by simpa using hq
          simp only [awaits, hothers other hother]
    · simp only [List.flatMap_singleton, List.nil_append, awaits, hself, hawaits, hpc]
      exact List.Subperm.refl _
  have hlt : s.nextFrame < next.nextFrame := by
    rw [hnext]
    exact Nat.lt_succ_self _
  refine hs.handover hhandover (List.nodup_singleton _) ?_ ?_ ?_ ?_ (Nat.le_of_lt hlt) ?_ ?_ ?_
    ?_ (by simp)
  · intro x hx
    rw [List.mem_singleton.mp hx]
    exact ⟨Nat.le_refl _, hlt⟩
  · rw [hchannels]
    exact hs.rendezvous
  · intro q frame hq
    rcases hhandover.mem hq with h | ⟨q', hq'⟩
    · exact ⟨th, by rw [hself, hframe, List.mem_singleton.mp h]⟩
    · obtain ⟨th', hth'⟩ := hs.live q' frame hq'
      have hother : th' ≠ th := by
        rintro rfl
        rw [hpc] at hth'
        cases hth'
      exact ⟨th', by rw [hothers th' hother, hth']⟩
  · intro frame ⟨th', hth'⟩
    by_cases hother : th' = th
    · rw [hother, hself, hframe] at hth'
      cases hth'
      exact hlt
    · rw [hothers th' hother] at hth'
      exact Nat.lt_trans (hs.used frame ⟨th', hth'⟩) hlt
  · rw [hframes]
    exact fun _ _ => rfl
  · intro th' frame hpass
    have hother : th' ≠ th := by
      rintro rfl
      rw [hself, hpassing] at hpass
      cases hpass
    left
    rw [hothers th' hother] at hpass
    refine ⟨hpass, by simpa using hother, ?_⟩
    have hlive : s.Live frame := ⟨th', Pc.frame_of_passing hpass⟩
    exact fun h => Nat.ne_of_lt (hs.used frame hlive) (List.mem_singleton.mp h)
  · rw [hchannels]
    exact hs.readers
  · intro th' i hi
    by_cases hother : th' = th
    · rw [hother, hself, hcalls] at hi
      cases hi
    · rw [hothers th' hother] at hi
      exact hs.reads th' i hi

/-- Only the locked section of a `channel_read` can leave a call untended. -/
theorem Tended.step {s next : State} {a : Label} (hs : s.Tended contents)
    (hstep : s.step a = some next)
    (htrue : ∀ th frame c, a = .locked th → s.pc th = .locking (.plain frame) c .read →
      ∃ m, first (s.channels c) = some m ∧ contents m = [.boolean true]) :
    next.Tended contents := by
  have hother : ∀ other : State, other.pc = s.pc → other.channels = s.channels →
      other.frames = s.frames → other.nextFrame = s.nextFrame → other.Tended contents :=
    fun other hpc hchannels hframes hnext =>
      hs.same hpc hchannels hframes (Nat.le_of_eq hnext.symm)
  cases step_cases hstep with
  | newTask | gcTask | queueTask | queueMessage | refuse => exact hother _ rfl rfl rfl rfl
  | take hpc | enterBusy hpc | enter hpc | runNone hpc | yielded hpc | ended hpc | finish hpc
  | leaveTask hpc =>
      have hframe := (congrArg Pc.frame hpc).symm
      refine Tended.setPc (hother _ ?_ ?_ ?_ ?_) hframe (.inl rfl) (.inl rfl) (.inl rfl) <;> rfl
  | @run th sid job hpc =>
      obtain ⟨p, hp, hpc', hchannels, _⟩ := s.taskRunEnter_spec th sid job
      obtain ⟨hframes, hnext⟩ := s.frames_taskRunEnter th sid job
      have hframe := (congrArg Pc.frame hpc).symm
      rcases hp with rfl | rfl <;>
        exact hs.stay hpc' hchannels hframes hnext hframe (.inl rfl) (.inl rfl) (.inl rfl)
  | @luacTask th sid tid current c writes hpc _ =>
      have hframe := (congrArg Pc.frame hpc).symm
      rcases s.luac_cases th (.task sid tid current) c writes with
        ⟨_, heq⟩ | ⟨_, heq | heq⟩ <;> rw [heq]
      · exact hs
      · exact hs.setPc hframe (.inl rfl) (.inl rfl) (.inl rfl)
      · refine Tended.setPc (hother _ ?_ ?_ ?_ ?_) hframe (.inl rfl) (.inl rfl) (.inl rfl) <;> rfl
  | @luacPlain th c writes hpc =>
      rcases luac_cases { s with nextFrame := s.nextFrame + 1 } th (.plain s.nextFrame) c
        writes with ⟨_, heq⟩ | ⟨_, heq | heq⟩ <;> rw [heq]
      · exact hs.same rfl rfl rfl (Nat.le_succ _)
      · exact hs.begin hpc (pc_setPc _ _ _) rfl rfl rfl rfl rfl rfl rfl
      · exact hs.begin hpc (pc_setPc _ _ _) rfl rfl rfl rfl rfl rfl rfl
  | @testClosed th f c op hpc _ =>
      apply hs.advance (awaiting [f.waiter]) (pc_setPc s th _) rfl rfl
      · exact fun _ _ => rfl
      · rw [hpc]
        simp [Pc.awaits, Pc.calls, awaiting, List.Subperm.refl]
      · exact .inl (congrArg Pc.frame hpc).symm
      · intro frame hpassing
        right
        simpa [awaiting, Pc.passing] using hpassing
      · rintro i ⟨⟩
      · exact fun frame _ => hs.decoded frame
  | test hpc _ =>
      have hframe := (congrArg Pc.frame hpc).symm
      exact hs.setPc hframe (.inr (congrArg Pc.awaits hpc).symm) (.inl rfl) (.inl rfl)
  | locked hpc hsection =>
      apply hs.locked hpc hsection
      rintro frame rfl rfl
      exact htrue _ frame _ rfl hpc
  | callback hpc => exact hs.callback hpc
  | queue hpc =>
      have hframe := (congrArg Pc.frame hpc).symm
      refine Tended.setPc (hother _ ?_ ?_ ?_ ?_) hframe (.inr (congrArg Pc.awaits hpc).symm)
        (.inr (congrArg Pc.passing hpc).symm) (.inr (congrArg Pc.calls hpc).symm) <;> rfl
  | @leavePlain th frame full hpc =>
      cases full with
      | true =>
          exact hs.setPc (congrArg Pc.frame hpc).symm (.inl rfl) (.inl rfl) (.inl rfl)
      | false =>
          apply hs.leave
          intro frame' hframe q hq
          rw [hpc] at hframe
          -- the call is past its locked section, so its callback is its own or made
          have hplace := hs.passing th frame' (by rw [hpc]; exact hframe) q hq
          rw [hplace] at hq
          simp only [awaits, hpc] at hq
          cases hq
  | @wake th frame hpc =>
      have hsem : 0 < (s.frames frame).sem := by
        simp only [State.step, hpc] at hstep
        split at hstep
        · assumption
        · cases hstep
      apply hs.leave
      intro frame' hframe q hq
      rw [hpc] at hframe
      cases hframe
      -- the semaphore has been posted, so the callback was made
      rw [hs.untold q frame hq] at hsem
      exact absurd hsem (Nat.lt_irrefl 0)
  | close c => exact hs.close c

end State

namespace PlainLog

variable {contents : MessageId → List LuaValue}

theorem blocks_of_tended {l : PlainLog} (hs : l.state.Tended contents)
    (hvalues : ∀ r ∈ l.returned, r.decoded ≠ [] → ∃ m, r.decoded = [m] ∧ r.values = contents m) :
    l.Blocks contents where
  parked c frame h := hs.live (.channel c) frame (holds_iff.mp h)
  pending th i hi frame hcb := by
    apply hs.live (.thread th) frame
    have hmem : frame ∈ awaiting ((l.state.pc th).calls.map Invocation.cb) :=
      mem_awaiting.mpr (hcb ▸ List.mem_map_of_mem hi)
    cases hpc : l.state.pc th with
    | calling f full calls | queueing f full job release calls =>
        rw [hpc] at hmem
        simpa only [State.awaits, hpc, Pc.awaits] using hmem
    | _ =>
        rw [hpc] at hmem
        cases hmem
  values := hvalues

theorem values_plainReturn {s : State} (hs : s.Tended contents) {a : Label} {r : Return}
    (h : s.plainReturn a = some r) (hread : r.decoded ≠ []) :
    ∃ m, r.decoded = [m] ∧ r.values = contents m := by
  have htrue : ∀ frame, r = ⟨frame, (s.frames frame).decoded, [.boolean true]⟩ →
      ∃ m, r.decoded = [m] ∧ r.values = contents m := by
    rintro frame rfl
    rcases hs.decoded frame with hnil | ⟨m, hm, hcontents⟩
    · exact absurd hnil hread
    · exact ⟨m, hm, hcontents.symm⟩
  cases a with
  | luac th c writes =>
      simp only [State.plainReturn] at h
      split at h
      · split at h <;> cases h
        exact absurd rfl hread
      · cases h
  | leave th =>
      simp only [State.plainReturn] at h
      split at h <;> cases h
      exact htrue _ rfl
  | wake th =>
      simp only [State.plainReturn] at h
      split at h <;> cases h
      exact htrue _ rfl
  | _ => cases h

/-- In every run in which each locked section of a `channel_read` outside a task finds a message
that decodes to `true`, all reads and writes outside tasks block until they are served. -/
theorem blocks_throughout (contents : MessageId → List LuaValue) (size : ChannelId → Int)
    (steps : List Label) (hguard : Respects step (ReadsTrue contents) (start size) steps) :
    Throughout step (Blocks contents) (start size) steps := by
  let Kept := fun l : PlainLog => l.state.Tended contents ∧
    ∀ r ∈ l.returned, r.decoded ≠ [] → ∃ m, r.decoded = [m] ∧ r.values = contents m
  have hstep : ∀ l a next, Kept l → ReadsTrue contents l a → step l a = some next →
      Kept next := by
    intro l a next ⟨hs, hvalues⟩ hreads h
    obtain ⟨state, hstate, rfl⟩ := Option.map_eq_some_iff.mp h
    refine ⟨?_, ?_⟩
    · apply hs.step hstate
      rintro th frame c rfl hpc
      simp only [ReadsTrue, hpc, Pc.ReadsTrue] at hreads
      exact Option.map_eq_some_iff.mp hreads
    · intro r hr hread
      rcases List.mem_append.mp hr with hold | hnew
      · exact hvalues r hold hread
      · exact values_plainReturn hs (Option.mem_toList.mp hnew) hread
  have hstart : Kept (start size) := by
    refine ⟨State.tended_start size, ?_⟩
    rintro r ⟨⟩
  exact throughout_of_respects hstep (fun _ hl => blocks_of_tended hl.1 hl.2) hstart hguard

/-- A message is written and read outside tasks. -/
theorem blocks_write_read :
    let steps : List Label := [.luac 0 0 true, .test 0, .locked 0, .callback 0, .leave 0,
      .luac 1 0 false, .test 1, .locked 1, .callback 1, .leave 1]
    Throughout step (Blocks fun _ => [.boolean true]) (start fun _ => 1) steps := by
  intro steps
  exact blocks_throughout _ (fun _ => 1) steps (by decide)

/-- A read of an empty channel returns at once and leaves its `session_cb` parked. -/
theorem blocks_fails :
    ¬ ∀ (contents : MessageId → List LuaValue) (size : ChannelId → Int) (steps : List Label),
      Throughout step (Blocks contents) (start size) steps := by
  intro hall
  have h := hall (fun _ => [.boolean true]) (fun _ => 1)
    [.luac 0 0 false, .test 0, .locked 0, .leave 0]
  have hblocks := (((h.2 _ rfl).2 _ rfl).2 _ rfl).2 _ rfl
  obtain ⟨th, hframe⟩ := hblocks.parked 0 0 (.inl List.mem_cons_self)
  cases th <;> cases hframe

end PlainLog

end Casting.Runtime
