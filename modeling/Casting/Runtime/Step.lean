import Casting.Runtime.State
import Casting.Framework.Transition

/-!
# Steps of the run-time system

One label is one step of one OS thread: a section under a lock, a test made without it, a
callback, or the Lua code between two calls.  `task_run` is cut at `lua_resume`, whose result
code is part of the label.  `Step` lists everything a step can do.
-/

namespace Casting.Runtime

open Transition

/-- `queueTask` is the `session_queue_task` of a `task_resume` that has passed its test before;
`refuse` is a `luat_resume`, with its message made, that does not pass it. -/
inductive Label
  | newTask (sid : SessionId)
  | gcTask (tid : TaskId)
  | queueTask (tid : TaskId) (withMessage : Bool)
  | refuse (tid : TaskId)
  | take (th : ThreadId)
  | enter (th : ThreadId)
  | taskRun (th : ThreadId)
  | luac (th : ThreadId) (c : ChannelId) (writes : Bool)
  | test (th : ThreadId)
  | locked (th : ThreadId)
  | callback (th : ThreadId)
  | queue (th : ThreadId)
  | leave (th : ThreadId)
  | wake (th : ThreadId)
  | yielded (th : ThreadId) (rc : LuaResult)
  | ended (th : ThreadId) (rc : LuaResult)
  | finish (th : ThreadId)
  | close (c : ChannelId)
  deriving DecidableEq, Repr

theorem Scheduler.taskRunEnter_gone {sc sched : Scheduler} {job : Job}
    (h : sc.taskRunEnter job = (.gone, sched)) : sched = sc := by
  unfold Scheduler.taskRunEnter at h
  split at h
  · cases h
    rfl
  · split at h
    · split at h <;> cases h
    · cases h
    · cases h

namespace State

/-- `task_run` of a popped job, up to `lua_resume`. -/
def taskRunEnter (s : State) (th : ThreadId) (sid : SessionId) (job : Job) : State :=
  match s.sched.taskRunEnter job with
  | (.gone, _) => s.setPc th (.ran sid)
  | (.skipped, sched) =>
      ({ s with sched := sched }.taskSetCurrent th job.tid).setPc th (.ran sid)
  | (.resumed, sched) =>
      ({ s with sched := sched, store := s.store.msgDestroy job.message }.taskSetCurrent th
        job.tid).setPc th (.inTask sid job.tid)

/-- `luac_read` or `luac_write` up to the call of `channel_read` or `channel_write`; on a closed
channel it returns at once. -/
def luac (s : State) (th : ThreadId) (f : CallFrame) (c : ChannelId) (writes : Bool) : State :=
  if (s.channels c).status = .channelClosed then s
  else if writes then
    { s with store := s.store.msgNew.2 }.setPc th (.testing f c (.write s.store.msgNew.1))
  else s.setPc th (.testing f c .read)

/-- The locked section of `channel_write` or `channel_read`: the channel it leaves, whether the
return code is `ERR_FULL`, and the callbacks still to make. -/
def lockedSection (ch : Channel Waiter MessageId) (w : Waiter) :
    Operation → Option (Channel Waiter MessageId × Bool × List Callback)
  | .write m =>
      let (ch, l) := channelWriteLocked ch m w
      (channelWriteCallbacks m w l).map fun calls => (ch, decide (l.rc = .errFull), calls)
  | .read =>
      let (ch, l) := channelReadLocked ch w
      (channelReadCallbacks w l).map fun calls => (ch, decide (l.rc = .errFull), calls)

/-- A callback, up to its call of `session_queue_task`. -/
def invoke (s : State) (th : ThreadId) (f : CallFrame) (full : Bool) (i : Callback)
    (rest : List Callback) : State :=
  match i.cb, i.event with
  | .task tid, .read =>
      if s.sched.taskResumable tid then
        s.setPc th (.queueing f full ⟨tid, i.message⟩ none rest)
      else s.setPc th (.calling f full rest)
  | .task tid, .write =>
      -- `msg_new` of the boolean comes before the call of `task_resume`
      let (b, store) := s.store.msgNew
      if s.sched.taskResumable tid then
        { s with store := store }.setPc th (.queueing f full ⟨tid, some b⟩ i.message rest)
      else { s with store := store.msgDestroy i.message }.setPc th (.calling f full rest)
  | .task _, .closed => s.setPc th (.calling f full rest)
  | .session frame, .read => (s.sessionCallback frame i.message).setPc th (.calling f full rest)
  | .session frame, _ => (s.sessionCallback frame none).setPc th (.calling f full rest)

/-- The callbacks that `channel_close` makes under its lock; `task_callback` does nothing. -/
def closedCallbacks (s : State) (calls : List Callback) : State :=
  calls.foldl (fun s i =>
    match i.cb with
    | .task _ => s
    | .session frame => s.sessionCallback frame none) s

def close (s : State) (c : ChannelId) : State :=
  let (ch, released, calls) := channelClose (s.channels c)
  { s.setChannel c ch with
    store := released.foldl (fun store m => store.msgDestroy (some m)) s.store }.closedCallbacks
      calls

def step (s : State) : Label → Option State
  | .newTask sid => some { s with sched := s.sched.taskNew sid }
  | .gcTask tid => some { s with sched := s.sched.taskFree tid }
  | .queueTask tid withMessage =>
      if withMessage then
        some { s with sched := s.sched.sessionQueueTask ⟨tid, some s.store.msgNew.1⟩,
                      store := s.store.msgNew.2 }
      else some { s with sched := s.sched.sessionQueueTask ⟨tid, none⟩ }
  | .refuse tid =>
      -- `luat_resume` raises an error, and nobody has the message
      if s.sched.taskResumable tid then none else some { s with store := s.store.msgNew.2 }
  | .take th =>
      match s.pc th, queuePop s.sched.pool with
      | .idle, (some sid, pool) =>
          some ({ s with sched := { s.sched with pool := pool } }.setPc th (.entered sid))
      | _, _ => none
  | .enter th =>
      match s.pc th with
      | .entered sid =>
          match s.sched.sessionRunEnter sid with
          | none => some (s.setPc th .idle)
          | some (sched, job) => some ({ s with sched := sched }.setPc th (.popped sid job))
      | _ => none
  | .taskRun th =>
      match s.pc th with
      | .popped sid none => some (s.setPc th (.ran sid))
      | .popped sid (some job) => some (s.taskRunEnter th sid job)
      | _ => none
  | .luac th c writes =>
      match s.pc th, (s.threads th).taskKey with
      | .inTask sid tid, some current => some (s.luac th (.task sid tid current) c writes)
      | .idle, none =>
          some ({ s with nextFrame := s.nextFrame + 1 }.luac th (.plain s.nextFrame) c writes)
      | _, _ => none
  | .test th =>
      match s.pc th with
      | .testing f c op =>
          -- `luac_read` and `luac_write` do not look at `ERR_CLOSED`
          if (s.channels c).status = .channelClosed then some (s.setPc th (.calling f false []))
          else some (s.setPc th (.locking f c op))
      | _ => none
  | .locked th =>
      match s.pc th with
      | .locking f c op =>
          (lockedSection (s.channels c) f.waiter op).map fun (ch, full, calls) =>
            (s.setChannel c ch).setPc th (.calling f full calls)
      | _ => none
  | .callback th =>
      match s.pc th with
      | .calling f full (i :: rest) => some (s.invoke th f full i rest)
      | _ => none
  | .queue th =>
      match s.pc th with
      | .queueing f full job release rest =>
          some ({ s with sched := s.sched.sessionQueueTask job,
                         store := s.store.msgDestroy release }.setPc th (.calling f full rest))
      | _ => none
  | .leave th =>
      match s.pc th with
      | .calling (.task sid tid current) _ [] => some (s.setPc th (.yielding sid tid current))
      | .calling (.plain frame) full [] =>
          -- `luac_read` compares with `ERR_FULL` too, which `channel_read` never returns
          some (s.setPc th (if full then .waiting frame else .idle))
      | _ => none
  | .wake th =>
      match s.pc th with
      | .waiting frame => if 0 < (s.frames frame).sem then some (s.setPc th .idle) else none
      | _ => none
  | .yielded th rc =>
      match s.pc th with
      | .yielding sid tid current =>
          -- nothing is known of `lua_yield` on a coroutine that is not the running one
          if current = tid → rc = .yield then
            some ({ s with sched := s.sched.taskRunLeave tid rc true }.setPc th (.ran sid))
          else none
      | _ => none
  | .ended th rc =>
      match s.pc th with
      | .inTask sid tid =>
          some ({ s with sched := s.sched.taskRunLeave tid rc false }.setPc th (.ran sid))
      | _ => none
  | .finish th =>
      match s.pc th with
      | .ran sid => some ({ s with sched := s.sched.sessionRunLeave sid }.setPc th .idle)
      | _ => none
  | .close c => some (s.close c)

theorem closedCallbacks_frame (s : State) (calls : List Callback) :
    (s.closedCallbacks calls).pc = s.pc ∧ (s.closedCallbacks calls).channels = s.channels ∧
      (s.closedCallbacks calls).sched = s.sched ∧ (s.closedCallbacks calls).store = s.store := by
  induction calls generalizing s with
  | nil => exact ⟨rfl, rfl, rfl, rfl⟩
  | cons i calls ih =>
      obtain ⟨hpc, hchannels, hsched, hstore⟩ := ih (match i.cb with
        | .task _ => s
        | .session frame => s.sessionCallback frame none)
      cases hi : i.cb with
      | task tid =>
          rw [hi] at hpc hchannels hsched hstore
          refine ⟨?_, ?_, ?_, ?_⟩ <;> simpa only [closedCallbacks, List.foldl_cons, hi]
      | session frame =>
          rw [hi] at hpc hchannels hsched hstore
          refine ⟨?_, ?_, ?_, ?_⟩ <;> simpa only [closedCallbacks, List.foldl_cons, hi]

/-! ### What the longer steps do -/

theorem close_spec (s : State) (c : ChannelId) :
    (s.close c).pc = s.pc ∧
      (s.close c).channels =
        Function.update s.channels c (channelClose (s.channels c)).1 ∧
      (s.close c).sched = s.sched ∧
      (s.close c).store = (channelClose (s.channels c)).2.1.foldl
        (fun store m => store.msgDestroy (some m)) s.store :=
  closedCallbacks_frame _ _

theorem luac_cases (s : State) (th : ThreadId) (f : CallFrame) (c : ChannelId) (writes : Bool) :
    ((s.channels c).status = .channelClosed ∧ s.luac th f c writes = s) ∨
    ((s.channels c).status = .channelOpen ∧
      (s.luac th f c writes = s.setPc th (.testing f c .read) ∨
        s.luac th f c writes =
          { s with store := s.store.msgNew.2 }.setPc th
            (.testing f c (.write s.store.msgNew.1)))) := by
  cases hstatus : (s.channels c).status with
  | channelClosed =>
      left
      simp [luac, hstatus]
  | channelOpen =>
      right
      cases writes <;> simp [luac, hstatus]

theorem sched_luac (s : State) (th : ThreadId) (f : CallFrame) (c : ChannelId) (writes : Bool) :
    (s.luac th f c writes).sched = s.sched := by
  rcases s.luac_cases th f c writes with ⟨_, heq⟩ | ⟨_, heq | heq⟩ <;> rw [heq] <;> rfl

theorem taskRunEnter_spec (s : State) (th : ThreadId) (sid : SessionId) (job : Job) :
    ∃ p, (p = .ran sid ∨ p = .inTask sid job.tid) ∧
      (s.taskRunEnter th sid job).pc = Function.update s.pc th p ∧
      (s.taskRunEnter th sid job).channels = s.channels ∧
      (s.taskRunEnter th sid job).sched = (s.sched.taskRunEnter job).2 ∧
      (s.taskRunEnter th sid job).store =
        if p = .ran sid then s.store else s.store.msgDestroy job.message := by
  cases hrun : s.sched.taskRunEnter job with
  | mk entry sched =>
      cases entry with
      | gone =>
          refine ⟨.ran sid, .inl rfl, ?_⟩
          simp only [taskRunEnter, hrun]
          simp [Scheduler.taskRunEnter_gone hrun]
      | skipped =>
          refine ⟨.ran sid, .inl rfl, ?_⟩
          simp only [taskRunEnter, hrun]
          simp
          rfl
      | resumed =>
          refine ⟨.inTask sid job.tid, .inr rfl, ?_⟩
          simp only [taskRunEnter, hrun]
          simp
          rfl

theorem invoke_spec (s : State) (th : ThreadId) (f : CallFrame) (full : Bool) (i : Callback)
    (rest : List Callback) :
    ∃ p, (s.invoke th f full i rest).pc = Function.update s.pc th p ∧
      (s.invoke th f full i rest).channels = s.channels ∧
      (s.invoke th f full i rest).sched = s.sched ∧
      ((∃ tid m release, i.cb = .task tid ∧ p = .queueing f full ⟨tid, m⟩ release rest) ∨
        (p = .calling f full rest ∧
          ∀ tid, i.cb = .task tid → i.event = .closed ∨ s.sched.taskResumable tid = false)) := by
  obtain ⟨cb, m, event⟩ := i
  cases cb with
  | session frame =>
      refine ⟨.calling f full rest, ?_⟩
      cases event <;> simp [invoke]
  | task tid =>
      cases hres : s.sched.taskResumable tid <;> cases event
      case true.read =>
        refine ⟨.queueing f full ⟨tid, m⟩ none rest, ?_⟩
        simp [invoke, hres]
      case true.write =>
        refine ⟨.queueing f full ⟨tid, some s.store.msgNew.1⟩ m rest, ?_⟩
        simp [invoke, hres]
        rfl
      all_goals
        refine ⟨.calling f full rest, ?_⟩
        simp [invoke, hres]
        try rfl

end State

/-- Everything a step can do, one constructor for each way through `State.step`. -/
inductive Step (s : State) : Label → State → Prop
  | newTask (sid : SessionId) : Step s (.newTask sid) { s with sched := s.sched.taskNew sid }
  | gcTask (tid : TaskId) : Step s (.gcTask tid) { s with sched := s.sched.taskFree tid }
  | queueTask (tid : TaskId) :
      Step s (.queueTask tid false) { s with sched := s.sched.sessionQueueTask ⟨tid, none⟩ }
  | queueMessage (tid : TaskId) :
      Step s (.queueTask tid true)
        { s with sched := s.sched.sessionQueueTask ⟨tid, some s.store.msgNew.1⟩,
                 store := s.store.msgNew.2 }
  | refuse {tid : TaskId} (hended : s.sched.taskResumable tid = false) :
      Step s (.refuse tid) { s with store := s.store.msgNew.2 }
  | take {th : ThreadId} {sid : SessionId} {pool : Queue SessionId} (hpc : s.pc th = .idle)
      (hpool : s.sched.pool = sid :: pool) :
      Step s (.take th)
        ({ s with sched := { s.sched with pool := pool } }.setPc th (.entered sid))
  | enterBusy {th : ThreadId} {sid : SessionId} (hpc : s.pc th = .entered sid)
      (hbusy : s.sched.sessionRunEnter sid = none) : Step s (.enter th) (s.setPc th .idle)
  | enter {th : ThreadId} {sid : SessionId} {sched : Scheduler} {job : Option Job}
      (hpc : s.pc th = .entered sid) (henter : s.sched.sessionRunEnter sid = some (sched, job)) :
      Step s (.enter th) ({ s with sched := sched }.setPc th (.popped sid job))
  | runNone {th : ThreadId} {sid : SessionId} (hpc : s.pc th = .popped sid none) :
      Step s (.taskRun th) (s.setPc th (.ran sid))
  | run {th : ThreadId} {sid : SessionId} {job : Job} (hpc : s.pc th = .popped sid (some job)) :
      Step s (.taskRun th) (s.taskRunEnter th sid job)
  | luacTask {th : ThreadId} {sid : SessionId} {tid current : TaskId} (c : ChannelId)
      (writes : Bool) (hpc : s.pc th = .inTask sid tid)
      (hkey : (s.threads th).taskKey = some current) :
      Step s (.luac th c writes) (s.luac th (.task sid tid current) c writes)
  | luacPlain {th : ThreadId} (c : ChannelId) (writes : Bool) (hpc : s.pc th = .idle) :
      Step s (.luac th c writes)
        ({ s with nextFrame := s.nextFrame + 1 }.luac th (.plain s.nextFrame) c writes)
  | testClosed {th : ThreadId} {f : CallFrame} {c : ChannelId} {op : Operation}
      (hpc : s.pc th = .testing f c op) (hclosed : (s.channels c).status = .channelClosed) :
      Step s (.test th) (s.setPc th (.calling f false []))
  | test {th : ThreadId} {f : CallFrame} {c : ChannelId} {op : Operation}
      (hpc : s.pc th = .testing f c op) (hopen : (s.channels c).status ≠ .channelClosed) :
      Step s (.test th) (s.setPc th (.locking f c op))
  | locked {th : ThreadId} {f : CallFrame} {c : ChannelId} {op : Operation}
      {ch : Channel Waiter MessageId} {full : Bool} {calls : List Callback}
      (hpc : s.pc th = .locking f c op)
      (hsection : State.lockedSection (s.channels c) f.waiter op = some (ch, full, calls)) :
      Step s (.locked th) ((s.setChannel c ch).setPc th (.calling f full calls))
  | callback {th : ThreadId} {f : CallFrame} {full : Bool} {i : Callback} {rest : List Callback}
      (hpc : s.pc th = .calling f full (i :: rest)) :
      Step s (.callback th) (s.invoke th f full i rest)
  | queue {th : ThreadId} {f : CallFrame} {full : Bool} {job : Job} {release : Option MessageId}
      {rest : List Callback} (hpc : s.pc th = .queueing f full job release rest) :
      Step s (.queue th)
        ({ s with sched := s.sched.sessionQueueTask job,
                  store := s.store.msgDestroy release }.setPc th (.calling f full rest))
  | leaveTask {th : ThreadId} {sid : SessionId} {tid current : TaskId} {full : Bool}
      (hpc : s.pc th = .calling (.task sid tid current) full []) :
      Step s (.leave th) (s.setPc th (.yielding sid tid current))
  | leavePlain {th : ThreadId} {frame : FrameId} {full : Bool}
      (hpc : s.pc th = .calling (.plain frame) full []) :
      Step s (.leave th) (s.setPc th (if full then .waiting frame else .idle))
  | wake {th : ThreadId} {frame : FrameId} (hpc : s.pc th = .waiting frame) :
      Step s (.wake th) (s.setPc th .idle)
  | yielded {th : ThreadId} {sid : SessionId} {tid current : TaskId} {rc : LuaResult}
      (hpc : s.pc th = .yielding sid tid current) (hrc : current = tid → rc = .yield) :
      Step s (.yielded th rc)
        ({ s with sched := s.sched.taskRunLeave tid rc true }.setPc th (.ran sid))
  | ended {th : ThreadId} {sid : SessionId} {tid : TaskId} {rc : LuaResult}
      (hpc : s.pc th = .inTask sid tid) :
      Step s (.ended th rc)
        ({ s with sched := s.sched.taskRunLeave tid rc false }.setPc th (.ran sid))
  | finish {th : ThreadId} {sid : SessionId} (hpc : s.pc th = .ran sid) :
      Step s (.finish th) ({ s with sched := s.sched.sessionRunLeave sid }.setPc th .idle)
  | close (c : ChannelId) : Step s (.close c) (s.close c)

theorem step_cases {s next : State} {a : Label} (h : s.step a = some next) : Step s a next := by
  cases a with
  | newTask sid =>
      cases h
      exact .newTask sid
  | gcTask tid =>
      cases h
      exact .gcTask tid
  | queueTask tid withMessage =>
      cases withMessage <;> cases h
      · exact .queueTask tid
      · exact .queueMessage tid
  | refuse tid =>
      simp only [State.step] at h
      split at h <;> cases h
      exact .refuse (Bool.eq_false_iff.mpr ‹_›)
  | take th =>
      simp only [State.step] at h
      split at h
      · rename_i sid pool hpc hpop
        cases h
        refine .take hpc ?_
        cases hpool : s.sched.pool with
        | nil => simp [hpool, queuePop] at hpop
        | cons first others => simpa [hpool, queuePop] using hpop
      · cases h
  | enter th =>
      simp only [State.step] at h
      split at h
      · rename_i sid hpc
        split at h
        · rename_i hbusy
          cases h
          exact .enterBusy hpc hbusy
        · rename_i sched job henter
          cases h
          exact .enter hpc henter
      · cases h
  | taskRun th =>
      simp only [State.step] at h
      split at h
      · cases h
        exact .runNone ‹_›
      · cases h
        exact .run ‹_›
      · cases h
  | luac th c writes =>
      simp only [State.step] at h
      split at h
      · cases h
        exact .luacTask c writes ‹_› ‹_›
      · cases h
        exact .luacPlain c writes ‹_›
      · cases h
  | test th =>
      simp only [State.step] at h
      split at h
      · rename_i f c op hpc
        split at h <;> cases h
        · exact .testClosed hpc ‹_›
        · exact .test hpc ‹_›
      · cases h
  | locked th =>
      simp only [State.step] at h
      split at h
      · rename_i f c op hpc
        obtain ⟨⟨ch, full, calls⟩, hsection, rfl⟩ := Option.map_eq_some_iff.mp h
        exact .locked hpc hsection
      · cases h
  | callback th =>
      simp only [State.step] at h
      split at h
      · cases h
        exact .callback ‹_›
      · cases h
  | queue th =>
      simp only [State.step] at h
      split at h
      · cases h
        exact .queue ‹_›
      · cases h
  | leave th =>
      simp only [State.step] at h
      split at h
      · cases h
        exact .leaveTask ‹_›
      · cases h
        exact .leavePlain ‹_›
      · cases h
  | wake th =>
      simp only [State.step] at h
      split at h
      · split at h <;> cases h
        exact .wake ‹_›
      · cases h
  | yielded th rc =>
      simp only [State.step] at h
      split at h
      · split at h <;> cases h
        exact .yielded ‹_› ‹_›
      · cases h
  | ended th rc =>
      simp only [State.step] at h
      split at h
      · cases h
        exact .ended ‹_›
      · cases h
  | finish th =>
      simp only [State.step] at h
      split at h
      · cases h
        exact .finish ‹_›
      · cases h
  | close c =>
      cases h
      exact .close c

end Casting.Runtime
