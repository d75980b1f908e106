import Casting.Channel.Operations
import Mathlib.Logic.Function.Basic

/-!
# Sessions, tasks and messages at run time

The shared state of `lc_session.c`, `lc_task.c`, `lc_channel.c` and `message.c` and the
functions that read and write it under one lock.  Identifiers are the `double` counters of the
source, taken as naturals; a session stays referenced for the whole run.
-/

namespace Casting.Runtime

abbrev SessionId := Nat
abbrev TaskId := Nat
abbrev ChannelId := Nat
abbrev ThreadId := Nat
abbrev MessageId := Nat

/-- The calls of `luac_read` and `luac_write` that are made outside any task, numbered. -/
abbrev FrameId := Nat

/-- `status_t`. -/
inductive Status
  | ready
  | running
  | suspended
  | finished
  | error
  deriving DecidableEq, Repr

/-- `job_t` of `lc_session.c`. -/
structure Job where
  tid : TaskId
  message : Option MessageId
  deriving DecidableEq, Repr

/-- `session_t`, with the history of the jobs it accepted and of those it popped. -/
structure Session where
  status : Status
  sem : Nat
  tasks : Queue Job
  accepted : List Job
  popped : List Job
  deriving DecidableEq, Repr

/-- `task_t`.  `inChannel` tells how the coroutine `t->L` was last suspended: by `luac_read` or
`luac_write`, or otherwise. -/
structure Task where
  sid : SessionId
  refCount : Nat
  status : Status
  inChannel : Bool
  deriving DecidableEq, Repr

/-- The result codes of `lua_resume`. -/
inductive LuaResult
  | ok
  | yield
  | errRun
  | errMem
  | errErr
  deriving DecidableEq, Repr

/-- What `task_run` does before it resumes anything: it finds no task, changes the status only,
or goes on to `lua_resume`. -/
inductive Entry
  | gone
  | skipped
  | resumed
  deriving DecidableEq, Repr

/-- The sessions, the task table with its `++next` counter, and the `session_thread` entries in
the job queue of the thread pool. -/
structure Scheduler where
  sessions : SessionId → Session
  tasks : TaskId → Option Task
  nextTask : TaskId
  pool : Queue SessionId

namespace Scheduler

def setSession (sc : Scheduler) (sid : SessionId) (s : Session) : Scheduler :=
  { sc with sessions := Function.update sc.sessions sid s }

def setTask (sc : Scheduler) (tid : TaskId) (t : Option Task) : Scheduler :=
  { sc with tasks := Function.update sc.tasks tid t }

/-- `lc_threadpool_run(pool, session_thread, psid)`. -/
def submit (sc : Scheduler) (sid : SessionId) : Scheduler :=
  { sc with pool := queuePush sc.pool sid }

def taskNew (sc : Scheduler) (sid : SessionId) : Scheduler :=
  { sc.setTask sc.nextTask (some ⟨sid, 1, .ready, false⟩) with nextTask := sc.nextTask + 1 }

def taskFree (sc : Scheduler) (tid : TaskId) : Scheduler :=
  match sc.tasks tid with
  | none => sc
  | some t =>
      if 1 < t.refCount then sc.setTask tid (some { t with refCount := t.refCount - 1 })
      else sc.setTask tid none

/-- `task_run` up to `lua_resume`, or to its end where nothing is resumed. -/
def taskRunEnter (sc : Scheduler) (job : Job) : Entry × Scheduler :=
  match sc.tasks job.tid with
  | none => (.gone, sc)
  | some t =>
      let skipped := sc.setTask job.tid (some { t with status := .finished })
      let resumed := sc.setTask job.tid
        (some { t with status := .running, refCount := t.refCount + 1 })
      match t.status with
      | .ready => if job.message.isNone then (.skipped, skipped) else (.resumed, resumed)
      | .suspended => (.resumed, resumed)
      | _ => (.skipped, skipped)

/-- `task_run` after `lua_resume`. -/
def taskRunLeave (sc : Scheduler) (tid : TaskId) (rc : LuaResult) (inChannel : Bool) :
    Scheduler :=
  match sc.tasks tid with
  | none => sc
  | some t =>
      let status :=
        match rc with
        | .errRun => .error
        | .yield => .suspended
        | .ok => .finished
        | _ => t.status
      (sc.setTask tid (some { t with status := status, inChannel := inChannel })).taskFree tid

def sessionQueueTask (sc : Scheduler) (job : Job) : Scheduler :=
  match sc.tasks job.tid with
  | none => sc
  | some t =>
      let s := sc.sessions t.sid
      let queued := sc.setSession t.sid
        { s with tasks := queuePush s.tasks job, accepted := s.accepted ++ [job] }
      if s.status = .ready then queued.submit t.sid else queued

/-- The test of `task_resume`: whether it goes on to `session_queue_task`. -/
def taskResumable (sc : Scheduler) (tid : TaskId) : Bool :=
  match sc.tasks tid with
  | none => false
  | some t => t.status ≠ .finished ∧ t.status ≠ .error

/-- The first locked section of `session_run`; `none` is the early return of a session that is
already running. -/
def sessionRunEnter (sc : Scheduler) (sid : SessionId) : Option (Scheduler × Option Job) :=
  let s := sc.sessions sid
  if s.status = .running then none
  else
    let (job, tasks) := queuePop s.tasks
    some (sc.setSession sid { s with status := .running, tasks := tasks,
                                     popped := s.popped ++ job.toList }, job)

/-- The second locked section of `session_run`. -/
def sessionRunLeave (sc : Scheduler) (sid : SessionId) : Scheduler :=
  let s := sc.sessions sid
  if queueSize s.tasks = 0 then
    sc.setSession sid { s with status := .ready, sem := s.sem + 1 }
  else
    (sc.setSession sid { s with status := .ready }).submit sid

end Scheduler

/-- The counters of one `message_t`: `ref_count`, the references taken by `msg_new` and
`msg_ref`, and the calls of `msg_destroy`. -/
structure MessageRecord where
  refCount : Int
  taken : Nat
  destroys : Nat
  deriving DecidableEq, Repr

structure MessageStore where
  records : MessageId → MessageRecord
  next : MessageId

namespace MessageStore

/-- `msg_new`. -/
def msgNew (st : MessageStore) : MessageId × MessageStore :=
  (st.next, ⟨Function.update st.records st.next ⟨1, 1, 0⟩, st.next + 1⟩)

/-- `msg_destroy`; a null message is `ERR_INVAL`. -/
def msgDestroy (st : MessageStore) : Option MessageId → MessageStore
  | none => st
  | some m =>
      let r := st.records m
      { st with records :=
          Function.update st.records m ⟨r.refCount - 1, r.taken, r.destroys + 1⟩ }

end MessageStore

/-- A `channel_callback` with its data: `task_callback` with a task id, or `session_callback`
with the `session_cb` on the stack of a call made outside any task. -/
inductive Waiter
  | task (tid : TaskId)
  | session (frame : FrameId)
  deriving DecidableEq, Repr

/-- `session_cb`: the semaphore, and the messages that `session_callback` decoded.  It lives on the
stack of its call, and is dead when the call has returned. -/
structure SessionCb where
  sem : Nat
  decoded : List MessageId
  deriving DecidableEq, Repr

/-- Who called `luac_read` or `luac_write`: task `tid` run by `session_run(sid)`, for which
`task_current()` returned `current`, or plain Lua code. -/
inductive CallFrame
  | task (sid : SessionId) (tid : TaskId) (current : TaskId)
  | plain (frame : FrameId)
  deriving DecidableEq, Repr

def CallFrame.waiter : CallFrame → Waiter
  | .task _ _ current => .task current
  | .plain frame => .session frame

inductive Operation
  | write (m : MessageId)
  | read
  deriving DecidableEq, Repr

abbrev Callback := Invocation Waiter MessageId

/-- Where an OS thread is between two of its steps. -/
inductive Pc
  /-- outside every function modelled here -/
  | idle
  /-- `session_thread` has taken an entry; before the first locked section of `session_run` -/
  | entered (sid : SessionId)
  /-- after the first locked section; before `task_run` -/
  | popped (sid : SessionId) (job : Option Job)
  /-- in `lua_resume` -/
  | inTask (sid : SessionId) (tid : TaskId)
  /-- before the status test of `channel_read` or `channel_write` -/
  | testing (f : CallFrame) (c : ChannelId) (op : Operation)
  /-- before their locked section -/
  | locking (f : CallFrame) (c : ChannelId) (op : Operation)
  /-- with these callbacks still to make; `full` is `rc == ERR_FULL` -/
  | calling (f : CallFrame) (full : Bool) (calls : List Callback)
  /-- in a `task_callback`, past the test of `task_resume`; `release` is still to be destroyed -/
  | queueing (f : CallFrame) (full : Bool) (job : Job) (release : Option MessageId)
      (calls : List Callback)
  /-- in the `lc_sem_wait` of a call made outside any task -/
  | waiting (frame : FrameId)
  /-- in `task_yield(current)` -/
  | yielding (sid : SessionId) (tid : TaskId) (current : TaskId)
  /-- after `task_run`; before the second locked section of `session_run` -/
  | ran (sid : SessionId)
  deriving DecidableEq, Repr

/-- An OS thread, with the task id stored under `task_key`. -/
structure Thread where
  pc : Pc
  taskKey : Option TaskId
  deriving DecidableEq, Repr

structure State where
  sched : Scheduler
  channels : ChannelId → Channel Waiter MessageId
  store : MessageStore
  threads : ThreadId → Thread
  frames : FrameId → SessionCb
  nextFrame : FrameId

namespace State

/-- Before any task or message exists; the channels are given by their sizes. -/
def start (size : ChannelId → Int) : State where
  sched := ⟨fun _ => ⟨.ready, 0, queueNew, [], []⟩, fun _ => none, 1, queueNew⟩
  channels c := channelNew (size c)
  store := ⟨fun _ => ⟨0, 0, 0⟩, 0⟩
  threads _ := ⟨.idle, none⟩
  frames _ := ⟨0, []⟩
  nextFrame := 0

def setPc (s : State) (th : ThreadId) (pc : Pc) : State :=
  { s with threads := Function.update s.threads th { s.threads th with pc := pc } }

def setChannel (s : State) (c : ChannelId) (ch : Channel Waiter MessageId) : State :=
  { s with channels := Function.update s.channels c ch }

def pc (s : State) (th : ThreadId) : Pc := (s.threads th).pc

/-- `task_set_current`: an id that is already stored is not replaced. -/
def taskSetCurrent (s : State) (th : ThreadId) (tid : TaskId) : State :=
  match (s.threads th).taskKey with
  | none =>
      { s with threads := Function.update s.threads th { s.threads th with taskKey := some tid } }
  | some _ => s

/-- `session_callback` on the `session_cb` of a call made outside any task. -/
def sessionCallback (s : State) (frame : FrameId) (m : Option MessageId) : State :=
  let cb := s.frames frame
  { s with frames :=
      Function.update s.frames frame { sem := cb.sem + 1, decoded := cb.decoded ++ m.toList } }

@[simp]
theorem pc_setPc (s : State) (th : ThreadId) (p : Pc) :
    (s.setPc th p).pc = Function.update s.pc th p := by
  funext other
  by_cases h : other = th
  · subst h
    simp [pc, setPc]
  · simp [pc, setPc, h]

@[simp]
theorem pc_taskSetCurrent (s : State) (th : ThreadId) (tid : TaskId) :
    (s.taskSetCurrent th tid).pc = s.pc := by
  funext other
  unfold taskSetCurrent
  split
  · by_cases h : other = th
    · subst h
      simp [pc]
    · simp [pc, h]
  · rfl

@[simp]
theorem sched_taskSetCurrent (s : State) (th : ThreadId) (tid : TaskId) :
    (s.taskSetCurrent th tid).sched = s.sched := by
  unfold taskSetCurrent
  split <;> rfl

@[simp]
theorem store_taskSetCurrent (s : State) (th : ThreadId) (tid : TaskId) :
    (s.taskSetCurrent th tid).store = s.store := by
  unfold taskSetCurrent
  split <;> rfl

@[simp]
theorem channels_taskSetCurrent (s : State) (th : ThreadId) (tid : TaskId) :
    (s.taskSetCurrent th tid).channels = s.channels := by
  unfold taskSetCurrent
  split <;> rfl

section

variable (s : State) (th : ThreadId) (p : Pc) (c : ChannelId) (ch : Channel Waiter MessageId)
  (frame : FrameId) (m : Option MessageId)

@[simp] theorem sched_setPc : (s.setPc th p).sched = s.sched := rfl
@[simp] theorem store_setPc : (s.setPc th p).store = s.store := rfl
@[simp] theorem channels_setPc : (s.setPc th p).channels = s.channels := rfl
@[simp] theorem sched_setChannel : (s.setChannel c ch).sched = s.sched := rfl
@[simp] theorem store_setChannel : (s.setChannel c ch).store = s.store := rfl
@[simp] theorem pc_setChannel : (s.setChannel c ch).pc = s.pc := rfl
@[simp] theorem channels_setChannel :
    (s.setChannel c ch).channels = Function.update s.channels c ch := rfl
@[simp] theorem sched_sessionCallback : (s.sessionCallback frame m).sched = s.sched := rfl
@[simp] theorem store_sessionCallback : (s.sessionCallback frame m).store = s.store := rfl
@[simp] theorem pc_sessionCallback : (s.sessionCallback frame m).pc = s.pc := rfl
@[simp] theorem channels_sessionCallback :
    (s.sessionCallback frame m).channels = s.channels := rfl

end

end State

end Casting.Runtime
