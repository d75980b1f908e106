import Casting.Framework.Refinement
import Casting.Map.Counted
import Casting.Runtime.Exclusion

/-!
# The scheduler over its tables

The functions of `lc_task.c` and `lc_session.c` on the two maps that they keep, with every
reference that they take to a record and give back.  They answer as the functions of the
scheduler do, in which a table is a function of the ids.
-/

namespace Casting.Runtime

open RefCount Refinement

/-- The fields of a `task_t` besides its id and its reference count. -/
structure TaskFields where
  sid : SessionId
  status : Status
  inChannel : Bool
  deriving DecidableEq, Repr

instance : Inhabited TaskFields := ⟨⟨0, .ready, false⟩⟩

/-- The fields that `session_new` sets. -/
def Session.new : Session := ⟨.ready, 0, queueNew, [], []⟩

instance : Inhabited Session := ⟨Session.new⟩

/-- The status after `lua_resume`. -/
def Status.after (status : Status) : LuaResult → Status
  | .errRun => .error
  | .yield => .suspended
  | .ok => .finished
  | _ => status

/-- `tasks` of `lc_task.c`, `sessions` of `lc_session.c`, and the entries of the thread pool. -/
structure Tables where
  tasks : Table TaskFields
  sessions : Table Session
  pool : Queue SessionId

namespace Tables

def start (narrow : ℕ → ℤ) : Tables := ⟨Table.start narrow, Table.start narrow, queueNew⟩

def taskRef (tb : Tables) (tid : TaskId) : Tables × Option (Counted TaskFields) :=
  let (tasks, t) := tb.tasks.ref tid
  ({ tb with tasks := tasks }, t)

def taskFree (tb : Tables) (tid : TaskId) : Option Tables :=
  (tb.tasks.free tid).map fun (tasks, _) => { tb with tasks := tasks }

def sessionRef (tb : Tables) (sid : SessionId) : Tables × Option (Counted Session) :=
  let (sessions, s) := tb.sessions.ref sid
  ({ tb with sessions := sessions }, s)

def sessionFree (tb : Tables) (sid : SessionId) : Option Tables :=
  (tb.sessions.free sid).map fun (sessions, _) => { tb with sessions := sessions }

def assignTask (tb : Tables) (t : Counted TaskFields) : Tables :=
  { tb with tasks := { tb.tasks with map := tb.tasks.map.assign t } }

def assignSession (tb : Tables) (s : Counted Session) : Tables :=
  { tb with sessions := { tb.sessions with map := tb.sessions.map.assign s } }

def submit (tb : Tables) (sid : SessionId) : Tables := { tb with pool := queuePush tb.pool sid }

def sessionNew (tb : Tables) : Option (Tables × SessionId) :=
  (tb.sessions.create true .new).map fun (sessions, sid) => ({ tb with sessions := sessions }, sid)

def taskNew (tb : Tables) (sid : SessionId) : Option (Tables × TaskId) :=
  (tb.tasks.create true ⟨sid, .ready, false⟩).map fun (tasks, tid) =>
    ({ tb with tasks := tasks }, tid)

/-- `task_run` up to `lua_resume`, or to its end where nothing is resumed. -/
def taskRunEnter (tb : Tables) (job : Job) : Option (Tables × Entry) :=
  match tb.taskRef job.tid with
  | (tb, none) => some (tb, .gone)
  | (tb, some t) =>
      let skipped := ((tb.assignTask { t with body.status := .finished }).taskFree job.tid).map
        fun tb => (tb, Entry.skipped)
      let resumed := some (tb.assignTask { t with body.status := .running }, Entry.resumed)
      match t.body.status with
      | .ready => if job.message.isNone then skipped else resumed
      | .suspended => resumed
      | _ => skipped

/-- `task_run` after `lua_resume`. -/
def taskRunLeave (tb : Tables) (tid : TaskId) (rc : LuaResult) (inChannel : Bool) :
    Option Tables :=
  match tb.tasks.find tid with
  | none => some tb
  | some t =>
      (tb.assignTask { t with body.status := t.body.status.after rc
                              body.inChannel := inChannel }).taskFree tid

/-- `task_resume` up to its test of the status. -/
def taskResumable (tb : Tables) (tid : TaskId) : Option (Tables × Bool) :=
  match tb.taskRef tid with
  | (tb, none) => some (tb, false)
  | (tb, some t) =>
      let status := t.body.status
      (tb.taskFree tid).map fun tb => (tb, decide (status ≠ .finished ∧ status ≠ .error))

/-- The flag tells whether `session_queue_task` returns `SUCCESS`. -/
def sessionQueueTask (tb : Tables) (job : Job) : Option (Tables × Bool) :=
  match tb.taskRef job.tid with
  | (tb, none) => some (tb, false)
  | (tb, some t) =>
      let sid := t.body.sid
      let (tb, found) := tb.sessionRef sid
      (tb.taskFree job.tid).bind fun tb =>
        match found with
        | none => some (tb, false)
        | some s =>
            let tb := tb.assignSession { s with body.tasks := queuePush s.body.tasks job
                                                body.accepted := s.body.accepted ++ [job] }
            let tb := if s.body.status = .ready then tb.submit sid else tb
            (tb.sessionFree sid).map fun tb => (tb, true)

/-- `session_run` up to the end of its first locked section; `none` is an early return. -/
def sessionRunEnter (tb : Tables) (sid : SessionId) : Option (Tables × Option (Option Job)) :=
  match tb.sessionRef sid with
  | (tb, none) => some (tb, none)
  | (tb, some s) =>
      if s.body.status = .running then (tb.sessionFree sid).map fun tb => (tb, none)
      else
        let (job, tasks) := queuePop s.body.tasks
        some (tb.assignSession { s with body.status := .running
                                        body.tasks := tasks
                                        body.popped := s.body.popped ++ job.toList }, some job)

/-- `session_run` from its second locked section on. -/
def sessionRunLeave (tb : Tables) (sid : SessionId) : Option Tables :=
  match tb.sessions.find sid with
  | none => some tb
  | some s =>
      let tb :=
        if queueSize s.body.tasks = 0 then
          tb.assignSession { s with body.status := .ready, body.sem := s.body.sem + 1 }
        else (tb.assignSession { s with body.status := .ready }).submit sid
      tb.sessionFree sid

end Tables

/-! ### Calls -/

inductive SchedulerCall
  | sessionNew
  | taskNew (sid : SessionId)
  | taskFree (tid : TaskId)
  | taskRunEnter (job : Job)
  | taskRunLeave (tid : TaskId) (rc : LuaResult) (inChannel : Bool)
  | taskResumable (tid : TaskId)
  | sessionQueueTask (job : Job)
  | take
  | sessionRunEnter (sid : SessionId)
  | sessionRunLeave (sid : SessionId)
  deriving DecidableEq, Repr

inductive SchedulerReply
  | done
  | created (id : ℕ)
  | entered (entry : Entry)
  | answered (answer : Bool)
  | taken (sid : SessionId)
  | popped (job : Option (Option Job))
  deriving DecidableEq, Repr

/-- A call on the tables; only an entry that there is can be taken from the pool. -/
def Tables.call (tb : Tables) : SchedulerCall → Option (Tables × SchedulerReply)
  | .sessionNew => tb.sessionNew.map fun (tb, sid) => (tb, .created sid)
  | .taskNew sid => (tb.taskNew sid).map fun (tb, tid) => (tb, .created tid)
  | .taskFree tid => (tb.taskFree tid).map fun tb => (tb, .done)
  | .taskRunEnter job => (tb.taskRunEnter job).map fun (tb, entry) => (tb, .entered entry)
  | .taskRunLeave tid rc inChannel =>
      (tb.taskRunLeave tid rc inChannel).map fun tb => (tb, .done)
  | .taskResumable tid => (tb.taskResumable tid).map fun (tb, answer) => (tb, .answered answer)
  | .sessionQueueTask job => (tb.sessionQueueTask job).map fun (tb, found) => (tb, .answered found)
  | .take =>
      match queuePop tb.pool with
      | (some sid, pool) => some ({ tb with pool := pool }, .taken sid)
      | (none, _) => none
  | .sessionRunEnter sid => (tb.sessionRunEnter sid).map fun (tb, job) => (tb, .popped job)
  | .sessionRunLeave sid => (tb.sessionRunLeave sid).map fun tb => (tb, .done)

/-- The scheduler, and how many sessions were created. -/
structure Numbered where
  sched : Scheduler
  sessions : ℕ

namespace Numbered

def start : Numbered := ⟨(State.start fun _ => 0).sched, 0⟩

/-- The same call on the scheduler, in which a session is there from the start. -/
def call (n : Numbered) : SchedulerCall → Option (Numbered × SchedulerReply)
  | .sessionNew => some ({ n with sessions := n.sessions + 1 }, .created (n.sessions + 1))
  | .taskNew sid => some ({ n with sched := n.sched.taskNew sid }, .created n.sched.nextTask)
  | .taskFree tid => some ({ n with sched := n.sched.taskFree tid }, .done)
  | .taskRunEnter job =>
      some ({ n with sched := (n.sched.taskRunEnter job).2 }, .entered (n.sched.taskRunEnter job).1)
  | .taskRunLeave tid rc inChannel =>
      some ({ n with sched := n.sched.taskRunLeave tid rc inChannel }, .done)
  | .taskResumable tid => some (n, .answered (n.sched.taskResumable tid))
  | .sessionQueueTask job =>
      some ({ n with sched := n.sched.sessionQueueTask job },
        .answered (n.sched.tasks job.tid).isSome)
  | .take =>
      match queuePop n.sched.pool with
      | (some sid, pool) => some ({ n with sched := { n.sched with pool := pool } }, .taken sid)
      | (none, _) => none
  | .sessionRunEnter sid =>
      match n.sched.sessionRunEnter sid with
      | none => some (n, .popped none)
      | some (sched, job) => some ({ n with sched := sched }, .popped (some job))
  | .sessionRunLeave sid => some ({ n with sched := n.sched.sessionRunLeave sid }, .done)

def Issued (n : Numbered) (sid : SessionId) : Prop := 0 < sid ∧ sid ≤ n.sessions

/-- An `int` can hold the id, and another reference can be counted. -/
def Countable (n : Numbered) (tid : TaskId) : Prop :=
  tid ≤ maxCount ∧ ∀ t ∈ n.sched.tasks tid, t.refCount < maxCount

/-- Ids stay within an `int` and no count overflows; sessions are those that were created, and
only a session that runs is left. -/
def InRange (n : Numbered) : SchedulerCall → Prop
  | .sessionNew => n.sessions < maxCount
  | .taskNew sid => n.Issued sid ∧ n.sched.nextTask ≤ maxCount
  | .taskFree tid | .taskRunLeave tid _ _ => tid ≤ maxCount
  | .taskRunEnter job | .sessionQueueTask job => n.Countable job.tid
  | .taskResumable tid => n.Countable tid
  | .take => n.sched.pool ≠ []
  | .sessionRunEnter sid => n.Issued sid
  | .sessionRunLeave sid => n.Issued sid ∧ (n.sched.sessions sid).status = .running

end Numbered

/-! ### What the tables hold -/

def Task.record (tid : TaskId) (t : Task) : Counted TaskFields :=
  ⟨tid, t.refCount, ⟨t.sid, t.status, t.inChannel⟩⟩

def Task.held (tid : TaskId) (t : Task) : Counted TaskFields :=
  ⟨tid, inc t.refCount, ⟨t.sid, t.status, t.inChannel⟩⟩

def Scheduler.taskRecords (sc : Scheduler) (tid : TaskId) : Option (Counted TaskFields) :=
  (sc.tasks tid).map (Task.record tid)

/-- Besides its handle, a `session_run` in progress has a reference to a session. -/
def Session.record (sid : SessionId) (s : Session) : Counted Session :=
  ⟨sid, if s.status = .running then 2 else 1, s⟩

def Numbered.sessionRecords (n : Numbered) (sid : SessionId) : Option (Counted Session) :=
  if 0 < sid ∧ sid ≤ n.sessions then some ((n.sched.sessions sid).record sid) else none

namespace Tables

variable {narrow : ℕ → ℤ} {tb : Tables} {g : ℕ → Option (Counted TaskFields)}
  {h : ℕ → Option (Counted Session)} {pool : Queue SessionId} {nt ns : ℕ}

/-- The records of the two tables, the entries, and the last ids. -/
structure Holds (narrow : ℕ → ℤ) (tb : Tables) (g : ℕ → Option (Counted TaskFields))
    (h : ℕ → Option (Counted Session)) (pool : Queue SessionId) (nt ns : ℕ) : Prop where
  tasks : tb.tasks.Holds narrow g
  sessions : tb.sessions.Holds narrow h
  pool : tb.pool = pool
  nextTask : tb.tasks.next = nt
  nextSession : tb.sessions.next = ns

section Primitives

variable {tid : TaskId} {sid : SessionId} {t u : Counted TaskFields} {s v : Counted Session}

theorem Holds.taskRef_none (hb : tb.Holds narrow g h pool nt ns) (hnarrow : Narrows narrow)
    (hid : tid ≤ maxCount) (hg : g tid = none) : tb.taskRef tid = (tb, none) := by
  rcases hb.tasks.ref hnarrow hid with ⟨_, href⟩ | ⟨t, _, hg', _⟩
  · rw [taskRef, href]
  · rw [hg] at hg'
    cases hg'

theorem Holds.taskRef (hb : tb.Holds narrow g h pool nt ns) (hnarrow : Narrows narrow)
    (hg : g tid = some t) :
    ∃ tb', tb.taskRef tid = (tb', some { t with refCount := inc t.refCount })
      ∧ tb'.Holds narrow (Function.update g tid (some { t with refCount := inc t.refCount })) h
        pool nt ns := by
  have hid : tid ≤ maxCount := Nat.le_trans (hb.tasks.ids tid t hg).2.2 hb.tasks.next
  rcases hb.tasks.ref hnarrow hid with ⟨hnone, _⟩ | ⟨t', tasks, hg', href, hnext, hholds⟩
  · rw [hg] at hnone
    cases hnone
  · rw [hg] at hg'
    cases hg'
    refine ⟨{ tb with tasks := tasks }, by rw [Tables.taskRef, href], hholds, hb.sessions, hb.pool,
      hnext.trans hb.nextTask, hb.nextSession⟩

theorem Holds.taskFree (hb : tb.Holds narrow g h pool nt ns) (hnarrow : Narrows narrow)
    (hg : g tid = some t) : ∃ tb', tb.taskFree tid = some tb' ∧
      tb'.Holds narrow (Function.update g tid (afterFree t)) h pool nt ns := by
  have hid : tid ≤ maxCount := Nat.le_trans (hb.tasks.ids tid t hg).2.2 hb.tasks.next
  rcases hb.tasks.free hnarrow hid with ⟨hnone, _⟩ | ⟨t', tasks, hg', hfree, hnext, hholds⟩
  · rw [hg] at hnone
    cases hnone
  · rw [hg] at hg'
    cases hg'
    refine ⟨{ tb with tasks := tasks }, by rw [Tables.taskFree, hfree]; rfl, hholds, hb.sessions,
      hb.pool, hnext.trans hb.nextTask, hb.nextSession⟩

theorem Holds.assignTask (hb : tb.Holds narrow g h pool nt ns) (hnarrow : Narrows narrow)
    (hg : g tid = some t) (hu : u.id = tid) :
    (tb.assignTask u).Holds narrow (Function.update g tid (some u)) h pool nt ns :=
  ⟨hb.tasks.assign hnarrow hg hu, hb.sessions, hb.pool, hb.nextTask, hb.nextSession⟩

theorem Holds.sessionRef (hb : tb.Holds narrow g h pool nt ns) (hnarrow : Narrows narrow)
    (hs : h sid = some s) :
    ∃ tb', tb.sessionRef sid = (tb', some { s with refCount := inc s.refCount }) ∧
      tb'.Holds narrow g (Function.update h sid (some { s with refCount := inc s.refCount }))
        pool nt ns := by
  have hid : sid ≤ maxCount := Nat.le_trans (hb.sessions.ids sid s hs).2.2 hb.sessions.next
  rcases hb.sessions.ref hnarrow hid with ⟨hnone, _⟩ | ⟨s', sessions, hs', href, hnext, hholds⟩
  · rw [hs] at hnone
    cases hnone
  · rw [hs] at hs'
    cases hs'
    refine ⟨{ tb with sessions := sessions }, by rw [Tables.sessionRef, href], hb.tasks, hholds,
      hb.pool, hb.nextTask, hnext.trans hb.nextSession⟩

theorem Holds.sessionFree (hb : tb.Holds narrow g h pool nt ns) (hnarrow : Narrows narrow)
    (hs : h sid = some s) : ∃ tb', tb.sessionFree sid = some tb' ∧
      tb'.Holds narrow g (Function.update h sid (afterFree s)) pool nt ns := by
  have hid : sid ≤ maxCount := Nat.le_trans (hb.sessions.ids sid s hs).2.2 hb.sessions.next
  rcases hb.sessions.free hnarrow hid with ⟨hnone, _⟩ | ⟨s', sessions, hs', hfree, hnext, hholds⟩
  · rw [hs] at hnone
    cases hnone
  · rw [hs] at hs'
    cases hs'
    refine ⟨{ tb with sessions := sessions }, by rw [Tables.sessionFree, hfree]; rfl, hb.tasks,
      hholds, hb.pool, hb.nextTask, hnext.trans hb.nextSession⟩

theorem Holds.assignSession (hb : tb.Holds narrow g h pool nt ns) (hnarrow : Narrows narrow)
    (hs : h sid = some s) (hu : v.id = sid) :
    (tb.assignSession v).Holds narrow g (Function.update h sid (some v)) pool nt ns :=
  ⟨hb.tasks, hb.sessions.assign hnarrow hs hu, hb.pool, hb.nextTask, hb.nextSession⟩

theorem Holds.submit (hb : tb.Holds narrow g h pool nt ns) (sid : SessionId) :
    (tb.submit sid).Holds narrow g h (queuePush pool sid) nt ns :=
  ⟨hb.tasks, hb.sessions, by rw [← hb.pool]; rfl, hb.nextTask, hb.nextSession⟩

end Primitives

theorem afterFree_inc {α : Type*} {t : Counted α} {n : ℕ} (hcount : t.refCount = n) (hpos : 0 < n)
    (hmax : n < maxCount) (body : α) :
    afterFree { t with refCount := inc t.refCount, body := body } =
      some { t with body := body } := by
  have hback : dec (inc t.refCount) = t.refCount := by
    rw [hcount, inc_of_lt hmax, dec_of_pos (Nat.succ_pos n) hmax]
    rfl
  unfold afterFree
  simp only [hback]
  rw [if_pos (by omega)]

section Returning

variable {tid : TaskId} {sid : SessionId} {t : Counted TaskFields} {s : Counted Session} {n : ℕ}

theorem Holds.returnTask {fields : TaskFields} (hb : tb.Holds narrow (Function.update g tid
    (some { t with refCount := inc t.refCount, body := fields })) h pool nt ns)
    (hnarrow : Narrows narrow) (hcount : t.refCount = n) (hpos : 0 < n) (hmax : n < maxCount) :
    ∃ tb', tb.taskFree tid = some tb' ∧
      tb'.Holds narrow (Function.update g tid (some { t with body := fields })) h pool nt ns := by
  obtain ⟨tb', hfree, hholds⟩ := hb.taskFree hnarrow (Function.update_self tid _ g)
  rw [Function.update_idem, afterFree_inc hcount hpos hmax] at hholds
  exact ⟨tb', hfree, hholds⟩

theorem Holds.returnSession {fields : Session} (hb : tb.Holds narrow g (Function.update h sid
    (some { s with refCount := inc s.refCount, body := fields })) pool nt ns)
    (hnarrow : Narrows narrow) (hcount : s.refCount = n) (hpos : 0 < n) (hmax : n < maxCount) :
    ∃ tb', tb.sessionFree sid = some tb' ∧
      tb'.Holds narrow g (Function.update h sid (some { s with body := fields })) pool nt ns := by
  obtain ⟨tb', hfree, hholds⟩ := hb.sessionFree hnarrow (Function.update_self sid _ h)
  rw [Function.update_idem, afterFree_inc hcount hpos hmax] at hholds
  exact ⟨tb', hfree, hholds⟩

end Returning

theorem afterFree_record {tid : TaskId} {t : Task} (hmax : t.refCount ≤ maxCount) :
    afterFree (t.record tid) =
      if 1 < t.refCount then some (Task.record tid { t with refCount := t.refCount - 1 })
      else none := by
  unfold afterFree Task.record
  rcases Nat.eq_zero_or_pos t.refCount with hzero | hpos
  · rw [hzero]
    rfl
  · simp only [dec_of_pos hpos hmax]
    split <;> split <;> first | rfl | omega

end Tables

open Tables

theorem Scheduler.taskRecords_setTask (sc : Scheduler) (tid : TaskId) (t : Option Task) :
    (sc.setTask tid t).taskRecords =
      Function.update sc.taskRecords tid (t.map (Task.record tid)) := by
  funext other
  by_cases hother : other = tid
  · subst hother
    simp [Scheduler.taskRecords, Scheduler.setTask]
  · simp [Scheduler.taskRecords, Scheduler.setTask, hother]

theorem Scheduler.taskRecords_eq_some {sc : Scheduler} {tid : TaskId} {t : Task}
    (ht : sc.tasks tid = some t) : sc.taskRecords tid = some (t.record tid) := by
  rw [Scheduler.taskRecords, ht, Option.map_some]

theorem Scheduler.taskRecords_eq_none {sc : Scheduler} {tid : TaskId}
    (ht : sc.tasks tid = none) : sc.taskRecords tid = none := by
  rw [Scheduler.taskRecords, ht, Option.map_none]

theorem Numbered.sessionRecords_eq_some {n : Numbered} {sid : SessionId} (hsid : n.Issued sid) :
    n.sessionRecords sid = some ((n.sched.sessions sid).record sid) := if_pos hsid

theorem Numbered.sessionRecords_setSession {n : Numbered} {sid : SessionId} (hsid : n.Issued sid)
    (s : Session) :
    Numbered.sessionRecords { n with sched := n.sched.setSession sid s } =
      Function.update n.sessionRecords sid (some (s.record sid)) := by
  funext other
  by_cases hother : other = sid
  · subst hother
    have hself := @Numbered.sessionRecords_eq_some { n with sched := n.sched.setSession other s }
      other hsid
    rw [Function.update_self, hself]
    simp [Scheduler.setSession]
  · rw [Function.update_of_ne hother]
    simp [Numbered.sessionRecords, Scheduler.setSession, hother]

/-- The tables are those of the scheduler.  Every task is referenced, and in a session that was
created. -/
structure Represents (narrow : ℕ → ℤ) (tb : Tables) (n : Numbered) : Prop where
  holds : tb.Holds narrow n.sched.taskRecords n.sessionRecords n.sched.pool (n.sched.nextTask - 1)
    n.sessions
  first : 0 < n.sched.nextTask
  referenced : ∀ tid t, n.sched.tasks tid = some t →
    0 < t.refCount ∧ t.refCount ≤ maxCount ∧ n.Issued t.sid
  fresh : ∀ sid, ¬ n.Issued sid → n.sched.sessions sid = .new

namespace Represents

variable {narrow : ℕ → ℤ} {tb tb' : Tables} {n : Numbered}

theorem start (narrow : ℕ → ℤ) : Represents narrow (Tables.start narrow) Numbered.start where
  holds := by
    have htasks : Numbered.start.sched.taskRecords = fun _ => none := rfl
    have hsessions : Numbered.start.sessionRecords = fun _ => none := by
      funext sid
      exact if_neg fun h => absurd h.1 (Nat.not_lt.mpr h.2)
    rw [htasks, hsessions]
    exact ⟨Table.start_holds narrow, Table.start_holds narrow, rfl, rfl, rfl⟩
  first := Nat.one_pos
  referenced tid t h := by cases h
  fresh _ _ := rfl

theorem setTask (hr : Represents narrow tb n) {tid : TaskId} {t : Option Task}
    (hholds : tb'.Holds narrow (Function.update n.sched.taskRecords tid (t.map (Task.record tid)))
      n.sessionRecords n.sched.pool (n.sched.nextTask - 1) n.sessions)
    (ht : ∀ u ∈ t, 0 < u.refCount ∧ u.refCount ≤ maxCount ∧ n.Issued u.sid) :
    Represents narrow tb' { n with sched := n.sched.setTask tid t } where
  holds := by
    rw [← Scheduler.taskRecords_setTask] at hholds
    exact hholds
  first := hr.first
  referenced other u hu := by
    by_cases hother : other = tid
    · subst hother
      exact ht u (by simpa [Scheduler.setTask] using hu)
    · exact hr.referenced other u (by simpa [Scheduler.setTask, hother] using hu)
  fresh := hr.fresh

theorem taskFree (hr : Represents narrow tb n) (hnarrow : Narrows narrow) {tid : TaskId}
    (htid : tid ≤ maxCount) : ∃ tb', tb.taskFree tid = some tb' ∧
      Represents narrow tb' { n with sched := n.sched.taskFree tid } := by
  cases ht : n.sched.tasks tid with
  | none =>
      have hnone := Scheduler.taskRecords_eq_none ht
      refine ⟨tb, ?_, ?_⟩
      · rcases hr.holds.tasks.free hnarrow htid with ⟨_, hfree⟩ | ⟨t, _, hg, _⟩
        · rw [Tables.taskFree, hfree]
          rfl
        · rw [hnone] at hg
          cases hg
      · simp only [Scheduler.taskFree, ht]
        exact hr
  | some t =>
      obtain ⟨hpos, hmax, hsid⟩ := hr.referenced tid t ht
      obtain ⟨tb', hfree, hholds⟩ :=
        hr.holds.taskFree hnarrow (Scheduler.taskRecords_eq_some ht)
      rw [afterFree_record hmax] at hholds
      refine ⟨tb', hfree, ?_⟩
      simp only [Scheduler.taskFree, ht]
      split at hholds
      · rename_i hmore
        rw [if_pos hmore]
        refine hr.setTask hholds ?_
        rintro u ⟨⟩
        exact ⟨Nat.sub_pos_of_lt hmore, Nat.le_trans (Nat.sub_le _ _) hmax, hsid⟩
      · rename_i hlast
        rw [if_neg hlast]
        exact hr.setTask hholds (by rintro u ⟨⟩)

theorem taskNew (hr : Represents narrow tb n) (hnarrow : Narrows narrow) {sid : SessionId}
    (hsid : n.Issued sid) (hmax : n.sched.nextTask ≤ maxCount) :
    ∃ tb', tb.taskNew sid = some (tb', n.sched.nextTask) ∧
      Represents narrow tb' { n with sched := n.sched.taskNew sid } := by
  have hlast := hr.holds.nextTask
  have hid : tb.tasks.next + 1 = n.sched.nextTask := by
    rw [hlast]
    exact Nat.succ_pred_eq_of_pos hr.first
  have hlt : tb.tasks.next < maxCount := by
    rw [Nat.lt_iff_add_one_le, hid]
    exact hmax
  obtain ⟨tasks, hcreate, hnext, hholds⟩ :=
    hr.holds.tasks.create hnarrow true ⟨sid, .ready, false⟩ hlt
  rw [hid] at hcreate hnext hholds
  refine ⟨{ tb with tasks := tasks }, by rw [Tables.taskNew, hcreate]; rfl, ?_⟩
  constructor
  · refine ⟨?_, hr.holds.sessions, hr.holds.pool, hnext, hr.holds.nextSession⟩
    have hrecords : (n.sched.taskNew sid).taskRecords =
        Function.update n.sched.taskRecords n.sched.nextTask
          (some ⟨n.sched.nextTask, 1, ⟨sid, .ready, false⟩⟩) :=
      n.sched.taskRecords_setTask n.sched.nextTask (some ⟨sid, 1, .ready, false⟩)
    change Table.Holds narrow tasks (n.sched.taskNew sid).taskRecords
    rw [hrecords]
    exact hholds
  · exact Nat.succ_pos _
  · intro tid t ht
    by_cases htid : tid = n.sched.nextTask
    · have hnew : some (Task.mk sid 1 .ready false) = some t := by
        simpa [Scheduler.taskNew, Scheduler.setTask, htid] using ht
      cases hnew
      exact ⟨Nat.one_pos, (by decide : 1 ≤ maxCount), hsid⟩
    · exact hr.referenced tid t (by simpa [Scheduler.taskNew, Scheduler.setTask, htid] using ht)
  · exact hr.fresh

theorem sessionNew (hr : Represents narrow tb n) (hnarrow : Narrows narrow)
    (hmax : n.sessions < maxCount) :
    ∃ tb', tb.sessionNew = some (tb', n.sessions + 1) ∧
      Represents narrow tb' { n with sessions := n.sessions + 1 } := by
  have hlast := hr.holds.nextSession
  obtain ⟨sessions, hcreate, hnext, hholds⟩ :=
    hr.holds.sessions.create hnarrow true .new (by rw [hlast]; exact hmax)
  rw [hlast] at hcreate hnext hholds
  refine ⟨{ tb with sessions := sessions }, by rw [Tables.sessionNew, hcreate]; rfl, ?_⟩
  have hnew : n.sched.sessions (n.sessions + 1) = .new :=
    hr.fresh _ fun h => absurd h.2 (Nat.not_le.mpr (Nat.lt_succ_self _))
  constructor
  · refine ⟨hr.holds.tasks, ?_, hr.holds.pool, hr.holds.nextTask, hnext⟩
    have hrecords : Numbered.sessionRecords { n with sessions := n.sessions + 1 } =
        Function.update n.sessionRecords (n.sessions + 1)
          (some ⟨n.sessions + 1, 1, .new⟩) := by
      funext sid
      by_cases hsid : sid = n.sessions + 1
      · rw [hsid, Function.update_self, Numbered.sessionRecords,
          if_pos ⟨Nat.succ_pos _, Nat.le_refl _⟩, hnew]
        rfl
      · have hiff : sid ≤ n.sessions + 1 ↔ sid ≤ n.sessions :=
          ⟨fun h => Nat.le_of_lt_succ (Nat.lt_of_le_of_ne h hsid), Nat.le_succ_of_le⟩
        rw [Function.update_of_ne hsid]
        simp only [Numbered.sessionRecords, hiff]
    rw [hrecords]
    exact hholds
  · exact hr.first
  · intro tid t ht
    obtain ⟨hpos, hle, hsid⟩ := hr.referenced tid t ht
    exact ⟨hpos, hle, hsid.1, Nat.le_succ_of_le hsid.2⟩
  · intro sid hsid
    exact hr.fresh sid fun h => hsid ⟨h.1, Nat.le_succ_of_le h.2⟩

theorem taskRunEnter (hr : Represents narrow tb n) (hnarrow : Narrows narrow) {job : Job}
    (hjob : n.Countable job.tid) :
    ∃ tb', tb.taskRunEnter job = some (tb', (n.sched.taskRunEnter job).1) ∧
      Represents narrow tb' { n with sched := (n.sched.taskRunEnter job).2 } := by
  cases ht : n.sched.tasks job.tid with
  | none =>
      have hnone := hr.holds.taskRef_none hnarrow hjob.1 (Scheduler.taskRecords_eq_none ht)
      refine ⟨tb, ?_, ?_⟩
      · simp only [Tables.taskRunEnter, hnone, Scheduler.taskRunEnter, ht]
      · simp only [Scheduler.taskRunEnter, ht]
        exact hr
  | some t =>
      obtain ⟨hpos, _, hsid⟩ := hr.referenced job.tid t ht
      have hmax := hjob.2 t ht
      obtain ⟨tb₁, href, hholds⟩ := hr.holds.taskRef hnarrow (Scheduler.taskRecords_eq_some ht)
      -- another status is stored while `task_run` has its reference
      have hassign : ∀ status,
          (tb₁.assignTask (Task.held job.tid { t with status := status })).Holds narrow
            (Function.update n.sched.taskRecords job.tid
              (some (Task.held job.tid { t with status := status })))
            n.sessionRecords n.sched.pool (n.sched.nextTask - 1) n.sessions := by
        intro status
        have h := hholds.assignTask (u := Task.held job.tid { t with status := status }) hnarrow
          (Function.update_self _ _ _) rfl
        rw [Function.update_idem] at h
        exact h
      have hresumed := hassign .running
      have hinc : Task.held job.tid { t with status := .running } =
          Task.record job.tid { t with status := .running, refCount := t.refCount + 1 } := by
        simp only [Task.held, Task.record, inc_of_lt hmax]
      rw [hinc] at hresumed
      have hresume := hr.setTask
        (t := some { t with status := .running, refCount := t.refCount + 1 }) hresumed (by
          rintro u ⟨⟩
          exact ⟨Nat.succ_pos _, hmax, hsid⟩)
      obtain ⟨tb₂, hfree, hskipped⟩ :=
        Holds.returnTask (t := t.record job.tid) (hassign .finished) hnarrow rfl hpos hmax
      have hskip := hr.setTask (t := some { t with status := .finished }) hskipped (by
        rintro u ⟨⟩
        exact ⟨hpos, Nat.le_of_lt hmax, hsid⟩)
      have hfinish : ((tb₁.assignTask (Task.held job.tid { t with status := .finished })).taskFree
          job.tid).map (fun tb => (tb, Entry.skipped)) = some (tb₂, .skipped) := by
        rw [hfree]
        rfl
      rw [← hinc] at hresume
      simp only [Tables.taskRunEnter, href, Scheduler.taskRunEnter, ht]
      obtain ⟨sid, count, status, inChannel⟩ := t
      cases status with
      | ready =>
          cases job.message with
          | none => exact ⟨tb₂, hfinish, hskip⟩
          | some m => exact ⟨_, rfl, hresume⟩
      | suspended => exact ⟨_, rfl, hresume⟩
      | _ => exact ⟨tb₂, hfinish, hskip⟩

theorem taskRunLeave (hr : Represents narrow tb n) (hnarrow : Narrows narrow) {tid : TaskId}
    (htid : tid ≤ maxCount) (rc : LuaResult) (inChannel : Bool) :
    ∃ tb', tb.taskRunLeave tid rc inChannel = some tb' ∧
      Represents narrow tb' { n with sched := n.sched.taskRunLeave tid rc inChannel } := by
  have hfind := hr.holds.tasks.find hnarrow htid
  cases ht : n.sched.tasks tid with
  | none =>
      rw [Scheduler.taskRecords_eq_none ht] at hfind
      simp only [Tables.taskRunLeave, hfind, Scheduler.taskRunLeave, ht]
      exact ⟨tb, rfl, hr⟩
  | some t =>
      obtain ⟨hpos, hmax, hsid⟩ := hr.referenced tid t ht
      have hrecord := Scheduler.taskRecords_eq_some ht
      rw [hrecord] at hfind
      have hleave : ∀ status, ∃ tb',
          (tb.assignTask
            (Task.record tid { t with status := status, inChannel := inChannel })).taskFree tid =
              some tb' ∧
          Represents narrow tb' { n with sched := (n.sched.setTask tid
            (some { t with status := status, inChannel := inChannel })).taskFree tid } := by
        intro status
        have hassign := hr.holds.assignTask
          (u := Task.record tid { t with status := status, inChannel := inChannel }) hnarrow hrecord
          rfl
        have hset := hr.setTask (t := some { t with status := status, inChannel := inChannel })
          hassign (by
            rintro u ⟨⟩
            exact ⟨hpos, hmax, hsid⟩)
        exact hset.taskFree hnarrow htid
      simp only [Tables.taskRunLeave, hfind, Scheduler.taskRunLeave, ht]
      cases rc <;> exact hleave _

theorem taskResumable (hr : Represents narrow tb n) (hnarrow : Narrows narrow) {tid : TaskId}
    (htid : n.Countable tid) :
    ∃ tb', tb.taskResumable tid = some (tb', n.sched.taskResumable tid) ∧
      Represents narrow tb' n := by
  cases ht : n.sched.tasks tid with
  | none =>
      have hnone := hr.holds.taskRef_none hnarrow htid.1 (Scheduler.taskRecords_eq_none ht)
      simp only [Tables.taskResumable, hnone, Scheduler.taskResumable, ht]
      exact ⟨tb, rfl, hr⟩
  | some t =>
      have hrecord := Scheduler.taskRecords_eq_some ht
      obtain ⟨tb₁, href, hholds₁⟩ := hr.holds.taskRef hnarrow hrecord
      obtain ⟨tb₂, hfree, hholds₂⟩ := hholds₁.returnTask hnarrow rfl
        (hr.referenced tid t ht).1 (htid.2 t ht)
      have hsame : Function.update n.sched.taskRecords tid (some (t.record tid)) =
          n.sched.taskRecords := by rw [← hrecord, Function.update_eq_self]
      simp only [Tables.taskResumable, href, Scheduler.taskResumable, ht]
      refine ⟨tb₂, ?_, ⟨?_, hr.first, hr.referenced, hr.fresh⟩⟩
      · rw [hfree]
        rfl
      · rw [← hsame]
        exact hholds₂

theorem setSession (hr : Represents narrow tb n) {sid : SessionId} (hsid : n.Issued sid)
    {s : Session} {pool : Queue SessionId}
    (hholds : tb'.Holds narrow n.sched.taskRecords
      (Function.update n.sessionRecords sid (some (s.record sid))) pool (n.sched.nextTask - 1)
      n.sessions) :
    Represents narrow tb' { n with sched := { n.sched.setSession sid s with pool := pool } } where
  holds := by
    rw [← Numbered.sessionRecords_setSession hsid] at hholds
    exact hholds
  first := hr.first
  referenced := hr.referenced
  fresh other hother := by
    have hne : other ≠ sid := fun heq => hother (by rw [heq]; exact hsid)
    rw [← hr.fresh other hother]
    exact Function.update_of_ne hne _ _

theorem session_refCount (sid : SessionId) (s : Session) :
    ∃ count : ℕ, (s.record sid).refCount = count ∧ 0 < count ∧ count < maxCount := by
  unfold Session.record
  by_cases hrun : s.status = .running
  · exact ⟨2, by simp [hrun], by decide, by decide⟩
  · exact ⟨1, by simp [hrun], by decide, by decide⟩

theorem sessionQueueTask (hr : Represents narrow tb n) (hnarrow : Narrows narrow) {job : Job}
    (hjob : n.Countable job.tid) :
    ∃ tb', tb.sessionQueueTask job = some (tb', (n.sched.tasks job.tid).isSome) ∧
      Represents narrow tb' { n with sched := n.sched.sessionQueueTask job } := by
  cases ht : n.sched.tasks job.tid with
  | none =>
      have hnone := hr.holds.taskRef_none hnarrow hjob.1 (Scheduler.taskRecords_eq_none ht)
      simp only [Tables.sessionQueueTask, hnone, Scheduler.sessionQueueTask, ht]
      exact ⟨tb, rfl, hr⟩
  | some t =>
      have hrecord := Scheduler.taskRecords_eq_some ht
      obtain ⟨hpos, _, hsid⟩ := hr.referenced job.tid t ht
      obtain ⟨count, hcount, hcpos, hcmax⟩ := session_refCount t.sid (n.sched.sessions t.sid)
      have hsession := Numbered.sessionRecords_eq_some hsid
      obtain ⟨tb₁, htaskRef, hholds₁⟩ := hr.holds.taskRef hnarrow hrecord
      obtain ⟨tb₂, hsessionRef, hholds₂⟩ := hholds₁.sessionRef hnarrow hsession
      obtain ⟨tb₃, htaskFree, hholds₃⟩ := hholds₂.returnTask hnarrow rfl hpos (hjob.2 t ht)
      have hsame : Function.update n.sched.taskRecords job.tid (some (t.record job.tid)) =
          n.sched.taskRecords := by rw [← hrecord, Function.update_eq_self]
      -- the job is queued while `session_queue_task` has its reference to the session
      let queued : Session :=
        { n.sched.sessions t.sid with
          tasks := queuePush (n.sched.sessions t.sid).tasks job
          accepted := (n.sched.sessions t.sid).accepted ++ [job] }
      let held : Counted Session :=
        { (n.sched.sessions t.sid).record t.sid with
          refCount := inc ((n.sched.sessions t.sid).record t.sid).refCount
          body := queued }
      have hassign := hholds₃.assignSession (v := held) hnarrow (Function.update_self _ _ _) rfl
      rw [Function.update_idem] at hassign
      change Holds narrow _ (Function.update n.sched.taskRecords job.tid (some (t.record job.tid)))
        _ _ _ _ at hassign
      rw [hsame] at hassign
      have hend : ∀ (pool : Queue SessionId) (tb₄ : Tables), tb₄.Holds narrow n.sched.taskRecords
          (Function.update n.sessionRecords t.sid (some held)) pool (n.sched.nextTask - 1)
            n.sessions →
          ∃ tb', (tb₄.sessionFree t.sid).map (fun tb => (tb, true)) = some (tb', true) ∧
            Represents narrow tb'
              { n with sched := { n.sched.setSession t.sid queued with pool := pool } } := by
        intro pool tb₄ hholds
        obtain ⟨tb₅, hfree, hlast⟩ :=
          Holds.returnSession (s := (n.sched.sessions t.sid).record t.sid) hholds hnarrow hcount
            hcpos hcmax
        exact ⟨tb₅, by rw [hfree]; rfl, hr.setSession hsid hlast⟩
      simp only [Tables.sessionQueueTask, htaskRef, Task.record, hsessionRef, htaskFree,
        Option.bind_some, Scheduler.sessionQueueTask, ht]
      change ∃ tb', ((if (n.sched.sessions t.sid).status = .ready then
        (tb₃.assignSession held).submit t.sid else tb₃.assignSession held).sessionFree t.sid).map
          (fun tb => (tb, true)) = some (tb', true) ∧ _
      by_cases hready : (n.sched.sessions t.sid).status = .ready
      · rw [if_pos hready, if_pos hready]
        exact hend _ _ (hassign.submit _)
      · rw [if_neg hready, if_neg hready]
        exact hend _ _ hassign

theorem sessionRunEnter (hr : Represents narrow tb n) (hnarrow : Narrows narrow)
    {sid : SessionId} (hsid : n.Issued sid) :
    ∃ tb' n' job, tb.sessionRunEnter sid = some (tb', job) ∧
      n.call (.sessionRunEnter sid) = some (n', .popped job) ∧ Represents narrow tb' n' := by
  have hsession := Numbered.sessionRecords_eq_some hsid
  obtain ⟨tb₁, href, hholds₁⟩ := hr.holds.sessionRef hnarrow hsession
  by_cases hrun : (n.sched.sessions sid).status = .running
  · -- the reference is given back at once
    obtain ⟨count, hcount, hpos, hmax⟩ := session_refCount sid (n.sched.sessions sid)
    obtain ⟨tb₂, hfree, hholds₂⟩ := hholds₁.returnSession hnarrow hcount hpos hmax
    have hsame : Function.update n.sessionRecords sid
        (some ((n.sched.sessions sid).record sid)) = n.sessionRecords := by
      rw [← hsession, Function.update_eq_self]
    refine ⟨tb₂, n, none, ?_, ?_, ⟨?_, hr.first, hr.referenced, hr.fresh⟩⟩
    · simp [Tables.sessionRunEnter, href, Session.record, hrun, hfree]
    · simp [Numbered.call, Scheduler.sessionRunEnter, hrun]
    · rw [← hsame]
      exact hholds₂
  · -- `session_run` keeps it
    let entered : Session :=
      { n.sched.sessions sid with
        status := .running
        tasks := (queuePop (n.sched.sessions sid).tasks).2
        popped := (n.sched.sessions sid).popped ++
          (queuePop (n.sched.sessions sid).tasks).1.toList }
    have hheld : ({ (n.sched.sessions sid).record sid with
        refCount := inc ((n.sched.sessions sid).record sid).refCount
        body := entered } : Counted Session) = entered.record sid := by
      have hone : ((n.sched.sessions sid).record sid).refCount = 1 := if_neg hrun
      rw [hone]
      rfl
    have hassign := hholds₁.assignSession (v := entered.record sid) hnarrow
      (Function.update_self _ _ _) rfl
    rw [Function.update_idem] at hassign
    refine ⟨tb₁.assignSession (entered.record sid), _,
      some (queuePop (n.sched.sessions sid).tasks).1, ?_, ?_, hr.setSession hsid hassign⟩
    · rw [← hheld]
      simp only [Tables.sessionRunEnter, href]
      exact if_neg hrun
    · simp only [Numbered.call, Scheduler.sessionRunEnter, if_neg hrun]
      rfl

theorem sessionRunLeave (hr : Represents narrow tb n) (hnarrow : Narrows narrow)
    {sid : SessionId} (hsid : n.Issued sid) (hrun : (n.sched.sessions sid).status = .running) :
    ∃ tb', tb.sessionRunLeave sid = some tb' ∧
      Represents narrow tb' { n with sched := n.sched.sessionRunLeave sid } := by
  have hsession := Numbered.sessionRecords_eq_some hsid
  have hmax : sid ≤ maxCount := by
    have hlast := hr.holds.sessions.next
    rw [hr.holds.nextSession] at hlast
    exact Nat.le_trans hsid.2 hlast
  have hfind := hr.holds.sessions.find hnarrow hmax
  rw [hsession] at hfind
  have htwo : ((n.sched.sessions sid).record sid).refCount = 2 := if_pos hrun
  -- the status is stored, and then the reference is given back
  have hend : ∀ (ready : Session) (pool : Queue SessionId) (tb₁ : Tables), ready.status = .ready →
      tb₁.Holds narrow n.sched.taskRecords (Function.update n.sessionRecords sid
        (some { (n.sched.sessions sid).record sid with body := ready })) pool
          (n.sched.nextTask - 1) n.sessions →
      ∃ tb', tb₁.sessionFree sid = some tb' ∧ Represents narrow tb'
        { n with sched := { n.sched.setSession sid ready with pool := pool } } := by
    intro ready pool tb₁ hready hholds
    obtain ⟨tb', hfree, hlast⟩ := hholds.sessionFree hnarrow (Function.update_self _ _ _)
    have hafter : afterFree { (n.sched.sessions sid).record sid with body := ready } =
        some (ready.record sid) := by
      rw [afterFree, htwo, Session.record, Session.record, hready]
      rfl
    rw [Function.update_idem, hafter] at hlast
    exact ⟨tb', hfree, hr.setSession hsid hlast⟩
  have hassign : ∀ ready : Session, (tb.assignSession
      { (n.sched.sessions sid).record sid with body := ready }).Holds narrow n.sched.taskRecords
        (Function.update n.sessionRecords sid
          (some { (n.sched.sessions sid).record sid with body := ready })) n.sched.pool
            (n.sched.nextTask - 1) n.sessions :=
    fun ready => hr.holds.assignSession hnarrow hsession rfl
  simp only [Tables.sessionRunLeave, hfind, Scheduler.sessionRunLeave]
  change ∃ tb', (if queueSize (n.sched.sessions sid).tasks = 0 then _ else _ : Tables).sessionFree
    sid = some tb' ∧ _
  by_cases hempty : queueSize (n.sched.sessions sid).tasks = 0
  · rw [if_pos hempty, if_pos hempty]
    exact hend { n.sched.sessions sid with
      status := .ready, sem := (n.sched.sessions sid).sem + 1 } _ _ rfl (hassign _)
  · rw [if_neg hempty, if_neg hempty]
    exact hend { n.sched.sessions sid with status := .ready } _ _ rfl
      (hassign { n.sched.sessions sid with status := .ready } |>.submit _)

theorem call (hr : Represents narrow tb n) (hnarrow : Narrows narrow) {c : SchedulerCall}
    (hc : n.InRange c) : ∃ tb' r n', tb.call c = some (tb', r) ∧ n.call c = some (n', r) ∧
      Represents narrow tb' n' := by
  cases c with
  | sessionNew =>
      obtain ⟨tb', hnew, hr'⟩ := hr.sessionNew hnarrow hc
      exact ⟨tb', _, _, by rw [Tables.call, hnew]; rfl, rfl, hr'⟩
  | taskNew sid =>
      obtain ⟨tb', hnew, hr'⟩ := hr.taskNew hnarrow hc.1 hc.2
      exact ⟨tb', _, _, by rw [Tables.call, hnew]; rfl, rfl, hr'⟩
  | taskFree tid =>
      obtain ⟨tb', hfree, hr'⟩ := hr.taskFree hnarrow hc
      exact ⟨tb', _, _, by rw [Tables.call, hfree]; rfl, rfl, hr'⟩
  | taskRunEnter job =>
      obtain ⟨tb', henter, hr'⟩ := hr.taskRunEnter hnarrow hc
      exact ⟨tb', _, _, by rw [Tables.call, henter]; rfl, rfl, hr'⟩
  | taskRunLeave tid rc inChannel =>
      obtain ⟨tb', hleave, hr'⟩ := hr.taskRunLeave hnarrow hc rc inChannel
      exact ⟨tb', _, _, by rw [Tables.call, hleave]; rfl, rfl, hr'⟩
  | taskResumable tid =>
      obtain ⟨tb', hres, hr'⟩ := hr.taskResumable hnarrow hc
      exact ⟨tb', _, _, by rw [Tables.call, hres]; rfl, rfl, hr'⟩
  | sessionQueueTask job =>
      obtain ⟨tb', hqueue, hr'⟩ := hr.sessionQueueTask hnarrow hc
      exact ⟨tb', _, _, by rw [Tables.call, hqueue]; rfl, rfl, hr'⟩
  | take =>
      cases hpool : n.sched.pool with
      | nil => exact absurd hpool hc
      | cons sid pool =>
          have hsame := hr.holds.pool
          rw [hpool] at hsame
          refine ⟨{ tb with pool := pool }, .taken sid,
            { n with sched := { n.sched with pool := pool } }, ?_, ?_,
            ⟨?_, hr.first, hr.referenced, hr.fresh⟩⟩
          · rw [Tables.call, hsame]
            rfl
          · rw [Numbered.call, hpool]
            rfl
          · exact ⟨hr.holds.tasks, hr.holds.sessions, rfl, hr.holds.nextTask,
              hr.holds.nextSession⟩
  | sessionRunEnter sid =>
      obtain ⟨tb', n', job, henter, hcall, hr'⟩ := hr.sessionRunEnter hnarrow hc
      exact ⟨tb', _, n', by rw [Tables.call, henter]; rfl, hcall, hr'⟩
  | sessionRunLeave sid =>
      obtain ⟨tb', hleave, hr'⟩ := hr.sessionRunLeave hnarrow hc.1 hc.2
      exact ⟨tb', _, _, by rw [Tables.call, hleave]; rfl, rfl, hr'⟩

end Represents

end Casting.Runtime
