import Casting.Framework.Transition
import Casting.Runtime.State

/-!
# The status of a task

Sequences of jobs that `task_run` runs on one task.  A job may be run on a task that has ended,
as jobs queued before its end are.
-/

namespace Casting.Runtime

open Transition

/-- A `task_run`: its message, what `lua_resume` returns if it is called, and whether the
coroutine is then in `luac_read` or `luac_write`. -/
structure TaskRun where
  message : Option MessageId
  rc : LuaResult
  inChannel : Bool
  deriving DecidableEq, Repr

def LuaResult.failed : LuaResult → Bool
  | .errRun | .errMem | .errErr => true
  | .ok | .yield => false

/-- No job is to change these. -/
def Status.ended : Status → Bool
  | .finished | .error => true
  | .ready | .running | .suspended => false

/-- The first `switch` of `task_run` calls `lua_resume`. -/
def Status.resumes (status : Status) (message : Option MessageId) : Bool :=
  match status with
  | .ready => message.isSome
  | .suspended => true
  | .running | .finished | .error => false

theorem Status.ended_of_resumes {status : Status} {message : Option MessageId}
    (h : status.resumes message = true) : status.ended = false := by
  cases status with
  | ready | running | suspended => rfl
  | finished | error => cases h

/-- The status that `lua_resume` leaves. -/
def LuaResult.status : LuaResult → Status
  | .ok => .finished
  | .yield => .suspended
  | .errRun => .error
  | .errMem | .errErr => .running

namespace Scheduler

/-- `task_run`, with nothing else happening to the task meanwhile. -/
def taskRun (tid : TaskId) (sc : Scheduler) (job : TaskRun) : Scheduler :=
  match sc.taskRunEnter ⟨tid, job.message⟩ with
  | (.resumed, sc) => sc.taskRunLeave tid job.rc job.inChannel
  | (_, sc) => sc

def taskStatus (sc : Scheduler) (tid : TaskId) : Option Status := (sc.tasks tid).map Task.status

variable {sc : Scheduler} {tid : TaskId} {t : Task}

theorem taskRun_spec (ht : sc.tasks tid = some t) (href : 0 < t.refCount) (job : TaskRun) :
    ∃ inChannel, (sc.taskRun tid job).tasks tid =
      some { t with
        status := if t.status.resumes job.message then job.rc.status else .finished
        inChannel := inChannel } := by
  have hresumed : t.status.resumes job.message = true →
      sc.taskRunEnter ⟨tid, job.message⟩ = (.resumed, sc.setTask tid
        (some { t with status := .running, refCount := t.refCount + 1 })) := by
    intro hresumes
    cases hstatus : t.status with
    | ready =>
        cases hmessage : job.message with
        | none => simp [hstatus, hmessage, Status.resumes] at hresumes
        | some m => simp [taskRunEnter, ht, hstatus]
    | suspended => simp [taskRunEnter, ht, hstatus]
    | _ => simp [hstatus, Status.resumes] at hresumes
  have hskipped : t.status.resumes job.message = false →
      sc.taskRunEnter ⟨tid, job.message⟩ =
        (.skipped, sc.setTask tid (some { t with status := .finished })) := by
    intro hresumes
    cases hstatus : t.status with
    | ready =>
        cases hmessage : job.message with
        | none => simp [taskRunEnter, ht, hstatus]
        | some m => simp [hstatus, hmessage, Status.resumes] at hresumes
    | suspended => simp [hstatus, Status.resumes] at hresumes
    | _ => simp [taskRunEnter, ht, hstatus]
  cases hresumes : t.status.resumes job.message with
  | false =>
      refine ⟨t.inChannel, ?_⟩
      simp [taskRun, hskipped hresumes, setTask]
  | true =>
      refine ⟨job.inChannel, ?_⟩
      cases hrc : job.rc <;>
        simp [taskRun, hresumed hresumes, taskRunLeave, taskFree, setTask, href, hrc,
          LuaResult.status]

/-! ## Moving forward -/

/-- What a `task_run` is to do to the status: none that has ended changes, a failed resume ends
in `error`, and the task no longer runs. -/
def MovesForward (tid : TaskId) (sc : Scheduler) (job : TaskRun) : Prop :=
  (∀ status, sc.taskStatus tid = some status → status.ended = true →
      (sc.taskRun tid job).taskStatus tid = some status) ∧
    (∀ status, sc.taskStatus tid = some status → status.resumes job.message = true →
      job.rc.failed = true → (sc.taskRun tid job).taskStatus tid = some .error) ∧
    (sc.taskRun tid job).taskStatus tid ≠ some .running

/-- The job does not meet a task in `error`, and its resume, if there is one, ends with a code
that `task_run` knows. -/
def Expected (tid : TaskId) (sc : Scheduler) (job : TaskRun) : Prop :=
  ∀ status, sc.taskStatus tid = some status →
    status ≠ .error ∧
      (status.resumes job.message = true → job.rc ≠ .errMem ∧ job.rc ≠ .errErr)

theorem movesForward_iff (ht : sc.tasks tid = some t) (href : 0 < t.refCount)
    (hidle : t.status ≠ .running) (job : TaskRun) :
    MovesForward tid sc job ↔ Expected tid sc job := by
  obtain ⟨inChannel, hrun⟩ := taskRun_spec ht href job
  have hbefore : sc.taskStatus tid = some t.status := by rw [taskStatus, ht, Option.map_some]
  have hafter : (sc.taskRun tid job).taskStatus tid =
      some (if t.status.resumes job.message then job.rc.status else .finished) := by
    rw [taskStatus, hrun, Option.map_some]
  unfold MovesForward Expected
  rw [hbefore, hafter]
  simp only [Option.some.injEq, forall_eq']
  cases hresumes : t.status.resumes job.message with
  | true =>
      have hended := Status.ended_of_resumes hresumes
      have herror : t.status ≠ .error := by
        intro herror
        rw [herror] at hended
        cases hended
      cases job.rc <;> simp [hended, herror, LuaResult.status, LuaResult.failed]
  | false =>
      cases hstatus : t.status with
      | running => exact (hidle hstatus).elim
      | _ => simp [Status.ended]

/-- The task is there, is referenced, and does not run. -/
def Idle (tid : TaskId) (sc : Scheduler) : Prop :=
  ∃ t, sc.tasks tid = some t ∧ 0 < t.refCount ∧ t.status ≠ .running

theorem idle_taskRun {job : TaskRun} (hidle : Idle tid sc) (hexpected : Expected tid sc job) :
    Idle tid (sc.taskRun tid job) := by
  obtain ⟨t, ht, href, hstatus⟩ := hidle
  obtain ⟨inChannel, hrun⟩ := taskRun_spec ht href job
  have hforward := (movesForward_iff ht href hstatus job).mpr hexpected
  refine ⟨_, hrun, href, ?_⟩
  intro hrunning
  apply hforward.2.2
  rw [taskStatus, hrun, Option.map_some, hrunning]

/-- For the jobs of a new task, whatever else is there: every `task_run` moves its status
forward exactly if no job meets it in `error` and no resume ends with `LUA_ERRMEM` or
`LUA_ERRERR`. -/
theorem movesForward_throughout_iff (sc : Scheduler) (sid : SessionId) (jobs : List TaskRun) :
    Before (fun s job => some (s.taskRun sc.nextTask job)) (MovesForward sc.nextTask)
        (sc.taskNew sid) jobs ↔
      Respects (fun s job => some (s.taskRun sc.nextTask job)) (Expected sc.nextTask)
        (sc.taskNew sid) jobs := by
  refine before_iff_respects (I := Idle sc.nextTask) ?_ ?_ ?_
  · intro s job hidle
    exact ⟨_, rfl, idle_taskRun hidle⟩
  · intro s job ⟨t, ht, href, hstatus⟩
    exact movesForward_iff ht href hstatus job
  · exact ⟨⟨sid, 1, .ready, false⟩, by simp [taskNew, setTask], Nat.one_pos,
      Status.noConfusion⟩

/-- A job that was queued before an error makes the task `finished`. -/
theorem movesForward_fails :
    ¬ ∀ (sc : Scheduler) (sid : SessionId) (jobs : List TaskRun),
      Before (fun s job => some (s.taskRun sc.nextTask job)) (MovesForward sc.nextTask)
        (sc.taskNew sid) jobs := by
  intro hall
  have hrun := hall ⟨fun _ => ⟨.ready, 0, queueNew, [], []⟩, fun _ => none, 1, queueNew⟩ 0
    [⟨some 0, .errRun, false⟩, ⟨some 1, .ok, false⟩]
  have hforward := (hrun.2 _ rfl).1
  exact absurd (hforward.1 .error rfl rfl) (by decide)

end Scheduler

end Casting.Runtime
