import Casting.Runtime.Step

/-!
# The scheduler, seen without channels

The abstract machine of `session_queue_task`, `session_run` and `task_run`: the scheduler, and
for every thread which part of `session_run` it is in.  Each step of the run-time system is a
move of this machine or leaves it as it is.
-/

namespace Casting.Runtime

open Transition

/-- Which part of `session_run` a thread is in. -/
inductive Stage
  | outside
  | entered (sid : SessionId)
  | popped (sid : SessionId) (job : Option Job)
  | inside (sid : SessionId) (tid : TaskId)
  | ran (sid : SessionId)
  deriving DecidableEq, Repr

namespace Stage

/-- The session whose status the thread has set to `running` and not yet back to `ready`. -/
def session : Stage → Option SessionId
  | .outside | .entered _ => none
  | .popped sid _ | .inside sid _ | .ran sid => some sid

end Stage

def CallFrame.stage : CallFrame → Stage
  | .task sid tid _ => .inside sid tid
  | .plain _ => .outside

def Pc.stage : Pc → Stage
  | .idle | .waiting _ => .outside
  | .entered sid => .entered sid
  | .popped sid job => .popped sid job
  | .inTask sid tid | .yielding sid tid _ => .inside sid tid
  | .testing f _ _ | .locking f _ _ | .calling f _ _ | .queueing f _ _ _ _ => f.stage
  | .ran sid => .ran sid

structure View where
  sched : Scheduler
  stage : ThreadId → Stage

def State.view (s : State) : View := ⟨s.sched, fun th => (s.pc th).stage⟩

/-- The result of `lua_resume` that a step brings. -/
def Label.result : Label → Option LuaResult
  | .yielded _ rc | .ended _ rc => some rc
  | _ => none

/-- The number of jobs that the second locked section of `session_run` finds in the queue. -/
def State.jobsLeft (s : State) : Label → Option ℕ
  | .finish th =>
      match s.pc th with
      | .ran sid => some (s.sched.sessions sid).tasks.length
      | _ => none
  | _ => none

/-- The moves of the abstract machine, where `lua_resume` returns only codes in `R` and
`session_run` finds only so many jobs left as are in `Q`. -/
inductive Move (R : LuaResult → Prop) (Q : ℕ → Prop) (v : View) : View → Prop
  | still : Move R Q v v
  | newTask (sid : SessionId) : Move R Q v { v with sched := v.sched.taskNew sid }
  | gcTask (tid : TaskId) : Move R Q v { v with sched := v.sched.taskFree tid }
  | queue (job : Job) : Move R Q v { v with sched := v.sched.sessionQueueTask job }
  | take {th : ThreadId} {sid : SessionId} {pool : Queue SessionId}
      (hstage : v.stage th = .outside) (hpool : v.sched.pool = sid :: pool) :
      Move R Q v ⟨{ v.sched with pool := pool }, Function.update v.stage th (.entered sid)⟩
  | busy {th : ThreadId} {sid : SessionId} (hstage : v.stage th = .entered sid)
      (hbusy : v.sched.sessionRunEnter sid = none) :
      Move R Q v { v with stage := Function.update v.stage th .outside }
  | enter {th : ThreadId} {sid : SessionId} {sched : Scheduler} {job : Option Job}
      (hstage : v.stage th = .entered sid)
      (henter : v.sched.sessionRunEnter sid = some (sched, job)) :
      Move R Q v ⟨sched, Function.update v.stage th (.popped sid job)⟩
  | none {th : ThreadId} {sid : SessionId} (hstage : v.stage th = .popped sid none) :
      Move R Q v { v with stage := Function.update v.stage th (.ran sid) }
  | skip {th : ThreadId} {sid : SessionId} {job : Job} {entry : Entry} {sched : Scheduler}
      (hstage : v.stage th = .popped sid (some job))
      (hrun : v.sched.taskRunEnter job = (entry, sched)) (hentry : entry ≠ .resumed) :
      Move R Q v ⟨sched, Function.update v.stage th (.ran sid)⟩
  | resume {th : ThreadId} {sid : SessionId} {job : Job} {sched : Scheduler}
      (hstage : v.stage th = .popped sid (some job))
      (hrun : v.sched.taskRunEnter job = (.resumed, sched)) :
      Move R Q v ⟨sched, Function.update v.stage th (.inside sid job.tid)⟩
  | leave {th : ThreadId} {sid : SessionId} {tid : TaskId} {rc : LuaResult} (inChannel : Bool)
      (hstage : v.stage th = .inside sid tid) (hrc : R rc) :
      Move R Q v ⟨v.sched.taskRunLeave tid rc inChannel, Function.update v.stage th (.ran sid)⟩
  | finish {th : ThreadId} {sid : SessionId} (hstage : v.stage th = .ran sid)
      (hleft : Q (v.sched.sessions sid).tasks.length) :
      Move R Q v ⟨v.sched.sessionRunLeave sid, Function.update v.stage th .outside⟩

/-- A move with no condition on what `lua_resume` returns or `session_run` finds. -/
abbrev AnyMove : View → View → Prop := Move (fun _ => True) fun _ => True

namespace State

theorem view_setPc (s : State) (th : ThreadId) (p : Pc) :
    (s.setPc th p).view = ⟨s.sched, Function.update s.view.stage th p.stage⟩ := by
  have hstage : (fun other => ((s.setPc th p).pc other).stage) =
      Function.update s.view.stage th p.stage := by
    rw [pc_setPc]
    exact Function.comp_update Pc.stage s.pc th p
  simp only [view, hstage, sched_setPc]

theorem view_setPc_stage (s : State) {th : ThreadId} {p : Pc} (h : p.stage = (s.pc th).stage) :
    (s.setPc th p).view = s.view := by
  rw [view_setPc, h]
  have hsame : Function.update s.view.stage th (s.pc th).stage = s.view.stage :=
    Function.update_eq_self th s.view.stage
  rw [hsame]
  rfl

theorem view_luac (s : State) {th : ThreadId} {f : CallFrame} (c : ChannelId) (writes : Bool)
    (h : f.stage = (s.pc th).stage) : (s.luac th f c writes).view = s.view := by
  unfold luac
  split
  · rfl
  · split
    · exact view_setPc_stage _ h
    · exact view_setPc_stage s h

theorem view_invoke (s : State) {th : ThreadId} {f : CallFrame} (full : Bool) (i : Callback)
    (rest : List Callback) (h : f.stage = (s.pc th).stage) :
    (s.invoke th f full i rest).view = s.view := by
  unfold invoke
  split
  · split <;> exact view_setPc_stage s h
  · simp only
    split <;> exact view_setPc_stage _ h
  · exact view_setPc_stage s h
  · exact view_setPc_stage (s.sessionCallback _ _) h
  · exact view_setPc_stage (s.sessionCallback _ _) h

theorem view_closedCallbacks (s : State) (calls : List Callback) :
    (s.closedCallbacks calls).view = s.view := by
  obtain ⟨hpc, _, hsched, _⟩ := s.closedCallbacks_frame calls
  simp only [view, hpc, hsched]

theorem view_taskSetCurrent (s : State) (th : ThreadId) (tid : TaskId) :
    (s.taskSetCurrent th tid).view = s.view := by
  simp only [view, sched_taskSetCurrent, pc_taskSetCurrent]

theorem move_taskRunEnter {R : LuaResult → Prop} {Q : ℕ → Prop} (s : State) {th : ThreadId}
    {sid : SessionId} {job : Job} (hpc : s.pc th = .popped sid (some job)) :
    Move R Q s.view (s.taskRunEnter th sid job).view := by
  have hstage : s.view.stage th = .popped sid (some job) := congrArg Pc.stage hpc
  cases hrun : s.sched.taskRunEnter job with
  | mk entry sched =>
      cases entry with
      | gone =>
          simp only [taskRunEnter, hrun, view_setPc]
          have hsched : sched = s.sched := Scheduler.taskRunEnter_gone hrun
          subst hsched
          exact .skip hstage hrun (by decide)
      | skipped =>
          simp only [taskRunEnter, hrun, view_setPc, view_taskSetCurrent, sched_taskSetCurrent]
          exact .skip hstage hrun (by decide)
      | resumed =>
          simp only [taskRunEnter, hrun, view_setPc, view_taskSetCurrent, sched_taskSetCurrent]
          exact .resume hstage hrun

theorem still_of_view {R : LuaResult → Prop} {Q : ℕ → Prop} {s next : State}
    (h : next.view = s.view) : Move R Q s.view next.view := by
  rw [h]
  exact .still

end State

/-- Every step is a move of the abstract machine. -/
theorem move_of_step {R : LuaResult → Prop} {Q : ℕ → Prop} {s next : State} {a : Label}
    (h : s.step a = some next) (hR : ∀ rc, a.result = some rc → R rc)
    (hQ : ∀ n ∈ s.jobsLeft a, Q n) : Move R Q s.view next.view := by
  cases step_cases h with
  | newTask sid => exact .newTask sid
  | gcTask tid => exact .gcTask tid
  | queueTask tid => exact .queue ⟨tid, none⟩
  | queueMessage tid => exact .queue ⟨tid, some s.store.msgNew.1⟩
  | refuse _ => exact .still
  | take hpc hpool =>
      rw [State.view_setPc]
      exact .take (congrArg Pc.stage hpc) hpool
  | enterBusy hpc hbusy =>
      rw [State.view_setPc]
      exact .busy (congrArg Pc.stage hpc) hbusy
  | enter hpc henter =>
      rw [State.view_setPc]
      exact .enter (congrArg Pc.stage hpc) henter
  | runNone hpc =>
      rw [State.view_setPc]
      exact .none (congrArg Pc.stage hpc)
  | run hpc => exact s.move_taskRunEnter hpc
  | luacTask c writes hpc _ => exact State.still_of_view (s.view_luac c writes (by rw [hpc]; rfl))
  | luacPlain c writes hpc =>
      have hstage : (s.pc _).stage = .outside := congrArg Pc.stage hpc
      exact State.still_of_view (State.view_luac _ c writes hstage.symm)
  | testClosed hpc _ => exact State.still_of_view (s.view_setPc_stage (by rw [hpc]; rfl))
  | test hpc _ => exact State.still_of_view (s.view_setPc_stage (by rw [hpc]; rfl))
  | locked hpc _ =>
      have hstage : (s.pc _).stage = _ := congrArg Pc.stage hpc
      exact State.still_of_view ((s.setChannel _ _).view_setPc_stage hstage.symm)
  | callback hpc => exact State.still_of_view (s.view_invoke _ _ _ (by rw [hpc]; rfl))
  | @queue th f full job release rest hpc =>
      have hstage : (Pc.calling f full rest).stage = (s.pc th).stage := by
        rw [hpc]
        rfl
      rw [State.view_setPc_stage { s with sched := s.sched.sessionQueueTask job,
                                          store := s.store.msgDestroy release } hstage]
      exact .queue job
  | leaveTask hpc => exact State.still_of_view (s.view_setPc_stage (by rw [hpc]; rfl))
  | @leavePlain th frame full hpc =>
      have hstage : (if full then Pc.waiting frame else .idle).stage = (s.pc th).stage := by
        rw [hpc]
        cases full <;> rfl
      exact State.still_of_view (s.view_setPc_stage hstage)
  | wake hpc => exact State.still_of_view (s.view_setPc_stage (by rw [hpc]; rfl))
  | yielded hpc _ =>
      rw [State.view_setPc]
      exact .leave true (congrArg Pc.stage hpc) (hR _ rfl)
  | ended hpc =>
      rw [State.view_setPc]
      exact .leave false (congrArg Pc.stage hpc) (hR _ rfl)
  | @finish th sid hpc =>
      rw [State.view_setPc]
      have hleft : s.jobsLeft (.finish th) = some (s.sched.sessions sid).tasks.length := by
        simp only [State.jobsLeft, hpc]
      exact .finish (congrArg Pc.stage hpc) (hQ _ hleft)
  | close c =>
      rw [State.close, State.view_closedCallbacks]
      exact .still

theorem anyMove_of_step {s next : State} {a : Label} (h : s.step a = some next) :
    AnyMove s.view next.view :=
  move_of_step h (fun _ _ => trivial) fun _ _ => trivial

/-- What the moves of the abstract machine preserve holds in every state of every run whose steps
are such moves. -/
theorem throughout_of_move {I : View → Prop} {P : State → Prop} {R : LuaResult → Prop}
    {Q : ℕ → Prop} (hmove : ∀ v v', I v → Move R Q v v' → I v')
    (himp : ∀ s : State, I s.view → P s) {size : ChannelId → Int} {steps : List Label}
    (hstart : I (State.start size).view)
    (hguard : Respects State.step (fun s a => (∀ rc, a.result = some rc → R rc) ∧
      ∀ n ∈ s.jobsLeft a, Q n) (State.start size) steps) :
    Throughout State.step P (State.start size) steps := by
  apply throughout_of_respects (I := fun s => I s.view) _ himp hstart hguard
  intro s a next hs hguard hnext
  exact hmove _ _ hs (move_of_step hnext hguard.1 hguard.2)

end Casting.Runtime
