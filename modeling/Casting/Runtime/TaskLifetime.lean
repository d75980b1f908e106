import Casting.Framework.RefCount
import Casting.Runtime.Current

/-!
# The lifetime of a task

A `task_t` is referenced by its handle, until `__gc`, by every thread that runs it, and by the
calls that look something up in it.  The record is in the table as long as there are such
references, and counts them.
-/

namespace Casting.Runtime

open Transition RefCount

/-- `task_ref`. -/
def Scheduler.taskRef (sc : Scheduler) (tid : TaskId) : Scheduler :=
  match sc.tasks tid with
  | none => sc
  | some t => sc.setTask tid (some { t with refCount := t.refCount + 1 })

theorem Scheduler.sessions_taskRef (sc : Scheduler) (tid : TaskId) :
    (sc.taskRef tid).sessions = sc.sessions := by
  unfold taskRef
  split <;> rfl

theorem Scheduler.nextTask_taskRef (sc : Scheduler) (tid : TaskId) :
    (sc.taskRef tid).nextTask = sc.nextTask := by
  unfold taskRef
  split <;> rfl

theorem Scheduler.tasks_taskRef {sc : Scheduler} {tid : TaskId} {t : Task}
    (ht : sc.tasks tid = some t) : (sc.taskRef tid).tasks =
      Function.update sc.tasks tid (some { t with refCount := t.refCount + 1 }) := by
  simp only [taskRef, ht, setTask]

theorem Scheduler.keepsOwners_taskRef (sc : Scheduler) (tid : TaskId) :
    sc.KeepsOwners (sc.taskRef tid) := by
  unfold taskRef
  split
  · exact keepsOwners_of_tasks rfl rfl
  · rename_i t ht
    apply sc.keepsOwners_setTask ht
    rintro u ⟨⟩
    rfl

theorem View.Exclusive.taskRef {v : View} (hv : v.Exclusive) (tid : TaskId) :
    Exclusive { v with sched := v.sched.taskRef tid } := by
  have howners := v.sched.keepsOwners_taskRef tid
  have hsessions := v.sched.sessions_taskRef tid
  apply hv.keep howners
  · intro sid
    rw [hsessions]
  · intro sid job hjob
    rw [hsessions] at hjob
    exact howners.owned (hv.queued sid job hjob)
  · intro other t _ ht
    unfold Scheduler.taskRef at ht
    split at ht
    · exact ⟨t, ht, rfl⟩
    · rename_i u hu
      by_cases hother : other = tid
      · subst hother
        have heq : some { u with refCount := u.refCount + 1 } = some t := by
          simpa [Scheduler.setTask] using ht
        cases heq
        exact ⟨u, hu, rfl⟩
      · exact ⟨t, by simpa [Scheduler.setTask, hother] using ht, rfl⟩

inductive Holder
  /-- the handle that `lc_createtask` pushed -/
  | handle
  /-- a thread between the `task_ref` and the `task_free` of a `task_run` that resumes the task -/
  | thread (th : ThreadId)
  /-- a thread between the `task_ref` and the `task_free` of `task_resume`, `task_yield`,
  `session_queue_task` or a `task_run` that resumes nothing -/
  | brief (th : ThreadId)
  deriving DecidableEq, Repr

namespace View

def holders (v : View) (collected : List TaskId) (looking : ThreadId → Option TaskId)
    (tid : TaskId) : Set Holder :=
  {x | match x with
    | .handle => 0 < tid ∧ tid < v.sched.nextTask ∧ tid ∉ collected
    | .thread th => ∃ sid, v.stage th = .inside sid tid
    | .brief th => looking th = some tid}

variable {v v' : View} {collected : List TaskId} {looking : ThreadId → Option TaskId}

@[simp]
theorem handle_mem_holders {tid : TaskId} : .handle ∈ v.holders collected looking tid ↔
    0 < tid ∧ tid < v.sched.nextTask ∧ tid ∉ collected := Iff.rfl

@[simp]
theorem thread_mem_holders {tid : TaskId} {th : ThreadId} :
    .thread th ∈ v.holders collected looking tid ↔ ∃ sid, v.stage th = .inside sid tid := Iff.rfl

@[simp]
theorem brief_mem_holders {tid : TaskId} {th : ThreadId} :
    .brief th ∈ v.holders collected looking tid ↔ looking th = some tid := Iff.rfl

def Tallied (v : View) (collected : List TaskId) (looking : ThreadId → Option TaskId) : Prop :=
  ∀ tid, HeldBy ((v.sched.tasks tid).map Task.refCount) (v.holders collected looking tid)

theorem tallied_start (size : ChannelId → Int) :
    (State.start size).view.Tallied [] fun _ => none := by
  intro tid
  have hnobody : (State.start size).view.holders [] (fun _ => none) tid = ∅ := by
    refine Set.eq_empty_iff_forall_notMem.mpr fun x hx => ?_
    cases x with
    | handle =>
        have hlt : tid < 1 := hx.2.1
        exact absurd hx.1 (Nat.not_lt.mpr (Nat.le_of_lt_succ hlt))
    | thread th =>
        obtain ⟨_, hstage⟩ := hx
        cases hstage
    | brief th => cases hx
  rw [hnobody]
  exact heldBy_none

theorem Tallied.keep (h : v.Tallied collected looking)
    (hcounts : ∀ tid, (v'.sched.tasks tid).map Task.refCount =
      (v.sched.tasks tid).map Task.refCount)
    (hnext : v'.sched.nextTask = v.sched.nextTask)
    (hstage : ∀ th sid tid, v'.stage th = .inside sid tid ↔ v.stage th = .inside sid tid) :
    v'.Tallied collected looking := by
  intro tid
  have hsame : v'.holders collected looking tid = v.holders collected looking tid := by
    ext x
    cases x with
    | handle => rw [handle_mem_holders, handle_mem_holders, hnext]
    | thread th => simp only [thread_mem_holders, hstage]
    | brief th => rfl
  rw [hcounts, hsame]
  exact h tid

theorem Tallied.pass (h : v.Tallied collected looking) {sched : Scheduler} {th : ThreadId}
    {st : Stage} (hcounts : ∀ tid, (sched.tasks tid).map Task.refCount =
      (v.sched.tasks tid).map Task.refCount)
    (hnext : sched.nextTask = v.sched.nextTask)
    (hbefore : ∀ sid tid, v.stage th ≠ .inside sid tid) (hafter : ∀ sid tid, st ≠ .inside sid tid) :
    Tallied ⟨sched, Function.update v.stage th st⟩ collected looking := by
  apply h.keep hcounts hnext
  intro other sid tid
  change Function.update v.stage th st other = _ ↔ _
  by_cases hother : other = th
  · subst hother
    rw [Function.update_self]
    exact iff_of_false (hafter sid tid) (hbefore sid tid)
  · rw [Function.update_of_ne hother]

theorem Tallied.taskNew (h : v.Tallied collected looking) (hpos : 0 < v.sched.nextTask)
    (hfresh : v.sched.tasks v.sched.nextTask = none) (hissued : ∀ tid ∈ collected,
      tid < v.sched.nextTask) (sid : SessionId) :
    Tallied { v with sched := v.sched.taskNew sid } collected looking := by
  intro tid
  by_cases htid : tid = v.sched.nextTask
  · subst htid
    have hinsert :
        holders { v with sched := v.sched.taskNew sid } collected looking v.sched.nextTask =
          insert .handle (v.holders collected looking v.sched.nextTask) := by
      ext x
      cases x with
      | handle =>
          refine iff_of_true ⟨hpos, Nat.lt_succ_self _, ?_⟩ (Set.mem_insert _ _)
          exact fun hmem => Nat.lt_irrefl _ (hissued _ hmem)
      | thread th => simp
      | brief th => simp
    have hold := h v.sched.nextTask
    rw [hfresh] at hold
    rw [hinsert]
    simpa [Scheduler.taskNew, Scheduler.setTask] using hold.new rfl
  · have hsame : holders { v with sched := v.sched.taskNew sid } collected looking tid =
        v.holders collected looking tid := by
      ext x
      cases x with
      | handle =>
          have hlt : tid < v.sched.nextTask + 1 ↔ tid < v.sched.nextTask :=
            ⟨fun hlt => Nat.lt_of_le_of_ne (Nat.le_of_lt_succ hlt) htid, Nat.lt_succ_of_lt⟩
          simp only [handle_mem_holders, Scheduler.taskNew, hlt]
      | thread th => rfl
      | brief th => rfl
    rw [hsame]
    simpa [Scheduler.taskNew, Scheduler.setTask, htid] using h tid

theorem tasks_taskFree_self {sc : Scheduler} {tid : TaskId} {t : Task}
    (ht : sc.tasks tid = some t) : ((sc.taskFree tid).tasks tid).map Task.refCount =
      if 1 < t.refCount then some (t.refCount - 1) else none := by
  simp only [Scheduler.taskFree, ht]
  split <;> simp [Scheduler.setTask]

theorem tasks_taskFree_of_ne (sc : Scheduler) {tid other : TaskId} (hother : other ≠ tid) :
    (sc.taskFree tid).tasks other = sc.tasks other := by
  unfold Scheduler.taskFree
  split
  · rfl
  · split <;> exact Function.update_of_ne hother _ _

theorem Tallied.free (h : v.Tallied collected looking) {sched : Scheduler} {tid : TaskId} {t : Task}
    {collected' : List TaskId} {looking' : ThreadId → Option TaskId} {x : Holder}
    (hx : x ∈ v.holders collected looking tid) (ht : sched.tasks tid = some t)
    (hcounts : ∀ tid, (sched.tasks tid).map Task.refCount =
      (v.sched.tasks tid).map Task.refCount)
    (hself : v'.holders collected' looking' tid = v.holders collected looking tid \ {x})
    (hothers : ∀ other ≠ tid,
      v'.holders collected' looking' other = v.holders collected looking other)
    (hsched : v'.sched = sched.taskFree tid) : v'.Tallied collected' looking' := by
  intro other
  by_cases hother : other = tid
  · subst hother
    have hold := h other
    rw [← hcounts, ht] at hold
    rw [hself, hsched, tasks_taskFree_self ht]
    exact hold.free hx
  · rw [hothers other hother, hsched, tasks_taskFree_of_ne _ hother, hcounts]
    exact h other

theorem Tallied.taskRunEnter (h : v.Tallied collected looking) {th : ThreadId} {sid : SessionId}
    {job : Job} {sched : Scheduler} (hstage : v.stage th = .popped sid (some job))
    (hrun : v.sched.taskRunEnter job = (.resumed, sched)) :
    Tallied ⟨sched, Function.update v.stage th (.inside sid job.tid)⟩ collected looking := by
  have hnext := (Scheduler.sessions_taskRunEnter hrun).2.2
  have hhandle : ∀ tid, .handle ∈ holders
      ⟨sched, Function.update v.stage th (.inside sid job.tid)⟩ collected looking tid ↔
        .handle ∈ v.holders collected looking tid := by
    intro tid
    rw [handle_mem_holders, handle_mem_holders, hnext]
  intro tid
  by_cases htid : tid = job.tid
  · subst htid
    have hself : holders ⟨sched, Function.update v.stage th (.inside sid job.tid)⟩ collected looking
        job.tid = insert (.thread th) (v.holders collected looking job.tid) := by
      ext x
      cases x with
      | handle => simpa using hhandle job.tid
      | thread other =>
          by_cases hother : other = th
          · subst hother
            simp
          · simp [hother]
      | brief other => simp
    have hnew : .thread th ∉ v.holders collected looking job.tid := by simp [hstage]
    have hold := h job.tid
    rcases Scheduler.taskRunEnter_cases hrun with ⟨_, hentry, _⟩ | ⟨_, _, hentry, _⟩ |
      ⟨t, ht, _, rfl⟩
    · cases hentry
    · cases hentry
    · rw [ht] at hold
      rw [hself]
      simpa [Scheduler.setTask] using hold.ref hnew
  · have hsame :
        holders ⟨sched, Function.update v.stage th (.inside sid job.tid)⟩ collected looking tid =
          v.holders collected looking tid := by
      ext x
      cases x with
      | handle => exact hhandle tid
      | thread other =>
          by_cases hother : other = th
          · subst hother
            simp [hstage, Ne.symm htid]
          · simp [hother]
      | brief other => rfl
    rw [hsame]
    change HeldBy ((sched.tasks tid).map Task.refCount) _
    rw [Scheduler.taskRunEnter_of_ne hrun htid]
    exact h tid

theorem Tallied.taskRunLeave (h : v.Tallied collected looking) {th : ThreadId} {sid : SessionId}
    {tid : TaskId} (rc : LuaResult) (inChannel : Bool) (hstage : v.stage th = .inside sid tid) :
    Tallied ⟨v.sched.taskRunLeave tid rc inChannel, Function.update v.stage th (.ran sid)⟩
      collected looking := by
  have hmem : .thread th ∈ v.holders collected looking tid := ⟨sid, hstage⟩
  obtain ⟨n, hn⟩ := (h tid).some_of_mem hmem
  obtain ⟨t, ht, _⟩ := Option.map_eq_some_iff.mp hn
  have hnext := (v.sched.sessions_taskRunLeave tid rc inChannel).2.2
  have hleave : ∃ status, v.sched.taskRunLeave tid rc inChannel =
      (v.sched.setTask tid
        (some { t with status := status, inChannel := inChannel })).taskFree tid := by
    simp only [Scheduler.taskRunLeave, ht]
    exact ⟨_, rfl⟩
  obtain ⟨status, hleave⟩ := hleave
  refine h.free hmem (Function.update_self tid _ _) ?_ ?_ ?_ hleave
  · intro other
    by_cases hother : other = tid
    · subst hother
      simp [Scheduler.setTask, ht]
    · simp [Scheduler.setTask, hother]
  · ext x
    cases x with
    | handle => simp [hnext]
    | thread other =>
        by_cases hother : other = th
        · subst hother
          simp
        · simp [hother]
    | brief other => simp
  · intro other hother
    ext x
    cases x with
    | handle => simp [hnext]
    | thread other' =>
        by_cases hother' : other' = th
        · subst hother'
          simp [hstage, Ne.symm hother]
        · simp [hother']
    | brief other' => rfl

theorem Tallied.gc (h : v.Tallied collected looking) {tid : TaskId}
    (hmem : .handle ∈ v.holders collected looking tid) :
    Tallied { v with sched := v.sched.taskFree tid } (collected ++ [tid]) looking := by
  obtain ⟨n, hn⟩ := (h tid).some_of_mem hmem
  obtain ⟨t, ht, _⟩ := Option.map_eq_some_iff.mp hn
  have hnext := (v.sched.sessions_taskFree tid).2.2
  refine h.free hmem ht (fun _ => rfl) ?_ ?_ rfl
  · ext x
    cases x with
    | handle => simp
    | thread other => simp
    | brief other => simp
  · intro other hother
    ext x
    cases x with
    | handle => simp [hnext, hother]
    | thread other' => simp
    | brief other' => simp

theorem Tallied.taskRef (h : v.Tallied collected looking) {th : ThreadId} {tid : TaskId} {t : Task}
    (hnone : looking th = none) (ht : v.sched.tasks tid = some t) :
    Tallied { v with sched := v.sched.taskRef tid } collected
      (Function.update looking th (some tid)) := by
  have hnext := v.sched.nextTask_taskRef tid
  have htasks := Scheduler.tasks_taskRef ht
  intro other
  by_cases hother : other = tid
  · subst hother
    have hself : holders { v with sched := v.sched.taskRef other } collected
        (Function.update looking th (some other)) other =
          insert (.brief th) (v.holders collected looking other) := by
      ext x
      cases x with
      | handle => simp [hnext]
      | thread th' => simp
      | brief th' =>
          by_cases hth : th' = th
          · subst hth
            simp
          · simp [hth]
    have hnew : .brief th ∉ v.holders collected looking other := by simp [hnone]
    have hold := h other
    rw [ht] at hold
    rw [hself]
    simpa [htasks] using hold.ref hnew
  · have hsame : holders { v with sched := v.sched.taskRef tid } collected
        (Function.update looking th (some tid)) other = v.holders collected looking other := by
      ext x
      cases x with
      | handle => simp [hnext]
      | thread th' => simp
      | brief th' =>
          by_cases hth : th' = th
          · subst hth
            simp [hnone, Ne.symm hother]
          · simp [hth]
    rw [hsame]
    simpa [htasks, hother] using h other

theorem Tallied.looked (h : v.Tallied collected looking) {th : ThreadId} {tid : TaskId}
    (hth : looking th = some tid) :
    Tallied { v with sched := v.sched.taskFree tid } collected
      (Function.update looking th none) := by
  have hmem : .brief th ∈ v.holders collected looking tid := hth
  obtain ⟨n, hn⟩ := (h tid).some_of_mem hmem
  obtain ⟨t, ht, _⟩ := Option.map_eq_some_iff.mp hn
  have hnext := (v.sched.sessions_taskFree tid).2.2
  refine h.free hmem ht (fun _ => rfl) ?_ ?_ rfl
  · ext x
    cases x with
    | handle => simp [hnext]
    | thread other => simp
    | brief other =>
        by_cases hother : other = th
        · subst hother
          simp
        · simp [hother]
  · intro other hother
    ext x
    cases x with
    | handle => simp [hnext]
    | thread other' => simp
    | brief other' =>
        by_cases hother' : other' = th
        · subst hother'
          simp [hth, Ne.symm hother]
        · simp [hother']

/-! ### Steps -/

theorem Tallied.taskRun {s : State} (h : s.view.Tallied collected looking) {th : ThreadId}
    {sid : SessionId} {job : Job} (hpc : s.pc th = .popped sid (some job)) :
    (s.taskRunEnter th sid job).view.Tallied collected looking := by
  have hstage : s.view.stage th = .popped sid (some job) := congrArg Pc.stage hpc
  have hpass : ∀ sched : Scheduler, sched.nextTask = s.sched.nextTask →
      (∀ tid, (sched.tasks tid).map Task.refCount = (s.sched.tasks tid).map Task.refCount) →
        Tallied ⟨sched, Function.update s.view.stage th (.ran sid)⟩ collected looking := by
    intro sched hnext hcounts
    exact h.pass hcounts hnext (by simp [hstage]) (by simp)
  cases hrun : s.sched.taskRunEnter job with
  | mk entry sched =>
      cases entry with
      | gone =>
          simp only [State.taskRunEnter, hrun, State.view_setPc]
          exact hpass s.sched rfl fun _ => rfl
      | skipped =>
          simp only [State.taskRunEnter, hrun, State.view_setPc, State.view_taskSetCurrent,
            State.sched_taskSetCurrent]
          rcases Scheduler.taskRunEnter_cases hrun with ⟨_, hentry, _⟩ | ⟨t, ht, _, rfl⟩ |
            ⟨_, _, hentry, _⟩
          · cases hentry
          · refine hpass _ rfl fun tid => ?_
            by_cases htid : tid = job.tid
            · simp [Scheduler.setTask, htid, ht]
            · simp [Scheduler.setTask, htid]
          · cases hentry
      | resumed =>
          simp only [State.taskRunEnter, hrun, State.view_setPc, State.view_taskSetCurrent,
            State.sched_taskSetCurrent]
          exact Tallied.taskRunEnter h hstage hrun

end View

/-- The task whose handle is collected in the step. -/
def Label.collects : Label → List TaskId
  | .gcTask tid => [tid]
  | _ => []

theorem Label.collects_cases (a : Label) : a.collects = [] ∨ ∃ tid, a = .gcTask tid := by
  cases a with
  | gcTask tid => exact .inr ⟨tid, rfl⟩
  | _ => exact .inl rfl

/-- The state, the tasks whose handle was collected, and those that a call is looking at. -/
structure TaskLog where
  state : State
  collected : List TaskId
  looking : ThreadId → Option TaskId

/-- A step of the runtime; or the `task_ref` or the `task_free` of a call that only reads the
task, whenever the call comes to it. -/
inductive TaskLabel
  | run (a : Label)
  | ref (th : ThreadId) (tid : TaskId)
  | free (th : ThreadId)
  deriving DecidableEq, Repr

namespace TaskLog

def start (size : ChannelId → Int) : TaskLog := ⟨State.start size, [], fun _ => none⟩

def withSched (l : TaskLog) (sched : Scheduler) (looking : ThreadId → Option TaskId) : TaskLog :=
  { l with state := { l.state with sched := sched }, looking := looking }

def step (l : TaskLog) : TaskLabel → Option TaskLog
  | .run a => (l.state.step a).map fun next =>
      { l with state := next, collected := l.collected ++ a.collects }
  | .ref th tid =>
      match l.looking th, l.state.sched.tasks tid with
      | some _, _ => none
      -- the call returns `ERR_INVAL`
      | none, none => some l
      | none, some _ => some (l.withSched (l.state.sched.taskRef tid)
          (Function.update l.looking th (some tid)))
  | .free th =>
      match l.looking th with
      | none => none
      | some tid => some (l.withSched (l.state.sched.taskFree tid)
          (Function.update l.looking th none))

def holders (l : TaskLog) (tid : TaskId) : Set Holder :=
  l.state.view.holders l.collected l.looking tid

/-- `__gc` runs on a handle that there is, and once. -/
def CollectsOnce (l : TaskLog) (a : TaskLabel) : Prop :=
  ∀ tid, a = .run (.gcTask tid) → 0 < tid ∧ tid < l.state.sched.nextTask ∧ tid ∉ l.collected

instance decidableCollectsOnce (l : TaskLog) (a : TaskLabel) : Decidable (CollectsOnce l a) :=
  match a with
  | .run (.gcTask tid) =>
      decidable_of_iff (0 < tid ∧ tid < l.state.sched.nextTask ∧ tid ∉ l.collected) <| by
        simp [CollectsOnce]
  | .run (.newTask _) | .run (.queueTask _ _) | .run (.refuse _) | .run (.take _)
  | .run (.enter _) | .run (.taskRun _) | .run (.luac _ _ _) | .run (.test _)
  | .run (.locked _) | .run (.callback _) | .run (.queue _) | .run (.leave _) | .run (.wake _)
  | .run (.yielded _ _) | .run (.ended _ _) | .run (.finish _) | .run (.close _) | .ref _ _
  | .free _ => .isTrue (by simp [CollectsOnce])

structure Tidy (l : TaskLog) : Prop where
  exclusive : l.state.view.Exclusive
  positive : l.state.Positive
  issued : ∀ tid ∈ l.collected, tid < l.state.sched.nextTask
  tallied : l.state.view.Tallied l.collected l.looking

theorem tidy_start (size : ChannelId → Int) : (start size).Tidy where
  exclusive := View.exclusive_start size
  positive := ⟨rfl, Nat.one_pos⟩
  issued tid h := by cases h
  tallied := View.tallied_start size

theorem Tidy.tallied_of_collects {l : TaskLog} {s : State} {a : Label} (hl : l.Tidy)
    (hnone : a.collects = []) (hstep : l.state.step a = some s) :
    s.view.Tallied l.collected l.looking := by
  have h := hl.tallied
  have hstill : ∀ s : State, s.view = l.state.view → s.view.Tallied l.collected l.looking := by
    intro s hview
    rw [hview]
    exact h
  have hqueue : ∀ job, View.Tallied ⟨l.state.sched.sessionQueueTask job, l.state.view.stage⟩
      l.collected l.looking := by
    intro job
    refine h.keep (fun tid => ?_) ?_ fun _ _ _ => Iff.rfl
    · change Option.map _ ((l.state.sched.sessionQueueTask job).tasks tid) = _
      rw [Scheduler.tasks_sessionQueueTask]
      rfl
    · rcases l.state.sched.sessionQueueTask_cases job with ⟨_, heq⟩ | ⟨_, _, _, heq, _⟩
      · rw [heq]
        rfl
      · exact heq
  cases step_cases hstep with
  | newTask sid =>
      refine h.taskNew hl.positive.2 ?_ hl.issued sid
      cases hfresh : l.state.sched.tasks l.state.sched.nextTask with
      | none => exact hfresh
      | some t => exact absurd (hl.exclusive.used _ t hfresh) (Nat.lt_irrefl _)
  | gcTask tid => cases hnone
  | queueTask tid => exact hqueue ⟨tid, none⟩
  | queueMessage tid => exact hqueue ⟨tid, some l.state.store.msgNew.1⟩
  | refuse _ => exact h
  | take hpc _ | enterBusy hpc _ | runNone hpc =>
      rw [State.view_setPc]
      refine h.pass (fun _ => rfl) rfl ?_ (by simp [Pc.stage])
      simp [State.view, hpc, Pc.stage]
  | enter hpc henter =>
      obtain ⟨_, _, rfl⟩ := Scheduler.sessionRunEnter_eq_some.mp henter
      rw [State.view_setPc]
      refine h.pass (fun _ => rfl) rfl ?_ (by simp [Pc.stage])
      simp [State.view, hpc, Pc.stage]
  | run hpc => exact h.taskRun hpc
  | luacTask c writes hpc _ => exact hstill _ (State.view_luac _ c writes (by rw [hpc]; rfl))
  | luacPlain c writes hpc =>
      have hstage : (l.state.pc _).stage = .outside := congrArg Pc.stage hpc
      exact hstill _ (State.view_luac _ c writes hstage.symm)
  | testClosed hpc _ | test hpc _ | leaveTask hpc | wake hpc =>
      exact hstill _ (State.view_setPc_stage _ (by rw [hpc]; rfl))
  | locked hpc _ =>
      have hstage : (l.state.pc _).stage = _ := congrArg Pc.stage hpc
      exact hstill _ ((l.state.setChannel _ _).view_setPc_stage hstage.symm)
  | callback hpc => exact hstill _ (State.view_invoke _ _ _ _ (by rw [hpc]; rfl))
  | @queue th f full job release rest hpc =>
      have hstage : (Pc.calling f full rest).stage = (l.state.pc th).stage := by
        rw [hpc]
        rfl
      rw [State.view_setPc_stage { l.state with sched := l.state.sched.sessionQueueTask job,
                                                store := l.state.store.msgDestroy release } hstage]
      exact hqueue job
  | @leavePlain th frame full hpc =>
      have hstage : (if full then Pc.waiting frame else .idle).stage = (l.state.pc th).stage := by
        rw [hpc]
        cases full <;> rfl
      exact hstill _ (State.view_setPc_stage _ hstage)
  | yielded hpc _ =>
      rw [State.view_setPc]
      exact h.taskRunLeave _ true (congrArg Pc.stage hpc)
  | ended hpc =>
      rw [State.view_setPc]
      exact h.taskRunLeave _ false (congrArg Pc.stage hpc)
  | @finish th sid hpc =>
      rw [State.view_setPc]
      refine h.pass (fun tid => ?_) ?_ ?_ (by simp [Pc.stage])
      · change Option.map _ ((l.state.sched.sessionRunLeave sid).tasks tid) = _
        rw [Scheduler.tasks_sessionRunLeave]
        rfl
      · unfold Scheduler.sessionRunLeave
        simp only
        split <;> rfl
      · simp [State.view, hpc, Pc.stage]
  | close c =>
      rw [State.close, State.view_closedCallbacks]
      exact h

theorem Tidy.run {l : TaskLog} {next : State} {a : Label} (hl : l.Tidy)
    (hguard : CollectsOnce l (.run a)) (hstep : l.state.step a = some next) :
    Tidy { l with state := next, collected := l.collected ++ a.collects } := by
  have hmove : AnyMove l.state.view next.view := anyMove_of_step hstep
  have hle : l.state.sched.nextTask ≤ next.sched.nextTask := hmove.keepsOwners.1
  rcases a.collects_cases with hnone | ⟨tid, rfl⟩
  · rw [hnone, List.append_nil]
    exact ⟨hl.exclusive.move hmove, hl.positive.step hstep,
      fun tid htid => Nat.lt_of_lt_of_le (hl.issued tid htid) hle,
      hl.tallied_of_collects hnone hstep⟩
  · have hhandle := hguard tid rfl
    refine ⟨hl.exclusive.move hmove, hl.positive.step hstep, ?_, ?_⟩
    · intro other hother
      rcases List.mem_append.mp hother with hold | hnew
      · exact Nat.lt_of_lt_of_le (hl.issued other hold) hle
      · rw [List.mem_singleton.mp hnew]
        exact Nat.lt_of_lt_of_le hhandle.2.1 hle
    · rw [← Option.some.inj hstep]
      exact hl.tallied.gc hhandle

theorem step_cases {l next : TaskLog} {a : TaskLabel} (h : l.step a = some next) :
    (∃ b s, a = .run b ∧ l.state.step b = some s ∧
      next = { l with state := s, collected := l.collected ++ b.collects }) ∨
    (∃ th tid t, l.looking th = none ∧ l.state.sched.tasks tid = some t ∧
      next = l.withSched (l.state.sched.taskRef tid) (Function.update l.looking th (some tid))) ∨
    (∃ th tid, l.looking th = some tid ∧
      next = l.withSched (l.state.sched.taskFree tid) (Function.update l.looking th none)) ∨
    next = l := by
  cases a with
  | run b =>
      obtain ⟨s, hs, rfl⟩ := Option.map_eq_some_iff.mp h
      exact .inl ⟨b, s, rfl, hs, rfl⟩
  | ref th tid =>
      simp only [step] at h
      split at h
      · cases h
      · cases h
        exact .inr (.inr (.inr rfl))
      · rename_i t hnone ht
        cases h
        exact .inr (.inl ⟨th, tid, t, hnone, ht, rfl⟩)
  | free th =>
      simp only [step] at h
      split at h
      · cases h
      · rename_i tid hth
        cases h
        exact .inr (.inr (.inl ⟨th, tid, hth, rfl⟩))

/-- No step gives a task to another session or its id to another task. -/
theorem keepsOwners_step {l next : TaskLog} {a : TaskLabel} (h : l.step a = some next) :
    l.state.sched.KeepsOwners next.state.sched := by
  rcases step_cases h with ⟨b, s, _, hs, rfl⟩ | ⟨_, tid, _, _, _, rfl⟩ | ⟨_, tid, _, rfl⟩ | rfl
  · exact (anyMove_of_step hs).keepsOwners
  · exact l.state.sched.keepsOwners_taskRef tid
  · exact l.state.sched.keepsOwners_taskFree tid
  · exact Scheduler.keepsOwners_of_tasks rfl rfl

theorem Tidy.step {l next : TaskLog} {a : TaskLabel} (hl : l.Tidy) (hguard : CollectsOnce l a)
    (h : l.step a = some next) : next.Tidy := by
  rcases step_cases h with ⟨b, s, rfl, hs, rfl⟩ | ⟨th, tid, t, hnone, ht, rfl⟩ |
    ⟨th, tid, hth, rfl⟩ | rfl
  · exact hl.run hguard hs
  · have howners := l.state.sched.keepsOwners_taskRef tid
    refine ⟨hl.exclusive.taskRef tid, hl.positive.keep howners, ?_, hl.tallied.taskRef hnone ht⟩
    exact fun other hother => Nat.lt_of_lt_of_le (hl.issued other hother) howners.1
  · have hmove : AnyMove l.state.view { l.state.view with sched := l.state.sched.taskFree tid } :=
      .gcTask tid
    refine ⟨hl.exclusive.move hmove, hl.positive.keep hmove.keepsOwners, ?_, hl.tallied.looked hth⟩
    exact fun other hother => Nat.lt_of_lt_of_le (hl.issued other hother) hmove.keepsOwners.1
  · exact hl

/-- The record of a task is there exactly while somebody has a reference to it, and counts
these: the handle, at most one thread that runs it, and those that look at it. -/
structure RecordKept (l : TaskLog) (tid : TaskId) : Prop where
  present : (∃ t, l.state.sched.tasks tid = some t) ↔ (l.holders tid).Nonempty
  counted : ∀ t, l.state.sched.tasks tid = some t → t.refCount = (l.holders tid).ncard
  alone : ∀ th th', .thread th ∈ l.holders tid → .thread th' ∈ l.holders tid → th = th'

theorem Tidy.recordKept {l : TaskLog} (hl : l.Tidy) (tid : TaskId) : l.RecordKept tid := by
  have hheld := hl.tallied tid
  constructor
  · rw [Set.nonempty_iff_ne_empty, ne_eq, holders, ← hheld.none_iff, Option.map_eq_none_iff,
      ← ne_eq, Option.ne_none_iff_exists']
    rfl
  · intro t ht
    apply hheld.count
    change Option.map _ (l.state.sched.tasks tid) = _
    rw [ht]
    rfl
  · rintro th th' hth hth'
    obtain ⟨n, hn⟩ := hheld.some_of_mem hth
    obtain ⟨t, ht, _⟩ := Option.map_eq_some_iff.mp hn
    obtain ⟨sid, hstage⟩ := hth
    obtain ⟨sid', hstage'⟩ := hth'
    have hsession : (l.state.view.stage th).session = some sid := congrArg Stage.session hstage
    have hsession' : (l.state.view.stage th').session = some sid' :=
      congrArg Stage.session hstage'
    exact hl.exclusive.eq_of_owned hsession hsession' ht (hl.exclusive.inside th sid tid hstage)
      (hl.exclusive.inside th' sid' tid hstage')

/-- After a run, a task that was created before it is as it was, or is gone for good. -/
theorem owners_run {l final : TaskLog} {steps : List TaskLabel}
    (hrun : run step l steps = some final) : l.state.sched.nextTask ≤ final.state.sched.nextTask ∧
      ∀ tid < l.state.sched.nextTask, ∀ t', final.state.sched.tasks tid = some t' →
        ∃ t, l.state.sched.tasks tid = some t ∧ t.sid = t'.sid := by
  induction steps generalizing l with
  | nil =>
      cases hrun
      exact ⟨Nat.le_refl _, fun _ _ t ht => ⟨t, ht, rfl⟩⟩
  | cons a steps ih =>
      obtain ⟨next, hnext, hrest⟩ := run_cons_eq_some.mp hrun
      obtain ⟨hle, hkeeps⟩ := ih hrest
      obtain ⟨hle', howners⟩ := keepsOwners_step hnext
      refine ⟨Nat.le_trans hle' hle, fun tid htid t'' ht'' => ?_⟩
      obtain ⟨t', ht', hsid'⟩ := hkeeps tid (Nat.lt_of_lt_of_le htid hle') t'' ht''
      rcases howners tid t' ht' with ⟨t, ht, hsid⟩ | ⟨hnew, _⟩
      · exact ⟨t, ht, hsid.trans hsid'⟩
      · exact absurd htid (Nat.not_lt.mpr hnew)

/-- The life of a task in any run that collects each handle once: its record is there exactly
while it is referenced, by its handle, by the one thread that runs it or by threads that look
something up in it, and counts these; a record that is gone does not come back, and no other task
gets its id. -/
theorem taskRecords (size : ChannelId → Int) {before after : List TaskLabel} {l final : TaskLog}
    (hguard : Respects step CollectsOnce (start size) (before ++ after))
    (hbefore : run step (start size) before = some l) (hafter : run step l after = some final) :
    (∀ tid, l.RecordKept tid) ∧ ∀ tid < l.state.sched.nextTask, ∀ t',
      final.state.sched.tasks tid = some t' →
        ∃ t, l.state.sched.tasks tid = some t ∧ t.sid = t'.sid := by
  obtain ⟨hfirst, _⟩ := hguard.append hbefore
  have htidy : l.Tidy :=
    hfirst.run_invariant (fun _ _ _ hl ha hnext => hl.step ha hnext) (tidy_start size) hbefore
  exact ⟨htidy.recordKept, (owners_run hafter).2⟩

/-- The handle is collected while the task runs and a call of `task_resume` looks at it: the record
goes with the last of the three references. -/
theorem taskRecords_collected :
    let before : List TaskLabel := [.run (.newTask 0), .run (.queueTask 1 true), .run (.take 0),
      .run (.enter 0), .run (.taskRun 0), .ref 1 1, .run (.gcTask 1)]
    let after : List TaskLabel := [.run (.ended 0 .ok), .free 1, .run (.newTask 0)]
    ∃ l final, run step (start fun _ => 0) before = some l ∧ run step l after = some final ∧
      (∀ tid, l.RecordKept tid) ∧ (∀ tid < l.state.sched.nextTask, ∀ t',
        final.state.sched.tasks tid = some t' →
          ∃ t, l.state.sched.tasks tid = some t ∧ t.sid = t'.sid) ∧
      (l.state.sched.tasks 1).map Task.refCount = some 2 ∧ final.state.sched.tasks 1 = none := by
  intro before after
  have hguard : Respects step CollectsOnce (start fun _ => 0) (before ++ after) := by decide
  have hrecords := taskRecords (fun _ => 0) hguard rfl rfl
  exact ⟨_, _, rfl, rfl, hrecords.1, hrecords.2, rfl, rfl⟩

end TaskLog

end Casting.Runtime
