import Casting.Runtime.Sessions

/-!
# One worker in a session

The status word of a session is tested and set in one locked section and set back in another,
while the task runs unlocked.  Everything said about a task that runs rests on the invariant
that no second thread is in the same session.
-/

namespace Casting.Runtime

open Transition

namespace Scheduler

/-- The id is used up, and if the task is still in the table it belongs to the session. -/
def Owned (sc : Scheduler) (tid : TaskId) (sid : SessionId) : Prop :=
  tid < sc.nextTask ∧ ∀ t, sc.tasks tid = some t → t.sid = sid

/-- Every task was there before, in the same session, or has an id that was not used. -/
def KeepsOwners (sc sc' : Scheduler) : Prop :=
  sc.nextTask ≤ sc'.nextTask ∧ ∀ tid t', sc'.tasks tid = some t' →
    (∃ t, sc.tasks tid = some t ∧ t.sid = t'.sid) ∨ sc.nextTask ≤ tid ∧ tid < sc'.nextTask

theorem KeepsOwners.owned {sc sc' : Scheduler} (h : sc.KeepsOwners sc') {tid : TaskId}
    {sid : SessionId} (howned : sc.Owned tid sid) : sc'.Owned tid sid := by
  constructor
  · exact Nat.lt_of_lt_of_le howned.1 h.1
  · intro t' ht'
    rcases h.2 tid t' ht' with ⟨t, ht, hsid⟩ | ⟨hle, _⟩
    · rw [← hsid]
      exact howned.2 t ht
    · exact absurd howned.1 (Nat.not_lt.mpr hle)

theorem KeepsOwners.used {sc sc' : Scheduler} (h : sc.KeepsOwners sc')
    (hused : ∀ tid t, sc.tasks tid = some t → tid < sc.nextTask) :
    ∀ tid t', sc'.tasks tid = some t' → tid < sc'.nextTask := by
  intro tid t' ht'
  rcases h.2 tid t' ht' with ⟨t, ht, _⟩ | ⟨_, hlt⟩
  · exact Nat.lt_of_lt_of_le (hused tid t ht) h.1
  · exact hlt

theorem keepsOwners_of_tasks {sc sc' : Scheduler} (htasks : sc'.tasks = sc.tasks)
    (hnext : sc'.nextTask = sc.nextTask) : sc.KeepsOwners sc' := by
  constructor
  · exact Nat.le_of_eq hnext.symm
  · intro tid t' ht'
    exact .inl ⟨t', by rw [← htasks, ht'], rfl⟩

theorem keepsOwners_trans {sc₁ sc₂ sc₃ : Scheduler} (h : sc₁.KeepsOwners sc₂)
    (h' : sc₂.KeepsOwners sc₃) (hnext : sc₂.nextTask = sc₃.nextTask) :
    sc₁.KeepsOwners sc₃ := by
  constructor
  · exact Nat.le_trans h.1 h'.1
  · intro tid t₃ ht₃
    rcases h'.2 tid t₃ ht₃ with ⟨t₂, ht₂, hsid⟩ | ⟨hle, hlt⟩
    · rcases h.2 tid t₂ ht₂ with ⟨t₁, ht₁, hsid'⟩ | ⟨hle, hlt⟩
      · exact .inl ⟨t₁, ht₁, hsid'.trans hsid⟩
      · exact .inr ⟨hle, Nat.lt_of_lt_of_le hlt h'.1⟩
    · rw [← hnext] at hlt
      exact absurd hlt (Nat.not_lt.mpr hle)

theorem keepsOwners_setTask (sc : Scheduler) {tid : TaskId} {t : Task} {t' : Option Task}
    (ht : sc.tasks tid = some t) (hsid : ∀ u, t' = some u → u.sid = t.sid) :
    sc.KeepsOwners (sc.setTask tid t') := by
  constructor
  · exact Nat.le_refl _
  · intro other u hu
    left
    by_cases hother : other = tid
    · subst hother
      have hu' : t' = some u := by simpa [setTask] using hu
      exact ⟨t, ht, (hsid u hu').symm⟩
    · have hu' : sc.tasks other = some u := by simpa [setTask, hother] using hu
      exact ⟨u, hu', rfl⟩

theorem keepsOwners_taskNew (sc : Scheduler) (sid : SessionId) :
    sc.KeepsOwners (sc.taskNew sid) := by
  constructor
  · exact Nat.le_succ _
  · intro tid t ht
    by_cases hne : tid = sc.nextTask
    · subst hne
      exact .inr ⟨Nat.le_refl _, Nat.lt_succ_self _⟩
    · have ht' : sc.tasks tid = some t := by simpa [taskNew, setTask, hne] using ht
      exact .inl ⟨t, ht', rfl⟩

theorem keepsOwners_taskFree (sc : Scheduler) (tid : TaskId) :
    sc.KeepsOwners (sc.taskFree tid) := by
  unfold taskFree
  split
  · exact keepsOwners_of_tasks rfl rfl
  · rename_i t ht
    split
    · apply sc.keepsOwners_setTask ht
      intro u hu
      cases hu
      rfl
    · apply sc.keepsOwners_setTask ht
      intro u hu
      cases hu

theorem keepsOwners_taskRunEnter {sc sched : Scheduler} {job : Job} {entry : Entry}
    (h : sc.taskRunEnter job = (entry, sched)) : sc.KeepsOwners sched := by
  rcases taskRunEnter_cases h with ⟨_, _, rfl⟩ | ⟨t, ht, _, rfl⟩ | ⟨t, ht, _, rfl⟩
  · exact keepsOwners_of_tasks rfl rfl
  all_goals
    apply sc.keepsOwners_setTask ht
    intro u hu
    cases hu
    rfl

theorem keepsOwners_taskRunLeave (sc : Scheduler) (tid : TaskId) (rc : LuaResult)
    (inChannel : Bool) : sc.KeepsOwners (sc.taskRunLeave tid rc inChannel) := by
  unfold taskRunLeave
  split
  · exact keepsOwners_of_tasks rfl rfl
  · rename_i t ht
    apply keepsOwners_trans (sc.keepsOwners_setTask ht _) (keepsOwners_taskFree _ tid)
    · exact (sessions_taskFree _ tid).2.2.symm
    · intro u hu
      cases hu
      rfl

theorem keepsOwners_sessionQueueTask (sc : Scheduler) (job : Job) :
    sc.KeepsOwners (sc.sessionQueueTask job) := by
  rcases sc.sessionQueueTask_cases job with ⟨_, heq⟩ | ⟨t, _, htasks, hnext, _⟩
  · rw [heq]
    exact keepsOwners_of_tasks rfl rfl
  · exact keepsOwners_of_tasks htasks hnext

theorem keepsOwners_sessionRunLeave (sc : Scheduler) (sid : SessionId) :
    sc.KeepsOwners (sc.sessionRunLeave sid) := by
  unfold sessionRunLeave
  simp only
  split <;> exact keepsOwners_of_tasks rfl rfl

end Scheduler

theorem Move.keepsOwners {R : LuaResult → Prop} {Q : ℕ → Prop} {v v' : View}
    (h : Move R Q v v') : v.sched.KeepsOwners v'.sched := by
  cases h with
  | still | busy | none | take => exact Scheduler.keepsOwners_of_tasks rfl rfl
  | newTask sid => exact v.sched.keepsOwners_taskNew sid
  | gcTask tid => exact v.sched.keepsOwners_taskFree tid
  | queue job => exact v.sched.keepsOwners_sessionQueueTask job
  | enter _ henter =>
      obtain ⟨_, _, rfl⟩ := Scheduler.sessionRunEnter_eq_some.mp henter
      exact Scheduler.keepsOwners_of_tasks rfl rfl
  | skip _ hrun _ | resume _ hrun => exact Scheduler.keepsOwners_taskRunEnter hrun
  | @leave th sid tid rc inChannel _ _ =>
      exact v.sched.keepsOwners_taskRunLeave tid rc inChannel
  | @finish th sid _ _ => exact v.sched.keepsOwners_sessionRunLeave sid

namespace Scheduler

/-! ### Which tasks an operation changes -/

theorem tasks_taskFree {sc : Scheduler} {tid other : TaskId} {t : Task}
    (h : (sc.taskFree tid).tasks other = some t) :
    ∃ n, sc.tasks other = some { t with refCount := n } := by
  unfold taskFree at h
  split at h
  · exact ⟨t.refCount, h⟩
  · rename_i u hu
    by_cases hother : other = tid
    · subst hother
      split at h
      · have heq : some { u with refCount := u.refCount - 1 } = some t := by
          simpa [setTask] using h
        cases heq
        exact ⟨u.refCount, hu⟩
      · simp [setTask] at h
    · refine ⟨t.refCount, ?_⟩
      split at h <;> simpa [setTask, hother] using h

theorem taskRunEnter_of_ne {sc sched : Scheduler} {job : Job} {entry : Entry} {tid : TaskId}
    (h : sc.taskRunEnter job = (entry, sched)) (hne : tid ≠ job.tid) :
    sched.tasks tid = sc.tasks tid := by
  rcases taskRunEnter_cases h with ⟨_, _, rfl⟩ | ⟨t, _, _, rfl⟩ | ⟨t, _, _, rfl⟩
  · rfl
  all_goals exact Function.update_of_ne hne _ _

theorem taskRunEnter_self {sc sched : Scheduler} {job : Job} {entry : Entry} {t : Task}
    (h : sc.taskRunEnter job = (entry, sched)) (ht : sched.tasks job.tid = some t) :
    t.status = .finished ∨ t.status = .running := by
  rcases taskRunEnter_cases h with ⟨hnone, _, rfl⟩ | ⟨u, _, _, rfl⟩ | ⟨u, _, _, rfl⟩
  · rw [hnone] at ht
    cases ht
  · simp only [setTask, Function.update_self, Option.some.injEq] at ht
    subst ht
    exact .inl rfl
  · simp only [setTask, Function.update_self, Option.some.injEq] at ht
    subst ht
    exact .inr rfl

theorem taskRunLeave_of_ne {sc : Scheduler} {tid other : TaskId} {rc : LuaResult}
    {inChannel : Bool} {t : Task} (hne : other ≠ tid)
    (h : (sc.taskRunLeave tid rc inChannel).tasks other = some t) :
    ∃ n, sc.tasks other = some { t with refCount := n } := by
  unfold taskRunLeave at h
  split at h
  · exact ⟨t.refCount, h⟩
  · obtain ⟨n, hu⟩ := tasks_taskFree h
    exact ⟨n, by simpa [setTask, hne] using hu⟩

theorem taskRunLeave_self {sc : Scheduler} {tid : TaskId} {rc : LuaResult} {inChannel : Bool}
    {t : Task} (h : (sc.taskRunLeave tid rc inChannel).tasks tid = some t) :
    ∃ u, sc.tasks tid = some u ∧ u.sid = t.sid ∧ t.inChannel = inChannel ∧
      (rc = .ok ∨ rc = .yield ∨ rc = .errRun → t.status ≠ .running) := by
  unfold taskRunLeave at h
  split at h
  · rename_i hnone
    rw [hnone] at h
    cases h
  · rename_i u hu
    obtain ⟨n, hset⟩ := tasks_taskFree h
    simp only [setTask, Function.update_self, Option.some.injEq, Task.mk.injEq] at hset
    refine ⟨u, hu, hset.1, hset.2.2.2.symm, ?_⟩
    intro hrc
    rw [← hset.2.2.1]
    rcases hrc with rfl | rfl | rfl <;> simp

theorem tasks_sessionQueueTask (sc : Scheduler) (job : Job) :
    (sc.sessionQueueTask job).tasks = sc.tasks := by
  rcases sc.sessionQueueTask_cases job with ⟨_, heq⟩ | ⟨_, _, heq, _⟩
  · rw [heq]
  · exact heq

theorem tasks_sessionRunLeave (sc : Scheduler) (sid : SessionId) :
    (sc.sessionRunLeave sid).tasks = sc.tasks := by
  unfold sessionRunLeave
  simp only
  split <;> rfl

theorem taskNew_of_lt {sc : Scheduler} {sid : SessionId} {tid : TaskId}
    (hlt : tid < sc.nextTask) : (sc.taskNew sid).tasks tid = sc.tasks tid :=
  Function.update_of_ne (Nat.ne_of_lt hlt) _ _

theorem sessionQueueTask_session (sc : Scheduler) (job : Job) (sid : SessionId) :
    ((sc.sessionQueueTask job).sessions sid).status = (sc.sessions sid).status ∧
      ∀ j ∈ ((sc.sessionQueueTask job).sessions sid).tasks,
        j ∈ (sc.sessions sid).tasks ∨
          (j = job ∧ ∃ t, sc.tasks job.tid = some t ∧ t.sid = sid) := by
  rcases sc.sessionQueueTask_cases job with ⟨_, heq⟩ | ⟨t, ht, _, _, hsessions, _⟩
  · rw [heq]
    exact ⟨rfl, fun j hj => .inl hj⟩
  · rw [hsessions]
    by_cases hsid : sid = t.sid
    · subst hsid
      constructor
      · simp
      · intro j hj
        have hj' : j ∈ (sc.sessions t.sid).tasks ∨ j = job := by simpa using hj
        exact hj'.imp_right fun heq => ⟨heq, t, ht, rfl⟩
    · rw [Function.update_of_ne hsid]
      exact ⟨rfl, fun j hj => .inl hj⟩

theorem sessionRunLeave_session (sc : Scheduler) (sid other : SessionId) :
    ((sc.sessionRunLeave sid).sessions other).tasks = (sc.sessions other).tasks ∧
      (other ≠ sid →
        (sc.sessionRunLeave sid).sessions other = sc.sessions other) := by
  by_cases hother : other = sid
  · subst hother
    unfold sessionRunLeave
    simp only
    split <;> simp [setSession, submit]
  · unfold sessionRunLeave
    simp only
    split <;> simp [setSession, submit, hother]

end Scheduler

namespace View

/-- At most one thread is in a session's `session_run`, the session's status says so, and what
is queued, popped or resumed there belongs to the session. -/
structure Exclusive (v : View) : Prop where
  busy : ∀ th sid, (v.stage th).session = some sid → (v.sched.sessions sid).status = .running
  alone : ∀ th th' sid, (v.stage th).session = some sid → (v.stage th').session = some sid →
    th = th'
  used : ∀ tid t, v.sched.tasks tid = some t → tid < v.sched.nextTask
  queued : ∀ sid job, job ∈ (v.sched.sessions sid).tasks → v.sched.Owned job.tid sid
  popped : ∀ th sid job, v.stage th = .popped sid (some job) → v.sched.Owned job.tid sid
  inside : ∀ th sid tid, v.stage th = .inside sid tid → v.sched.Owned tid sid
  running : ∀ th sid tid t, v.stage th = .inside sid tid → v.sched.tasks tid = some t →
    t.status = .running

theorem Exclusive.eq_of_owned {v : View} (hv : v.Exclusive) {th th' : ThreadId}
    {sid sid' : SessionId} {tid : TaskId} {t : Task} (h : (v.stage th).session = some sid)
    (h' : (v.stage th').session = some sid') (ht : v.sched.tasks tid = some t)
    (howned : v.sched.Owned tid sid) (howned' : v.sched.Owned tid sid') : th = th' := by
  have hsid : sid = sid' := (howned.2 t ht).symm.trans (howned'.2 t ht)
  subst hsid
  exact hv.alone th th' sid h h'

theorem Exclusive.advance {v : View} (hv : v.Exclusive) {th : ThreadId} {st : Stage}
    {sched : Scheduler} (howners : v.sched.KeepsOwners sched)
    (hbusy : ∀ th' sid, th' ≠ th → (v.stage th').session = some sid →
      (sched.sessions sid).status = .running)
    (hself : ∀ sid, st.session = some sid → (sched.sessions sid).status = .running ∧
      ∀ th', th' ≠ th → (v.stage th').session ≠ some sid)
    (hqueued : ∀ sid job, job ∈ (sched.sessions sid).tasks → v.sched.Owned job.tid sid)
    (hpopped : ∀ sid job, st = .popped sid (some job) → v.sched.Owned job.tid sid)
    (hinside : ∀ sid tid, st = .inside sid tid → v.sched.Owned tid sid ∧
      ∀ t, sched.tasks tid = some t → t.status = .running)
    (hrunning : ∀ th' sid tid t, th' ≠ th → v.stage th' = .inside sid tid →
      sched.tasks tid = some t → t.status = .running) :
    Exclusive ⟨sched, Function.update v.stage th st⟩ where
  busy th' sid h := by
    by_cases hth : th' = th
    · subst hth
      exact (hself sid (by simpa using h)).1
    · exact hbusy th' sid hth (by simpa [hth] using h)
  alone th₁ th₂ sid h₁ h₂ := by
    by_cases hth₁ : th₁ = th
    · by_cases hth₂ : th₂ = th
      · exact hth₁.trans hth₂.symm
      · subst hth₁
        have hst : st.session = some sid := by simpa using h₁
        exact absurd (by simpa [hth₂] using h₂) ((hself sid hst).2 th₂ hth₂)
    · by_cases hth₂ : th₂ = th
      · subst hth₂
        have hst : st.session = some sid := by simpa using h₂
        exact absurd (by simpa [hth₁] using h₁) ((hself sid hst).2 th₁ hth₁)
      · exact hv.alone th₁ th₂ sid (by simpa [hth₁] using h₁) (by simpa [hth₂] using h₂)
  used := howners.used hv.used
  queued sid job h := howners.owned (hqueued sid job h)
  popped th' sid job h := by
    by_cases hth : th' = th
    · subst hth
      exact howners.owned (hpopped sid job (by simpa using h))
    · exact howners.owned (hv.popped th' sid job (by simpa [hth] using h))
  inside th' sid tid h := by
    by_cases hth : th' = th
    · subst hth
      exact howners.owned (hinside sid tid (by simpa using h)).1
    · exact howners.owned (hv.inside th' sid tid (by simpa [hth] using h))
  running th' sid tid t h ht := by
    by_cases hth : th' = th
    · subst hth
      exact (hinside sid tid (by simpa using h)).2 t ht
    · exact hrunning th' sid tid t hth (by simpa [hth] using h) ht

theorem Exclusive.keep {v : View} (hv : v.Exclusive) {sched : Scheduler}
    (howners : v.sched.KeepsOwners sched)
    (hstatus : ∀ sid, (sched.sessions sid).status = (v.sched.sessions sid).status)
    (hqueued : ∀ sid job, job ∈ (sched.sessions sid).tasks → sched.Owned job.tid sid)
    (htasks : ∀ tid t, tid < v.sched.nextTask → sched.tasks tid = some t →
      ∃ u, v.sched.tasks tid = some u ∧ u.status = t.status) :
    Exclusive ⟨sched, v.stage⟩ where
  busy th sid h := by
    rw [hstatus]
    exact hv.busy th sid h
  alone := hv.alone
  used := howners.used hv.used
  queued := hqueued
  popped th sid job h := howners.owned (hv.popped th sid job h)
  inside th sid tid h := howners.owned (hv.inside th sid tid h)
  running th sid tid t h ht := by
    obtain ⟨u, hu, hsame⟩ := htasks tid t (hv.inside th sid tid h).1 ht
    rw [← hsame]
    exact hv.running th sid tid u h hu

theorem Exclusive.sessionQueueTask {v : View} (hv : v.Exclusive) (job : Job) :
    Exclusive ⟨v.sched.sessionQueueTask job, v.stage⟩ := by
  have howners := v.sched.keepsOwners_sessionQueueTask job
  apply hv.keep howners
  · exact fun sid => (v.sched.sessionQueueTask_session job sid).1
  · intro sid j hj
    apply howners.owned
    rcases (v.sched.sessionQueueTask_session job sid).2 j hj with hold | ⟨rfl, t, ht, hsid⟩
    · exact hv.queued sid j hold
    · constructor
      · exact hv.used j.tid t ht
      · intro u hu
        rw [ht] at hu
        cases hu
        exact hsid
  · intro tid t _ ht
    rw [v.sched.tasks_sessionQueueTask job] at ht
    exact ⟨t, ht, rfl⟩

theorem Exclusive.sessionRunEnter {v : View} (hv : v.Exclusive) {th : ThreadId}
    {sid : SessionId} {sched : Scheduler} {job : Option Job}
    (hstage : v.stage th = .entered sid)
    (henter : v.sched.sessionRunEnter sid = some (sched, job)) :
    Exclusive ⟨sched, Function.update v.stage th (.popped sid job)⟩ := by
  obtain ⟨hidle, hjob, rfl⟩ := Scheduler.sessionRunEnter_eq_some.mp henter
  have htail : ∀ j, j ∈ (queuePop (v.sched.sessions sid).tasks).2 →
      j ∈ (v.sched.sessions sid).tasks := by
    intro j hj
    cases htasks : (v.sched.sessions sid).tasks with
    | nil => simp [htasks] at hj
    | cons first rest =>
        rw [htasks, queuePop_cons] at hj
        exact List.mem_cons_of_mem first hj
  apply hv.advance
  · exact Scheduler.keepsOwners_of_tasks rfl rfl
  · intro th' other _ h
    have hrun := hv.busy th' other h
    by_cases hother : other = sid
    · subst hother
      exact absurd hrun hidle
    · simpa [Scheduler.setSession, hother] using hrun
  · intro other h
    cases h
    constructor
    · simp [Scheduler.setSession]
    · intro th' _ h'
      exact hidle (hv.busy th' sid h')
  · intro other j hj
    by_cases hother : other = sid
    · subst hother
      exact hv.queued other j (htail j (by simpa [Scheduler.setSession] using hj))
    · exact hv.queued other j (by simpa [Scheduler.setSession, hother] using hj)
  · intro other j hj
    cases hj
    apply hv.queued sid j
    cases htasks : (v.sched.sessions sid).tasks with
    | nil => simp [htasks] at hjob
    | cons first rest =>
        rw [htasks, queuePop_cons] at hjob
        cases hjob
        exact List.mem_cons_self
  · intro other tid hj
    cases hj
  · exact fun th' other tid t _ h ht => hv.running th' other tid t h ht

theorem Exclusive.outside {v : View} (hv : v.Exclusive) {th : ThreadId} {st : Stage}
    {sched : Scheduler} (hst : st.session = none) (howners : v.sched.KeepsOwners sched)
    (hsessions : sched.sessions = v.sched.sessions) (htasks : sched.tasks = v.sched.tasks) :
    Exclusive ⟨sched, Function.update v.stage th st⟩ := by
  apply hv.advance howners
  · intro th' sid _ h
    rw [hsessions]
    exact hv.busy th' sid h
  · intro sid h
    simp [hst] at h
  · rw [hsessions]
    exact hv.queued
  · intro sid job h
    simp [h, Stage.session] at hst
  · intro sid tid h
    simp [h, Stage.session] at hst
  · intro th' sid tid t _ h ht
    rw [htasks] at ht
    exact hv.running th' sid tid t h ht

theorem Exclusive.advanceTask {v : View} (hv : v.Exclusive) {th : ThreadId} {st : Stage}
    {sid : SessionId} {tid : TaskId} {sched : Scheduler}
    (hsession : (v.stage th).session = some sid) (howned : v.sched.Owned tid sid)
    (howners : v.sched.KeepsOwners sched) (hsessions : sched.sessions = v.sched.sessions)
    (hst : st = .ran sid ∨ st = .inside sid tid)
    (htask : st = .inside sid tid → ∀ t, sched.tasks tid = some t → t.status = .running)
    (htasks : ∀ other t, other ≠ tid → sched.tasks other = some t →
      ∃ u, v.sched.tasks other = some u ∧ u.status = t.status)
    (hkept : ∀ t, sched.tasks tid = some t → ∃ u, v.sched.tasks tid = some u) :
    Exclusive ⟨sched, Function.update v.stage th st⟩ := by
  have hsame : st.session = some sid := by
    rcases hst with rfl | rfl <;> rfl
  apply hv.advance howners
  · intro th' other _ h
    rw [hsessions]
    exact hv.busy th' other h
  · intro other h
    rw [hsame] at h
    cases h
    constructor
    · rw [hsessions]
      exact hv.busy th sid hsession
    · intro th' hne h'
      exact hne (hv.alone th' th sid h' hsession)
  · intro other j hj
    rw [hsessions] at hj
    exact hv.queued other j hj
  · intro other j hj
    rcases hst with rfl | rfl <;> cases hj
  · intro other tid' hj
    rcases hst with rfl | rfl
    · cases hj
    · cases hj
      exact ⟨howned, htask rfl⟩
  · intro th' other tid' t hne h ht
    by_cases htid : tid' = tid
    · subst htid
      obtain ⟨u, hu⟩ := hkept t ht
      have hsession' : (v.stage th').session = some other := by
        rw [h]
        rfl
      exact absurd (hv.eq_of_owned hsession' hsession hu (hv.inside th' other tid' h) howned) hne
    · obtain ⟨u, hu, hstatus⟩ := htasks tid' t htid ht
      rw [← hstatus]
      exact hv.running th' other tid' u h hu

theorem Exclusive.sessionRunLeave {v : View} (hv : v.Exclusive) {th : ThreadId}
    {sid : SessionId} (hstage : v.stage th = .ran sid) :
    Exclusive ⟨v.sched.sessionRunLeave sid, Function.update v.stage th .outside⟩ := by
  have hsession : (v.stage th).session = some sid := by
    rw [hstage]
    rfl
  have htasks := v.sched.tasks_sessionRunLeave sid
  apply hv.advance (v.sched.keepsOwners_sessionRunLeave sid)
  · intro th' other hne h
    have hother : other ≠ sid := by
      intro heq
      rw [heq] at h
      exact hne (hv.alone th' th sid h hsession)
    rw [(v.sched.sessionRunLeave_session sid other).2 hother]
    exact hv.busy th' other h
  · intro other h
    cases h
  · intro other j hj
    rw [(v.sched.sessionRunLeave_session sid other).1] at hj
    exact hv.queued other j hj
  · intro other j h
    cases h
  · intro other tid h
    cases h
  · intro th' other tid t _ h ht
    rw [htasks] at ht
    exact hv.running th' other tid t h ht

theorem Exclusive.move {R : LuaResult → Prop} {Q : ℕ → Prop} {v v' : View} (hv : v.Exclusive)
    (h : Move R Q v v') : v'.Exclusive := by
  have howners := h.keepsOwners
  cases h with
  | still => exact hv
  | newTask sid =>
      apply hv.keep howners (fun _ => rfl) (fun other j hj => howners.owned (hv.queued other j hj))
      intro tid t hlt ht
      rw [Scheduler.taskNew_of_lt hlt] at ht
      exact ⟨t, ht, rfl⟩
  | gcTask tid =>
      have hsame := v.sched.sessions_taskFree tid
      apply hv.keep howners
      · intro sid
        rw [hsame.1]
      · intro sid j hj
        rw [hsame.1] at hj
        exact howners.owned (hv.queued sid j hj)
      · intro other t _ ht
        obtain ⟨n, hu⟩ := Scheduler.tasks_taskFree ht
        exact ⟨_, hu, rfl⟩
  | queue job => exact hv.sessionQueueTask job
  | take _ _ => exact hv.outside rfl howners rfl rfl
  | busy _ _ => exact hv.outside rfl howners rfl rfl
  | enter hstage henter => exact hv.sessionRunEnter hstage henter
  | @none th sid hstage =>
      have hsession : (v.stage th).session = some sid := by
        rw [hstage]
        rfl
      apply hv.advance howners
      · exact fun th' sid _ h => hv.busy th' sid h
      · intro other h
        cases h
        exact ⟨hv.busy th sid hsession, fun th' hne h' => hne (hv.alone th' th sid h' hsession)⟩
      · exact hv.queued
      · intro other job h
        cases h
      · intro other tid h
        cases h
      · exact fun th' sid tid t _ h ht => hv.running th' sid tid t h ht
  | @skip th sid job entry sched hstage hrun _ =>
      have hsession : (v.stage th).session = some sid := by
        rw [hstage]
        rfl
      apply hv.advanceTask hsession (hv.popped th sid job hstage) howners
      · exact (Scheduler.sessions_taskRunEnter hrun).1
      · exact .inl rfl
      · intro h
        cases h
      · intro other t hne ht
        rw [Scheduler.taskRunEnter_of_ne hrun hne] at ht
        exact ⟨t, ht, rfl⟩
      · intro t ht
        rcases Scheduler.taskRunEnter_cases hrun with ⟨_, _, rfl⟩ | ⟨u, hu, _⟩ | ⟨u, hu, _⟩
        · exact ⟨t, ht⟩
        · exact ⟨u, hu⟩
        · exact ⟨u, hu⟩
  | @resume th sid job sched hstage hrun =>
      have hsession : (v.stage th).session = some sid := by
        rw [hstage]
        rfl
      rcases Scheduler.taskRunEnter_cases hrun with ⟨_, hentry, _⟩ | ⟨_, _, hentry, _⟩ |
        ⟨u, hu, _, rfl⟩
      · cases hentry
      · cases hentry
      · apply hv.advanceTask hsession (hv.popped th sid job hstage) howners
        · rfl
        · exact .inr rfl
        · intro _ t ht
          have heq : some { u with status := .running, refCount := u.refCount + 1 } = some t := by
            simpa [Scheduler.setTask] using ht
          cases heq
          rfl
        · intro other t hne ht
          rw [Scheduler.taskRunEnter_of_ne hrun hne] at ht
          exact ⟨t, ht, rfl⟩
        · exact fun _ _ => ⟨u, hu⟩
  | @leave th sid tid rc inChannel hstage _ =>
      have hsession : (v.stage th).session = some sid := by
        rw [hstage]
        rfl
      apply hv.advanceTask hsession (hv.inside th sid tid hstage) howners
      · exact (v.sched.sessions_taskRunLeave tid rc inChannel).1
      · exact .inl rfl
      · intro h
        cases h
      · intro other t hne ht
        obtain ⟨n, hu⟩ := Scheduler.taskRunLeave_of_ne hne ht
        exact ⟨_, hu, rfl⟩
      · intro t ht
        cases htask : v.sched.tasks tid with
        | none => simp [Scheduler.taskRunLeave, htask] at ht
        | some u => exact ⟨u, rfl⟩
  | finish hstage _ => exact hv.sessionRunLeave hstage

theorem exclusive_start (size : ChannelId → Int) : (State.start size).view.Exclusive where
  busy th sid h := by cases h
  alone th th' sid h := by cases h
  used tid t h := by cases h
  queued sid job h := by cases h
  popped th sid job h := by cases h
  inside th sid tid h := by cases h
  running th sid tid t h := by cases h

/-- A task whose status is `running` is being run. -/
def Attended (v : View) : Prop :=
  ∀ tid t, v.sched.tasks tid = some t → t.status = .running → ∃ th sid, v.stage th = .inside sid tid

theorem Attended.advance {v : View} (hv : v.Attended) {th : ThreadId} {st : Stage}
    {sched : Scheduler} (hstage : ∀ sid tid, v.stage th = .inside sid tid →
      ∀ t, sched.tasks tid = some t → t.status ≠ .running)
    (htasks : ∀ tid t, sched.tasks tid = some t → t.status = .running →
      (∃ sid, st = .inside sid tid) ∨ ∃ u, v.sched.tasks tid = some u ∧ u.status = .running) :
    Attended ⟨sched, Function.update v.stage th st⟩ := by
  intro tid t ht hrun
  rcases htasks tid t ht hrun with ⟨sid, rfl⟩ | ⟨u, hu, hstatus⟩
  · exact ⟨th, sid, Function.update_self th _ v.stage⟩
  · obtain ⟨th', sid, hth'⟩ := hv tid u hu hstatus
    have hne : th' ≠ th := by
      intro heq
      rw [heq] at hth'
      exact hstage sid tid hth' t ht hrun
    exact ⟨th', sid, (Function.update_of_ne hne st v.stage).trans hth'⟩

/-- The result codes of `lua_resume` after which `task_run` sets a new status. -/
def Settles (rc : LuaResult) : Prop :=
  rc = .ok ∨ rc = .yield ∨ rc = .errRun

theorem Attended.taskRunLeave {v : View} (hv : v.Attended) {th : ThreadId} {sid : SessionId}
    {tid : TaskId} {rc : LuaResult} (inChannel : Bool) (hstage : v.stage th = .inside sid tid)
    (hrc : Settles rc) :
    Attended ⟨v.sched.taskRunLeave tid rc inChannel, Function.update v.stage th (.ran sid)⟩ := by
  have hsettled : ∀ t, (v.sched.taskRunLeave tid rc inChannel).tasks tid = some t →
      t.status ≠ .running := by
    intro t ht
    obtain ⟨_, _, _, _, hstatus⟩ := Scheduler.taskRunLeave_self ht
    exact hstatus hrc
  apply hv.advance
  · intro sid' tid' h
    rw [hstage] at h
    cases h
    exact hsettled
  · intro tid' t ht hrun
    right
    by_cases htid : tid' = tid
    · subst htid
      exact absurd hrun (hsettled t ht)
    · obtain ⟨n, hu⟩ := Scheduler.taskRunLeave_of_ne htid ht
      exact ⟨_, hu, hrun⟩

theorem Attended.move {Q : ℕ → Prop} {v v' : View} (hv : v.Attended)
    (h : Move Settles Q v v') : v'.Attended := by
  have hsame : ∀ {sched : Scheduler} tid t, sched.tasks = v.sched.tasks →
      sched.tasks tid = some t → t.status = .running →
      ∃ u, v.sched.tasks tid = some u ∧ u.status = .running := by
    intro sched tid t htasks ht hrun
    rw [htasks] at ht
    exact ⟨t, ht, hrun⟩
  cases h with
  | still => exact hv
  | newTask sid =>
      intro tid t ht hrun
      by_cases htid : tid = v.sched.nextTask
      · subst htid
        have heq : some (Task.mk sid 1 .ready false) = some t := by
          simpa [Scheduler.taskNew, Scheduler.setTask] using ht
        cases heq
        cases hrun
      · have hold : v.sched.tasks tid = some t := by
          simpa [Scheduler.taskNew, Scheduler.setTask, htid] using ht
        exact hv tid t hold hrun
  | gcTask tid =>
      intro other t ht hrun
      obtain ⟨n, hu⟩ := Scheduler.tasks_taskFree ht
      exact hv other _ hu hrun
  | queue job =>
      intro tid t ht hrun
      have hold : v.sched.tasks tid = some t := by
        rw [← v.sched.tasks_sessionQueueTask job, ht]
      exact hv tid t hold hrun
  | take hstage _ =>
      apply hv.advance
      · simp [hstage]
      · exact fun tid t ht hrun => .inr (hsame tid t rfl ht hrun)
  | busy hstage _ =>
      apply hv.advance
      · simp [hstage]
      · exact fun tid t ht hrun => .inr (hsame tid t rfl ht hrun)
  | enter hstage henter =>
      obtain ⟨_, _, rfl⟩ := Scheduler.sessionRunEnter_eq_some.mp henter
      apply hv.advance
      · simp [hstage]
      · exact fun tid t ht hrun => .inr (hsame tid t rfl ht hrun)
  | none hstage =>
      apply hv.advance
      · simp [hstage]
      · exact fun tid t ht hrun => .inr (hsame tid t rfl ht hrun)
  | @skip th sid job entry sched hstage hrun hentry =>
      apply hv.advance
      · simp [hstage]
      · intro tid t ht hrunning
        right
        rcases Scheduler.taskRunEnter_cases hrun with ⟨_, _, rfl⟩ | ⟨u, _, _, rfl⟩ |
          ⟨_, _, hresumed, _⟩
        · exact hsame tid t rfl ht hrunning
        · by_cases htid : tid = job.tid
          · subst htid
            have heq : some { u with status := .finished } = some t := by
              simpa [Scheduler.setTask] using ht
            cases heq
            cases hrunning
          · exact ⟨t, by simpa [Scheduler.setTask, htid] using ht, hrunning⟩
        · exact absurd hresumed hentry
  | @resume th sid job sched hstage hrun =>
      apply hv.advance
      · simp [hstage]
      · intro tid t ht hrunning
        by_cases htid : tid = job.tid
        · subst htid
          exact .inl ⟨sid, rfl⟩
        · rw [Scheduler.taskRunEnter_of_ne hrun htid] at ht
          exact .inr ⟨t, ht, hrunning⟩
  | leave inChannel hstage hrc => exact hv.taskRunLeave inChannel hstage hrc
  | @finish th sid hstage _ =>
      have htasks := v.sched.tasks_sessionRunLeave sid
      apply hv.advance
      · simp [hstage]
      · exact fun tid t ht hrun => .inr (hsame tid t htasks ht hrun)

/-- A worker about to enter `task_run` finds a task that no thread is running. -/
theorem Exclusive.not_running {v : View} (hv : v.Exclusive) (hatt : v.Attended) {th : ThreadId}
    {sid : SessionId} {job : Job} {t : Task} (hstage : v.stage th = .popped sid (some job))
    (ht : v.sched.tasks job.tid = some t) : t.status ≠ .running := by
  intro hrun
  obtain ⟨th', sid', hth'⟩ := hatt job.tid t ht hrun
  have hsession : (v.stage th).session = some sid := by
    rw [hstage]
    rfl
  have hsession' : (v.stage th').session = some sid' := by
    rw [hth']
    rfl
  have heq := hv.eq_of_owned hsession hsession' ht (hv.popped th sid job hstage)
    (hv.inside th' sid' job.tid hth')
  rw [heq, hth'] at hstage
  cases hstage

end View

/-- At most one thread is between setting a session's status to `running` and setting it back. -/
def State.OneRunner (s : State) : Prop :=
  ∀ sid th th', (s.pc th).stage.session = some sid → (s.pc th').stage.session = some sid → th = th'

/-- A thread that is about to call `task_run` finds the task in another status than `running`. -/
def State.NeverReentered (s : State) : Prop :=
  ∀ th sid job t, s.pc th = .popped sid (some job) → s.sched.tasks job.tid = some t →
    t.status ≠ .running

theorem State.oneRunner_throughout (size : ChannelId → Int) (steps : List Label) :
    Throughout State.step State.OneRunner (State.start size) steps :=
  throughout_of_invariant (I := fun s => s.view.Exclusive)
    (fun _ _ _ hs hnext => hs.move (anyMove_of_step hnext))
    (fun _ hs sid th th' h h' => hs.alone th th' sid h h') (View.exclusive_start size) steps

theorem State.neverReentered_throughout (size : ChannelId → Int) (steps : List Label)
    (hrc : ∀ a ∈ steps, ∀ rc, a.result = some rc → View.Settles rc) :
    Throughout State.step State.NeverReentered (State.start size) steps := by
  have hmove : ∀ v v', (View.Exclusive v ∧ View.Attended v) →
      Move View.Settles (fun _ => True) v v' → View.Exclusive v' ∧ View.Attended v' :=
    fun _ _ hv h => ⟨hv.1.move h, hv.2.move h⟩
  have hguard : Respects State.step (fun s a => (∀ rc, a.result = some rc → View.Settles rc) ∧
      ∀ n ∈ s.jobsLeft a, True) (State.start size) steps :=
    (respects_of_forall hrc _).mono fun _ _ h => ⟨h, fun _ _ => trivial⟩
  have hstart : (State.start size).view.Attended := by
    intro tid t ht
    cases ht
  have himp : ∀ s : State, s.view.Exclusive ∧ s.view.Attended → s.NeverReentered := by
    intro s hs th sid job t hpc ht
    have hstage : s.view.stage th = .popped sid (some job) := congrArg Pc.stage hpc
    exact hs.1.not_running hs.2 hstage ht
  exact throughout_of_move hmove himp ⟨View.exclusive_start size, hstart⟩ hguard

/-- Two runs of one session never overlap in any interleaving; and as long as `lua_resume`
returns only 0, `LUA_YIELD` or `LUA_ERRRUN`, no task is entered while its status is `running`. -/
theorem State.exclusion_throughout (size : ChannelId → Int) (steps : List Label) :
    Throughout State.step State.OneRunner (State.start size) steps ∧
      ((∀ a ∈ steps, ∀ rc, a.result = some rc → rc = .ok ∨ rc = .yield ∨ rc = .errRun) →
        Throughout State.step State.NeverReentered (State.start size) steps) :=
  ⟨oneRunner_throughout size steps, neverReentered_throughout size steps⟩

/-- Task 1 is started twice over, by two workers that find two entries of session 0. -/
theorem State.exclusion_two_workers :
    let steps : List Label := [.newTask 0, .queueTask 1 true, .queueTask 1 true, .take 0, .take 1,
      .enter 0, .taskRun 0, .enter 1, .ended 0 .yield, .finish 0]
    (∃ final, run State.step (State.start fun _ => 0) steps = some final) ∧
      Throughout State.step State.OneRunner (State.start fun _ => 0) steps ∧
      Throughout State.step State.NeverReentered (State.start fun _ => 0) steps := by
  intro steps
  have hrc : ∀ a ∈ steps, ∀ rc, a.result = some rc → rc = .ok ∨ rc = .yield ∨ rc = .errRun := by
    simp [steps, Label.result]
  have hboth := State.exclusion_throughout (fun _ => 0) steps
  exact ⟨⟨_, rfl⟩, hboth.1, hboth.2 hrc⟩

end Casting.Runtime
