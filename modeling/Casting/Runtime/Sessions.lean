import Casting.Runtime.Stages

/-!
# Sessions

Two invariants of the abstract machine, for any number of producers and workers: a session
with queued jobs is always about to be run, and it is run by one worker at a time.
-/

namespace Casting.Runtime

open Transition

namespace Scheduler

/-! ### What an operation leaves alone -/

theorem sessions_taskFree (sc : Scheduler) (tid : TaskId) :
    (sc.taskFree tid).sessions = sc.sessions ∧ (sc.taskFree tid).pool = sc.pool ∧
      (sc.taskFree tid).nextTask = sc.nextTask := by
  unfold taskFree
  split
  · exact ⟨rfl, rfl, rfl⟩
  · split <;> exact ⟨rfl, rfl, rfl⟩

theorem sessions_taskRunLeave (sc : Scheduler) (tid : TaskId) (rc : LuaResult)
    (inChannel : Bool) :
    (sc.taskRunLeave tid rc inChannel).sessions = sc.sessions ∧
      (sc.taskRunLeave tid rc inChannel).pool = sc.pool ∧
      (sc.taskRunLeave tid rc inChannel).nextTask = sc.nextTask := by
  unfold taskRunLeave
  split
  · exact ⟨rfl, rfl, rfl⟩
  · exact sessions_taskFree _ tid

theorem taskRunEnter_cases {sc sched : Scheduler} {job : Job} {entry : Entry}
    (h : sc.taskRunEnter job = (entry, sched)) :
    (sc.tasks job.tid = none ∧ entry = .gone ∧ sched = sc) ∨
    (∃ t, sc.tasks job.tid = some t ∧ entry = .skipped ∧
      sched = sc.setTask job.tid (some { t with status := .finished })) ∨
    (∃ t, sc.tasks job.tid = some t ∧ entry = .resumed ∧
      sched = sc.setTask job.tid
        (some { t with status := .running, refCount := t.refCount + 1 })) := by
  unfold taskRunEnter at h
  split at h
  · rename_i hnone
    cases h
    exact .inl ⟨hnone, rfl, rfl⟩
  · rename_i t hsome
    split at h
    · split at h <;> cases h
      · exact .inr (.inl ⟨t, hsome, rfl, rfl⟩)
      · exact .inr (.inr ⟨t, hsome, rfl, rfl⟩)
    · cases h
      exact .inr (.inr ⟨t, hsome, rfl, rfl⟩)
    · cases h
      exact .inr (.inl ⟨t, hsome, rfl, rfl⟩)

theorem sessions_taskRunEnter {sc sched : Scheduler} {job : Job} {entry : Entry}
    (h : sc.taskRunEnter job = (entry, sched)) :
    sched.sessions = sc.sessions ∧ sched.pool = sc.pool ∧ sched.nextTask = sc.nextTask := by
  rcases taskRunEnter_cases h with ⟨_, _, rfl⟩ | ⟨t, _, _, rfl⟩ | ⟨t, _, _, rfl⟩ <;>
    exact ⟨rfl, rfl, rfl⟩

theorem sessionQueueTask_cases (sc : Scheduler) (job : Job) :
    (sc.tasks job.tid = none ∧ sc.sessionQueueTask job = sc) ∨
    ∃ t, sc.tasks job.tid = some t ∧
      (sc.sessionQueueTask job).tasks = sc.tasks ∧
      (sc.sessionQueueTask job).nextTask = sc.nextTask ∧
      (sc.sessionQueueTask job).sessions = Function.update sc.sessions t.sid
        { sc.sessions t.sid with
          tasks := (sc.sessions t.sid).tasks ++ [job],
          accepted := (sc.sessions t.sid).accepted ++ [job] } ∧
      (sc.sessionQueueTask job).pool =
        sc.pool ++ if (sc.sessions t.sid).status = .ready then [t.sid] else [] := by
  cases htask : sc.tasks job.tid with
  | none =>
      left
      exact ⟨rfl, by simp only [sessionQueueTask, htask]⟩
  | some t =>
      right
      refine ⟨t, rfl, ?_⟩
      by_cases hready : (sc.sessions t.sid).status = .ready
      · simp [sessionQueueTask, htask, hready, submit, setSession, queuePush]
      · simp [sessionQueueTask, htask, hready, setSession, queuePush]

theorem sessionRunEnter_eq_none {sc : Scheduler} {sid : SessionId} :
    sc.sessionRunEnter sid = none ↔ (sc.sessions sid).status = .running := by
  simp [sessionRunEnter]

theorem sessionRunEnter_eq_some {sc sched : Scheduler} {sid : SessionId} {job : Option Job} :
    sc.sessionRunEnter sid = some (sched, job) ↔
      (sc.sessions sid).status ≠ .running ∧ job = (queuePop (sc.sessions sid).tasks).1 ∧
        sched = sc.setSession sid
          { sc.sessions sid with
            status := .running,
            tasks := (queuePop (sc.sessions sid).tasks).2,
            popped := (sc.sessions sid).popped ++ job.toList } := by
  by_cases hbusy : (sc.sessions sid).status = .running
  · simp [sessionRunEnter, hbusy]
  · simp only [sessionRunEnter, hbusy, if_false, ne_eq, not_false_eq_true, true_and,
      Option.some.injEq, Prod.mk.injEq]
    constructor
    · rintro ⟨rfl, rfl⟩
      exact ⟨rfl, rfl⟩
    · rintro ⟨rfl, rfl⟩
      exact ⟨rfl, rfl⟩

end Scheduler

/-! ### No job is stranded -/

/-- An `int` tells so many jobs from none. -/
def Seen (n : ℕ) : Prop := 2 ^ 32 ∣ n → n = 0

instance (n : ℕ) : Decidable (Seen n) := inferInstanceAs (Decidable (2 ^ 32 ∣ n → n = 0))

theorem queueSize_eq_zero_iff_of_seen {tasks : Queue Job} (hseen : Seen tasks.length) :
    queueSize tasks = 0 ↔ tasks = [] := by
  rw [queueSize_eq_zero_iff]
  constructor
  · exact fun hdvd => List.eq_nil_of_length_eq_zero (hseen hdvd)
  · rintro rfl
    exact Nat.dvd_zero _

namespace View

/-- A `session_thread` entry of the session is in the pool, or was taken by a worker that is
not yet in the first locked section of `session_run`. -/
def Awaited (v : View) (sid : SessionId) : Prop :=
  sid ∈ v.sched.pool ∨ ∃ th, v.stage th = .entered sid

structure Served (v : View) : Prop where
  settled : ∀ sid, (v.sched.sessions sid).status = .ready ∨
    (v.sched.sessions sid).status = .running
  awaited : ∀ sid, (v.sched.sessions sid).tasks ≠ [] →
    (v.sched.sessions sid).status ≠ .running → v.Awaited sid
  inOrder : ∀ sid, (v.sched.sessions sid).accepted =
    (v.sched.sessions sid).popped ++ (v.sched.sessions sid).tasks

/-- An entry survives every change that does not take it from the pool and does not move a
worker on that has it. -/
theorem Awaited.mono {v v' : View} {sid : SessionId} (h : v.Awaited sid)
    (hpool : ∀ x ∈ v.sched.pool, x ∈ v'.sched.pool ∨ ∃ th, v'.stage th = .entered x)
    (hstage : ∀ th, v.stage th = .entered sid → v'.stage th = .entered sid) :
    v'.Awaited sid := by
  rcases h with hmem | ⟨th, hth⟩
  · exact hpool sid hmem
  · exact .inr ⟨th, hstage th hth⟩

theorem entered_update {stage : ThreadId → Stage} {th : ThreadId} {st : Stage} {sid : SessionId}
    (hne : stage th ≠ .entered sid) (other : ThreadId) (h : stage other = .entered sid) :
    Function.update stage th st other = .entered sid := by
  have hother : other ≠ th := by
    intro heq
    rw [heq] at h
    exact hne h
  rw [Function.update_of_ne hother]
  exact h

theorem Served.keep {v v' : View} (hv : v.Served)
    (hsessions : v'.sched.sessions = v.sched.sessions) (hpool : v'.sched.pool = v.sched.pool)
    (hstage : ∀ sid th, v.stage th = .entered sid → v'.stage th = .entered sid) : v'.Served where
  settled := by
    rw [hsessions]
    exact hv.settled
  awaited sid := by
    rw [hsessions]
    intro hne hidle
    have hmem : ∀ x ∈ v.sched.pool, x ∈ v'.sched.pool ∨ ∃ th, v'.stage th = .entered x := by
      rw [hpool]
      exact fun x hx => .inl hx
    exact (hv.awaited sid hne hidle).mono hmem (hstage sid)
  inOrder := by
    rw [hsessions]
    exact hv.inOrder

theorem Served.change {v v' : View} {sid : SessionId} {s : Session} (hv : v.Served)
    (hsessions : v'.sched.sessions = Function.update v.sched.sessions sid s)
    (hpool : ∀ x ∈ v.sched.pool, x ∈ v'.sched.pool)
    (hstage : ∀ other th, other ≠ sid → v.stage th = .entered other →
      v'.stage th = .entered other)
    (hsettled : s.status = .ready ∨ s.status = .running)
    (hawaited : s.tasks ≠ [] → s.status ≠ .running → v'.Awaited sid)
    (hinOrder : s.accepted = s.popped ++ s.tasks) : v'.Served where
  settled other := by
    by_cases hother : other = sid
    · subst hother
      simpa [hsessions] using hsettled
    · simpa [hsessions, hother] using hv.settled other
  awaited other := by
    by_cases hother : other = sid
    · subst hother
      simpa [hsessions] using hawaited
    · simp only [hsessions, Function.update_of_ne hother]
      intro hne hidle
      exact (hv.awaited other hne hidle).mono (fun x hx => .inl (hpool x hx))
        (fun th hth => hstage other th hother hth)
  inOrder other := by
    by_cases hother : other = sid
    · subst hother
      simpa [hsessions] using hinOrder
    · simpa [hsessions, hother] using hv.inOrder other

theorem Served.sessionQueueTask {v : View} (hv : v.Served) (job : Job) :
    Served { v with sched := v.sched.sessionQueueTask job } := by
  rcases v.sched.sessionQueueTask_cases job with ⟨_, heq⟩ | ⟨t, _, _, _, hsessions, hpool⟩
  · rw [heq]
    exact hv
  · have hlog := hv.inOrder t.sid
    apply hv.change hsessions
    · intro x hx
      rw [hpool]
      exact List.mem_append_left _ hx
    · exact fun _ _ _ h => h
    · exact hv.settled t.sid
    · intro _ hidle
      have hready : (v.sched.sessions t.sid).status = .ready :=
        (hv.settled t.sid).resolve_right hidle
      left
      rw [hpool]
      simp [hready]
    · rw [hlog, List.append_assoc]

theorem Served.sessionRunEnter {v : View} {th : ThreadId} {sid : SessionId} {sched : Scheduler}
    {job : Option Job} (hv : v.Served) (hstage : v.stage th = .entered sid)
    (henter : v.sched.sessionRunEnter sid = some (sched, job)) :
    Served ⟨sched, Function.update v.stage th (.popped sid job)⟩ := by
  obtain ⟨_, hjob, rfl⟩ := Scheduler.sessionRunEnter_eq_some.mp henter
  have hlog := hv.inOrder sid
  apply hv.change rfl
  · exact fun _ hx => hx
  · intro other th' hother hth'
    apply entered_update _ th' hth'
    rw [hstage]
    intro heq
    cases heq
    exact hother rfl
  · exact .inr rfl
  · intro _ hidle
    exact absurd rfl hidle
  · rw [hlog, hjob]
    cases (v.sched.sessions sid).tasks <;> simp

theorem Served.sessionRunLeave {v : View} {th : ThreadId} {sid : SessionId} (hv : v.Served)
    (hstage : v.stage th = .ran sid) (hseen : Seen (v.sched.sessions sid).tasks.length) :
    Served ⟨v.sched.sessionRunLeave sid, Function.update v.stage th .outside⟩ := by
  have hkeep : ∀ other th', other ≠ sid → v.stage th' = .entered other →
      Function.update v.stage th .outside th' = .entered other := by
    intro other th' _ hth'
    apply entered_update _ th' hth'
    rw [hstage]
    intro heq
    cases heq
  by_cases hempty : queueSize (v.sched.sessions sid).tasks = 0
  · have hnil := (queueSize_eq_zero_iff_of_seen hseen).mp hempty
    simp only [Scheduler.sessionRunLeave, hempty, if_true]
    apply hv.change rfl
    · exact fun _ hx => hx
    · exact hkeep
    · exact .inl rfl
    · intro hne
      exact absurd hnil hne
    · exact hv.inOrder sid
  · simp only [Scheduler.sessionRunLeave, hempty, if_false]
    apply hv.change rfl
    · intro x hx
      exact List.mem_append_left _ hx
    · exact hkeep
    · exact .inl rfl
    · intro _ _
      left
      simp [Scheduler.submit, queuePush]
    · exact hv.inOrder sid

theorem Served.move {R : LuaResult → Prop} {v v' : View} (hv : v.Served)
    (h : Move R Seen v v') : v'.Served := by
  have hmoved : ∀ {th : ThreadId} (st : Stage), (∀ sid, v.stage th ≠ .entered sid) →
      ∀ sid th', v.stage th' = .entered sid →
        Function.update v.stage th st th' = .entered sid :=
    fun _ hne sid th' hth' => entered_update (hne sid) th' hth'
  cases h with
  | still => exact hv
  | newTask sid => exact hv.keep rfl rfl fun _ _ h => h
  | gcTask tid =>
      have hsame := v.sched.sessions_taskFree tid
      exact hv.keep hsame.1 hsame.2.1 fun _ _ h => h
  | queue job => exact hv.sessionQueueTask job
  | @take th sid pool hstage hpool =>
      refine ⟨hv.settled, ?_, hv.inOrder⟩
      intro other hne hidle
      apply (hv.awaited other hne hidle).mono
      · intro x hx
        rw [hpool] at hx
        rcases List.mem_cons.mp hx with rfl | hx
        · exact .inr ⟨th, Function.update_self th _ v.stage⟩
        · exact .inl hx
      · exact hmoved _ (by simp [hstage]) other
  | @busy th sid hstage hbusy =>
      refine ⟨hv.settled, ?_, hv.inOrder⟩
      intro other hne hidle
      have hother : other ≠ sid := by
        intro heq
        rw [heq] at hidle
        exact hidle (Scheduler.sessionRunEnter_eq_none.mp hbusy)
      apply (hv.awaited other hne hidle).mono
      · exact fun x hx => .inl hx
      · apply entered_update
        rw [hstage]
        intro heq
        cases heq
        exact hother rfl
  | enter hstage henter => exact hv.sessionRunEnter hstage henter
  | none hstage => exact hv.keep rfl rfl (hmoved _ (by simp [hstage]))
  | skip hstage hrun _ =>
      have hsame := Scheduler.sessions_taskRunEnter hrun
      exact hv.keep hsame.1 hsame.2.1 (hmoved _ (by simp [hstage]))
  | resume hstage hrun =>
      have hsame := Scheduler.sessions_taskRunEnter hrun
      exact hv.keep hsame.1 hsame.2.1 (hmoved _ (by simp [hstage]))
  | @leave th sid tid rc inChannel hstage _ =>
      have hsame := v.sched.sessions_taskRunLeave tid rc inChannel
      exact hv.keep hsame.1 hsame.2.1 (hmoved _ (by simp [hstage]))
  | finish hstage hseen => exact hv.sessionRunLeave hstage hseen

theorem served_start (size : ChannelId → Int) : (State.start size).view.Served where
  settled _ := .inl rfl
  awaited _ hne := absurd rfl hne
  inOrder _ := rfl

end View

/-! ### What a run leaves behind -/

namespace State

theorem queued_run {s : State} {tid : TaskId} {t : Task} (ht : s.sched.tasks tid = some t)
    (hrunning : (s.sched.sessions t.sid).status = .running) (n : ℕ) :
    ∃ final, run step s (List.replicate n (.queueTask tid true)) = some final ∧
      final.sched.pool = s.sched.pool ∧ final.pc = s.pc ∧
      (final.sched.sessions t.sid).tasks.length =
        (s.sched.sessions t.sid).tasks.length + n := by
  induction n generalizing s with
  | zero => exact ⟨s, rfl, rfl, rfl, rfl⟩
  | succ n ih =>
      set job : Job := ⟨tid, some s.store.msgNew.1⟩ with hjob
      set next : State :=
        { s with sched := s.sched.sessionQueueTask job, store := s.store.msgNew.2 } with hnext
      have hqueued : s.sched.sessionQueueTask job =
          s.sched.setSession t.sid { s.sched.sessions t.sid with
            tasks := (s.sched.sessions t.sid).tasks ++ [job]
            accepted := (s.sched.sessions t.sid).accepted ++ [job] } := by
        simp [Scheduler.sessionQueueTask, hjob, ht, hrunning, queuePush]
      have hsession : next.sched.sessions t.sid = { s.sched.sessions t.sid with
          tasks := (s.sched.sessions t.sid).tasks ++ [job]
          accepted := (s.sched.sessions t.sid).accepted ++ [job] } := by
        simp only [hnext, hqueued, Scheduler.setSession, Function.update_self]
      have htasks : next.sched.tasks = s.sched.tasks := by
        simp only [hnext, hqueued, Scheduler.setSession]
      have hpool : next.sched.pool = s.sched.pool := by
        simp only [hnext, hqueued, Scheduler.setSession]
      obtain ⟨final, hrun, hpool', hpc, hlength⟩ :=
        @ih next (by rw [htasks, ht]) (by rw [hsession]; exact hrunning)
      refine ⟨final, ?_, hpool'.trans hpool, hpc, ?_⟩
      · rw [List.replicate_succ]
        exact run_cons_eq_some.mpr ⟨next, rfl, hrun⟩
      · rw [hlength, hsession]
        simp only [List.length_append, List.length_singleton]
        omega

theorem taskRun_sched {s : State} (th : ThreadId) (sid : SessionId) (job : Job) :
    (s.taskRunEnter th sid job).sched.sessions = s.sched.sessions ∧
      (s.taskRunEnter th sid job).sched.pool = s.sched.pool := by
  obtain ⟨_, _, _, _, hsched, _⟩ := s.taskRunEnter_spec th sid job
  rw [hsched]
  have hsame : ∀ r, s.sched.taskRunEnter job = r →
      r.2.sessions = s.sched.sessions ∧ r.2.pool = s.sched.pool :=
    fun _ hr => have h := Scheduler.sessions_taskRunEnter hr; ⟨h.1, h.2.1⟩
  exact hsame _ rfl

theorem leave_run {s : State} {th : ThreadId} {sid : SessionId} {job : Job}
    (hpc : s.pc th = .popped sid (some job)) :
    ∃ rest final, run step s rest = some final ∧ final.pc = Function.update s.pc th .idle ∧
      final.sched.sessions = (s.sched.sessionRunLeave sid).sessions ∧
      final.sched.pool = (s.sched.sessionRunLeave sid).pool := by
  obtain ⟨p, hp, hpc', _⟩ := s.taskRunEnter_spec th sid job
  have hleave : ∀ sc : Scheduler, sc.sessions = s.sched.sessions → sc.pool = s.sched.pool →
      (sc.sessionRunLeave sid).sessions = (s.sched.sessionRunLeave sid).sessions ∧
        (sc.sessionRunLeave sid).pool = (s.sched.sessionRunLeave sid).pool := by
    intro sc hsessions hpool
    unfold Scheduler.sessionRunLeave
    simp only [hsessions]
    split <;> simp [Scheduler.setSession, Scheduler.submit, hsessions, hpool]
  obtain ⟨hsessions, hpool⟩ := taskRun_sched th sid job
  have htaskRun : s.step (.taskRun th) = some (s.taskRunEnter th sid job) := by
    simp only [step, hpc]
  have hself : (s.taskRunEnter th sid job).pc th = p := by rw [hpc', Function.update_self]
  set entered := s.taskRunEnter th sid job
  rcases hp with rfl | rfl
  · refine ⟨[.taskRun th, .finish th],
      { entered with sched := entered.sched.sessionRunLeave sid }.setPc th .idle, ?_, ?_,
      hleave _ hsessions hpool⟩
    · have hfinish : entered.step (.finish th) =
          some ({ entered with sched := entered.sched.sessionRunLeave sid }.setPc th .idle) := by
        simp only [step, hself]
      exact run_cons_eq_some.mpr ⟨_, htaskRun, run_cons_eq_some.mpr ⟨_, hfinish, rfl⟩⟩
    · rw [pc_setPc]
      change Function.update entered.pc th _ = _
      rw [hpc', Function.update_idem]
  · set ended := entered.sched.taskRunLeave job.tid .ok false with hended
    have hsame := entered.sched.sessions_taskRunLeave job.tid .ok false
    rw [← hended] at hsame
    set after := { entered with sched := ended }.setPc th (.ran sid) with hafter
    refine ⟨[.taskRun th, .ended th .ok, .finish th],
      { after with sched := ended.sessionRunLeave sid }.setPc th .idle, ?_, ?_,
      hleave _ (hsame.1.trans hsessions) (hsame.2.1.trans hpool)⟩
    · have hend : entered.step (.ended th .ok) = some after := by
        simp only [step, hself]
        rfl
      have hself' : after.pc th = .ran sid := by
        rw [hafter, pc_setPc, Function.update_self]
      have hfinish : after.step (.finish th) =
          some ({ after with sched := ended.sessionRunLeave sid }.setPc th .idle) := by
        simp only [step, hself']
        rfl
      exact run_cons_eq_some.mpr ⟨_, htaskRun,
        run_cons_eq_some.mpr ⟨_, hend, run_cons_eq_some.mpr ⟨_, hfinish, rfl⟩⟩⟩
    · rw [pc_setPc]
      change Function.update after.pc th _ = _
      rw [hafter, pc_setPc, Function.update_idem]
      change Function.update entered.pc th _ = _
      rw [hpc', Function.update_idem]

end State

/-- A session with queued jobs that is not running has its `session_thread` entry in the pool or
in the hands of a worker that has not yet entered `session_run`'s first locked section; and the
jobs popped so far, followed by those still queued, are the jobs accepted, in that order. -/
def State.JobsServed (s : State) : Prop :=
  ∀ sid, ((s.sched.sessions sid).tasks ≠ [] → (s.sched.sessions sid).status ≠ .running →
      sid ∈ s.sched.pool ∨ ∃ th, s.pc th = .entered sid) ∧
    (s.sched.sessions sid).accepted =
      (s.sched.sessions sid).popped ++ (s.sched.sessions sid).tasks

theorem Pc.eq_entered_of_stage {p : Pc} {sid : SessionId} (h : p.stage = .entered sid) :
    p = .entered sid := by
  cases p with
  | entered other =>
      cases h
      rfl
  | testing f | locking f | calling f | queueing f =>
      cases f <;> cases h
  | _ => cases h

theorem State.jobsServed_of_served {s : State} (h : s.view.Served) : s.JobsServed := by
  intro sid
  constructor
  · intro hne hidle
    rcases h.awaited sid hne hidle with hmem | ⟨th, hth⟩
    · exact .inl hmem
    · exact .inr ⟨th, Pc.eq_entered_of_stage hth⟩
  · exact h.inOrder sid

/-- The second locked section of `session_run` does not find jobs that `queue_size` counts as
none: a multiple of 2^32 of them. -/
def State.SeesJobs (s : State) (a : Label) : Prop := ∀ n ∈ s.jobsLeft a, Seen n

instance (s : State) (a : Label) : Decidable (s.SeesJobs a) :=
  inferInstanceAs (Decidable (∀ n ∈ s.jobsLeft a, Seen n))

theorem State.SeesJobs.move {s next : State} {a : Label} (hsees : s.SeesJobs a)
    (h : s.step a = some next) : Move (fun _ => True) Seen s.view next.view :=
  move_of_step h (fun _ _ => trivial) hsees

/-- No session job is stranded, lost or reordered in any interleaving in which `session_run` sees
the jobs that it leaves. -/
theorem State.jobsServed_throughout (size : ChannelId → Int) (steps : List Label)
    (hsees : Respects State.step State.SeesJobs (State.start size) steps) :
    Throughout State.step State.JobsServed (State.start size) steps :=
  throughout_of_respects (I := fun s => s.view.Served)
    (fun _ _ _ hs hsees hnext => hs.move (hsees.move hnext)) (fun _ => jobsServed_of_served)
    (View.served_start size) hsees

/-- A second job is queued while the first is run: the session is submitted again. -/
theorem State.jobsServed_throughout_two :
    Throughout State.step State.JobsServed (State.start fun _ => 0)
      [.newTask 0, .queueTask 1 true, .take 0, .enter 0, .queueTask 1 true, .taskRun 0,
        .ended 0 .yield, .finish 0, .take 1, .enter 1] :=
  State.jobsServed_throughout (fun _ => 0) _ (by decide)

/-- 2^32 jobs are queued behind one that runs: `session_run` counts them as none, and leaves them
there with no entry in the pool. -/
theorem State.jobsServed_fails :
    ¬ ∀ (size : ChannelId → Int) (steps : List Label),
      Throughout State.step State.JobsServed (State.start size) steps := by
  intro hall
  obtain ⟨s, hs, hpc, hentered, ht, hpool, hrunning, htasks⟩ : ∃ s,
      run State.step (start fun _ => 0)
        [.newTask 0, .queueTask 1 true, .take 0, .enter 0] = some s ∧
      s.pc 0 = .popped 0 (some ⟨1, some 0⟩) ∧ (∀ th, s.pc th ≠ .entered 0) ∧
      s.sched.tasks 1 = some ⟨0, 1, .ready, false⟩ ∧ s.sched.pool = [] ∧
      (s.sched.sessions 0).status = .running ∧ (s.sched.sessions 0).tasks = [] := by
    refine ⟨_, rfl, rfl, fun th h => ?_, rfl, rfl, rfl, rfl⟩
    cases th <;> cases h
  obtain ⟨s', hs', hpool', hpc', hlength⟩ := queued_run ht hrunning (2 ^ 32)
  rw [htasks, List.length_nil, Nat.zero_add] at hlength
  obtain ⟨rest, final, hfinal, hpcs, hsessions, hentries⟩ :=
    @leave_run s' 0 0 ⟨1, some 0⟩ (by rw [hpc', hpc])
  have hrun : run State.step (start fun _ => 0)
      ([.newTask 0, .queueTask 1 true, .take 0, .enter 0] ++
        (List.replicate (2 ^ 32) (.queueTask 1 true) ++ rest)) = some final := by
    rw [run_append, hs, Option.bind_some, run_append, hs', Option.bind_some, hfinal]
  have hzero : queueSize (s'.sched.sessions 0).tasks = 0 := by
    rw [queueSize_eq_zero_iff]
    exact hlength ▸ Nat.dvd_refl _
  have hready : final.sched.sessions 0 =
      { s'.sched.sessions 0 with status := .ready, sem := (s'.sched.sessions 0).sem + 1 } := by
    rw [hsessions]
    simp [Scheduler.sessionRunLeave, Scheduler.setSession, hzero]
  have hstranded := ((hall (fun _ => 0) _).last hrun 0).1
  rw [hready] at hstranded
  have hne : (s'.sched.sessions 0).tasks ≠ [] := by
    rw [← List.length_pos_iff, hlength]
    decide
  rcases hstranded hne (by simp) with hmem | ⟨th, hth⟩
  · rw [hentries] at hmem
    simp [Scheduler.sessionRunLeave, Scheduler.setSession, hzero, hpool', hpool] at hmem
  · rw [hpcs, hpc'] at hth
    by_cases hzeroth : th = 0
    · rw [hzeroth, Function.update_self] at hth
      cases hth
    · rw [Function.update_of_ne hzeroth] at hth
      exact hentered th hth

end Casting.Runtime
