import Casting.Framework.Line
import Casting.Runtime.Settling

/-!
# Turns

The pool is a waiting line of sessions.  A session that goes through it and has jobs left joins it
again at the end, so the jobs of a session are not held up for ever by those of others.
-/

namespace Casting.Runtime

open Line Transition

/-- The sessions that `session_queue_task` submits when it is called for the task. -/
def Scheduler.submitted (sc : Scheduler) (tid : TaskId) : List SessionId :=
  match sc.tasks tid with
  | none => []
  | some t => if (sc.sessions t.sid).status = .ready then [t.sid] else []

namespace State

/-- The sessions that a step submits to the pool. -/
def submits (s : State) : Label → List SessionId
  | .queueTask tid _ => s.sched.submitted tid
  | .queue th =>
      match s.pc th with
      | .queueing _ _ job _ _ => s.sched.submitted job.tid
      | _ => []
  | .finish th =>
      match s.pc th with
      | .ran sid => if queueSize (s.sched.sessions sid).tasks = 0 then [] else [sid]
      | _ => []
  | _ => []

/-- The session whose entry a worker takes from the pool. -/
def takes (s : State) : Label → List SessionId
  | .take _ => s.sched.pool.head?.toList
  | _ => []

/-- Nobody runs the session, and no worker that took an entry of it is yet to look at it. -/
def BetweenTurns (sid : SessionId) (s : State) : Prop :=
  (s.sched.sessions sid).status ≠ .running ∧ ∀ th, s.pc th ≠ .entered sid

end State

/-! ### The pool -/

theorem Scheduler.pool_sessionQueueTask (sc : Scheduler) (job : Job) :
    (sc.sessionQueueTask job).pool = sc.pool ++ sc.submitted job.tid := by
  rcases sc.sessionQueueTask_cases job with ⟨hnone, heq⟩ | ⟨t, hsome, _, _, _, hpool⟩
  · rw [heq]
    simp [submitted, hnone]
  · rw [hpool]
    simp only [submitted, hsome]

theorem Scheduler.pool_sessionRunLeave (sc : Scheduler) (sid : SessionId) :
    (sc.sessionRunLeave sid).pool =
      sc.pool ++ if queueSize (sc.sessions sid).tasks = 0 then [] else [sid] := by
  by_cases hempty : queueSize (sc.sessions sid).tasks = 0
  · simp [sessionRunLeave, setSession, hempty]
  · simp [sessionRunLeave, submit, setSession, queuePush, hempty]

theorem firstInFirstOut :
    FirstInFirstOut State.step (fun s => s.sched.pool) State.submits State.takes := by
  intro s a next h
  have hsame : ∀ {sched : Scheduler}, sched.pool = s.sched.pool →
      s.sched.pool ++ [] = [] ++ sched.pool := by
    intro sched hpool
    rw [hpool, List.append_nil, List.nil_append]
  cases step_cases h with
  | newTask | refuse => exact hsame rfl
  | gcTask tid => exact hsame (s.sched.sessions_taskFree tid).2.1
  | queueTask tid => exact (s.sched.pool_sessionQueueTask ⟨tid, none⟩).symm
  | queueMessage tid => exact (s.sched.pool_sessionQueueTask ⟨tid, some _⟩).symm
  | take hpc hpool =>
      change s.sched.pool ++ [] = s.sched.pool.head?.toList ++ _
      rw [hpool]
      simp
  | enterBusy hpc hbusy => exact hsame rfl
  | enter hpc henter =>
      obtain ⟨_, _, rfl⟩ := Scheduler.sessionRunEnter_eq_some.mp henter
      exact hsame rfl
  | runNone hpc => exact hsame rfl
  | @run th sid job hpc =>
      obtain ⟨_, _, _, _, hsched, _⟩ := s.taskRunEnter_spec th sid job
      refine hsame ?_
      rw [hsched]
      exact (Scheduler.sessions_taskRunEnter rfl).2.1
  | luacTask c writes _ _ => exact hsame (by rw [s.sched_luac])
  | luacPlain c writes _ => exact hsame (by rw [State.sched_luac])
  | testClosed _ _ | test _ _ | locked _ _ | leaveTask _ | leavePlain _ | wake _ => exact hsame rfl
  | @callback th f full i rest hpc =>
      obtain ⟨_, _, _, hsched, _⟩ := s.invoke_spec th f full i rest
      exact hsame (by rw [hsched])
  | queue hpc =>
      simp only [State.submits, hpc]
      exact (s.sched.pool_sessionQueueTask _).symm
  | yielded hpc _ => exact hsame (s.sched.sessions_taskRunLeave _ _ true).2.1
  | ended hpc => exact hsame (s.sched.sessions_taskRunLeave _ _ false).2.1
  | finish hpc =>
      simp only [State.submits, hpc]
      exact (s.sched.pool_sessionRunLeave _).symm
  | close c => exact hsame (by rw [(s.close_spec c).2.2.1])

/-! ### Waiting for a turn -/

/-- The session is not run, and has a job to be popped next. -/
structure View.Ready (v : View) (sid : SessionId) (popped : List Job) (job : Job) : Prop where
  idle : (v.sched.sessions sid).status ≠ .running
  next : ∃ rest, (v.sched.sessions sid).tasks = job :: rest
  popped : (v.sched.sessions sid).popped = popped

namespace View

variable {v v' : View} {sid : SessionId} {popped : List Job} {job : Job}

theorem Ready.of_same (h : v.Ready sid popped job)
    (hsame : v'.sched.sessions sid = v.sched.sessions sid) : v'.Ready sid popped job := by
  constructor <;> rw [hsame]
  · exact h.idle
  · exact h.next
  · exact h.popped

theorem Ready.move {R : LuaResult → Prop} {Q : ℕ → Prop} (h : v.Ready sid popped job)
    (hmove : Move R Q v v') :
    popped ++ [job] <+: (v'.sched.sessions sid).popped ∨
      (v'.Ready sid popped job ∧ ∀ th, v.stage th = .entered sid → v'.stage th = .entered sid) := by
  have hmoved : ∀ {th : ThreadId} (st : Stage), v.stage th ≠ .entered sid →
      ∀ other, v.stage other = .entered sid →
        Function.update v.stage th st other = .entered sid :=
    fun _ hne other hother => entered_update hne other hother
  cases hmove with
  | still => exact .inr ⟨h, fun _ hth => hth⟩
  | newTask => exact .inr ⟨h.of_same rfl, fun _ hth => hth⟩
  | gcTask tid =>
      exact .inr ⟨h.of_same (congrFun (v.sched.sessions_taskFree tid).1 sid), fun _ hth => hth⟩
  | queue queued =>
      refine .inr ⟨?_, fun _ hth => hth⟩
      rcases v.sched.sessionQueueTask_cases queued with ⟨_, heq⟩ | ⟨t, _, _, _, hsessions, _⟩
      · rw [heq]
        exact h
      · by_cases hsid : sid = t.sid
        · subst hsid
          obtain ⟨rest, hrest⟩ := h.next
          constructor <;> simp only [hsessions, Function.update_self]
          · exact h.idle
          · exact ⟨rest ++ [queued], by rw [hrest, List.cons_append]⟩
          · exact h.popped
        · exact h.of_same (by simp only [hsessions, Function.update_of_ne hsid])
  | take hstage => exact .inr ⟨h.of_same rfl, hmoved _ (by simp [hstage])⟩
  | @busy th other hstage hbusy =>
      refine .inr ⟨h.of_same rfl, hmoved _ ?_⟩
      intro hth
      rw [hstage] at hth
      cases hth
      exact h.idle (Scheduler.sessionRunEnter_eq_none.mp hbusy)
  | @enter th other sched taken hstage henter =>
      obtain ⟨_, hjob, rfl⟩ := Scheduler.sessionRunEnter_eq_some.mp henter
      by_cases hsid : sid = other
      · subst hsid
        left
        obtain ⟨rest, hrest⟩ := h.next
        have htaken : taken = some job := by rw [hjob, hrest, queuePop_cons]
        simp only [Scheduler.setSession, Function.update_self, htaken, h.popped,
          Option.toList_some]
        exact List.prefix_refl _
      · refine .inr ⟨h.of_same ?_, hmoved _ ?_⟩
        · simp only [Scheduler.setSession, Function.update_of_ne hsid]
        · rw [hstage]
          intro hth
          cases hth
          exact hsid rfl
  | none hstage => exact .inr ⟨h.of_same rfl, hmoved _ (by simp [hstage])⟩
  | skip hstage hrun _ | resume hstage hrun =>
      exact .inr ⟨h.of_same (congrFun (Scheduler.sessions_taskRunEnter hrun).1 sid),
        hmoved _ (by simp [hstage])⟩
  | leave inChannel hstage _ =>
      exact .inr ⟨h.of_same (congrFun (v.sched.sessions_taskRunLeave _ _ inChannel).1 sid),
        hmoved _ (by simp [hstage])⟩
  | @finish th other hstage _ =>
      refine .inr ⟨?_, hmoved _ (by simp [hstage])⟩
      by_cases hsid : sid = other
      · subst hsid
        have hsession := (v.sched.sessionRunLeave_session sid sid).1
        have hpopped : ((v.sched.sessionRunLeave sid).sessions sid).popped =
              (v.sched.sessions sid).popped ∧
            ((v.sched.sessionRunLeave sid).sessions sid).status = .ready := by
          unfold Scheduler.sessionRunLeave
          simp only
          split <;> simp [Scheduler.setSession, Scheduler.submit]
        constructor
        · simp [hpopped.2]
        · obtain ⟨rest, hrest⟩ := h.next
          exact ⟨rest, by rw [hsession, hrest]⟩
        · rw [hpopped.1, h.popped]
      · exact h.of_same ((v.sched.sessionRunLeave_session other sid).2 hsid)

end View

namespace State

variable {s s' : State} {as : List Label} {sid : SessionId} {popped : List Job} {job : Job}

theorem ready_run (h : s.view.Ready sid popped job) (hrun : run step s as = some s') :
    popped ++ [job] <+: (s'.sched.sessions sid).popped ∨
      ∀ th, s.view.stage th = .entered sid → s'.view.stage th = .entered sid := by
  induction as generalizing s with
  | nil =>
      cases hrun
      exact .inr fun _ hth => hth
  | cons a as ih =>
      obtain ⟨next, hnext, hrest⟩ := run_cons_eq_some.mp hrun
      have hmove : AnyMove s.view next.view := anyMove_of_step hnext
      rcases h.move hmove with hpopped | ⟨hready, hkeep⟩
      · exact .inl (hpopped.trans (grows_run hrest sid).2)
      · exact (ih hready hrest).imp_right fun hlast th hth => hlast th (hkeep th hth)

theorem entered_of_takes {next : State} {a : Label} (h : s.step a = some next)
    (hmem : sid ∈ s.takes a) : ∃ th, next.view.stage th = .entered sid := by
  cases step_cases h with
  | @take th other pool hpc hpool =>
      have hsid : sid = other := by simpa [takes, hpool] using hmem
      subst hsid
      exact ⟨th, by simp [view, Pc.stage]⟩
  | _ => cases hmem

/-- A worker that takes the entry has it until it pops the job, if nobody pops it before. -/
theorem taken_run (h : s.view.Ready sid popped job) (hrun : run step s as = some s')
    (hmem : sid ∈ along step takes s as) :
    popped ++ [job] <+: (s'.sched.sessions sid).popped ∨ ∃ th, s'.view.stage th = .entered sid := by
  induction as generalizing s with
  | nil => cases hmem
  | cons a as ih =>
      obtain ⟨next, hnext, hrest⟩ := run_cons_eq_some.mp hrun
      have hmove : AnyMove s.view next.view := anyMove_of_step hnext
      rcases h.move hmove with hpopped | ⟨hready, _⟩
      · exact .inl (hpopped.trans (grows_run hrest sid).2)
      · rw [along_cons hnext] at hmem
        rcases List.mem_append.mp hmem with htaken | hlater
        · obtain ⟨th, hth⟩ := entered_of_takes hnext htaken
          exact (ready_run hready hrest).imp_right fun hlast => ⟨th, hlast th hth⟩
        · exact ih hready hrest hlater

/-- A session that waits gets its turn when those before it have had theirs. -/
theorem turn (hserved : s.view.Served) (hs : s.BetweenTurns sid) (hs' : s'.BetweenTurns sid)
    (hrun : run step s as = some s')
    (henough : s.sched.pool.length ≤ (along step takes s as).length) {rest : List Job}
    (htasks : (s.sched.sessions sid).tasks = job :: rest) :
    (s.sched.sessions sid).popped ++ [job] <+: (s'.sched.sessions sid).popped := by
  have hready : s.view.Ready sid (s.sched.sessions sid).popped job := ⟨hs.1, ⟨rest, htasks⟩, rfl⟩
  have hnobody : ∀ th, s'.view.stage th ≠ .entered sid := fun th hth =>
    hs'.2 th (Pc.eq_entered_of_stage hth)
  have hne : (s.sched.sessions sid).tasks ≠ [] := by simp [htasks]
  rcases hserved.awaited sid hne hs.1 with hpool | ⟨th, hth⟩
  · have htaken : sid ∈ along step takes s as :=
      (firstInFirstOut.served hrun henough).subset hpool
    rcases taken_run hready hrun htaken with hpopped | ⟨th, hth⟩
    · exact hpopped
    · exact absurd hth (hnobody th)
  · rcases ready_run hready hrun with hpopped | hkeep
    · exact hpopped
    · exact absurd (hkeep th hth) (hnobody th)

/-- Entries leave the pool in the order in which they were submitted; and from any reachable state
on, in as many rounds, in each of which as many entries are taken as the pool held when it began,
a session gets as many of its waiting jobs popped, or all of them, whatever is submitted
meanwhile, if `session_run` saw the jobs that it left. -/
theorem servedInTurn (size : ChannelId → Int) (before : List Label) {s : State}
    (hreach : run step (start size) before = some s) :
    (∀ as s', run step s as = some s' →
      s.sched.pool ++ along step submits s as = along step takes s as ++ s'.sched.pool) ∧
    ∀ sid rounds s', Rounds step (fun s => s.sched.pool) takes (BetweenTurns sid) s rounds s' →
      Respects step SeesJobs (start size) (before ++ rounds.flatten) →
      (s.sched.sessions sid).popped ++ (s.sched.sessions sid).tasks.take rounds.length <+:
        (s'.sched.sessions sid).popped := by
  refine ⟨fun as s' hrun => firstInFirstOut.run hrun, ?_⟩
  intro sid rounds s' hrounds hsees
  obtain ⟨hbefore, hlater⟩ := hsees.append hreach
  refine Rounds.progress (fun s => (s.sched.sessions sid).popped)
    (fun s => (s.sched.sessions sid).tasks) (I := fun s => s.view.Served) ?_ ?_
    (served_run hbefore hreach) hlater hrounds
  · intro s as next hs hround hrun
    have hnext : next.view.Served := hround.run_invariant (I := fun s => s.view.Served)
      (fun _ _ _ hs hsees hnext => hs.move (hsees.move hnext)) hs hrun
    obtain ⟨haccepted, hpopped⟩ := grows_run hrun sid
    have hbefore : (s.sched.sessions sid).accepted =
        (s.sched.sessions sid).popped ++ (s.sched.sessions sid).tasks := hs.inOrder sid
    have hafter : (next.sched.sessions sid).accepted =
        (next.sched.sessions sid).popped ++ (next.sched.sessions sid).tasks :=
      hnext.inOrder sid
    rw [hbefore, hafter] at haccepted
    exact ⟨hnext, hpopped, haccepted⟩
  · intro s as next job rest hs hbetween hlater hrun henough htasks
    exact turn hs hbetween hlater hrun henough htasks

/-- A session gets its turn after one that had two entries before it, and joined again behind it. -/
theorem servedInTurn_two_sessions :
    let before : List Label :=
      [.newTask 1, .newTask 2, .queueTask 1 true, .queueTask 1 true, .queueTask 2 true]
    let round : List Label :=
      [.take 0, .enter 0, .taskRun 0, .ended 0 .ok, .finish 0, .take 0, .enter 0, .taskRun 0,
        .finish 0, .take 0, .enter 0, .taskRun 0, .ended 0 .ok, .finish 0]
    ∃ s s', run step (start fun _ => 0) before = some s ∧ run step s round = some s' ∧
      s.sched.pool ++ along step submits s round = along step takes s round ++ s'.sched.pool ∧
      (s.sched.sessions 2).popped ++ (s.sched.sessions 2).tasks.take 1 <+:
        (s'.sched.sessions 2).popped ∧
      s.sched.pool = [1, 1, 2] ∧ along step submits s round = [1] := by
  intro before round
  have hserved := servedInTurn (fun _ => 0) before rfl
  refine ⟨_, _, rfl, rfl, hserved.1 round _ rfl, hserved.2 2 [round] _ ?_ (by decide), rfl, rfl⟩
  refine ⟨⟨by decide, fun th h => by cases h⟩, _, rfl, by decide, ⟨by decide, fun th h => ?_⟩, rfl⟩
  cases th <;> cases h

end State

end Casting.Runtime
