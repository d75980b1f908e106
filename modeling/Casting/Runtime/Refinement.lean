import Casting.Runtime.Tables

/-!
# The runtime over its tables

Runs of the runtime beside the maps of `lc_task.c` and `lc_session.c`.  Each function of the
scheduler that a step calls is carried out on the maps too, and they answer what the run goes on
with.
-/

namespace Casting.Runtime

open RefCount Refinement Transition

namespace State

/-- The functions of the scheduler that a step calls. -/
def calls (s : State) : Label → List SchedulerCall
  | .newTask sid => [.taskNew sid]
  | .gcTask tid => [.taskFree tid]
  | .queueTask tid withMessage =>
      [.sessionQueueTask ⟨tid, if withMessage then some s.store.msgNew.1 else none⟩]
  | .refuse tid => [.taskResumable tid]
  | .take _ => [.take]
  | .enter th =>
      match s.pc th with
      | .entered sid => [.sessionRunEnter sid]
      | _ => []
  | .taskRun th =>
      match s.pc th with
      | .popped _ (some job) => [.taskRunEnter job]
      | _ => []
  | .callback th =>
      match s.pc th with
      | .calling _ _ (⟨.task _, _, .closed⟩ :: _) => []
      | .calling _ _ (⟨.task tid, _, _⟩ :: _) => [.taskResumable tid]
      | _ => []
  | .queue th =>
      match s.pc th with
      | .queueing _ _ job _ _ => [.sessionQueueTask job]
      | _ => []
  | .yielded th rc =>
      match s.pc th with
      | .yielding _ tid _ => [.taskRunLeave tid rc true]
      | _ => []
  | .ended th rc =>
      match s.pc th with
      | .inTask _ tid => [.taskRunLeave tid rc false]
      | _ => []
  | .finish th =>
      match s.pc th with
      | .ran sid => [.sessionRunLeave sid]
      | _ => []
  | .luac _ _ _ | .test _ | .locked _ | .leave _ | .wake _ | .close _ => []

def callsOf : State → List Label → List SchedulerCall := along step calls

end State

theorem calls_of_step {s next : State} {a : Label} (k : ℕ) (h : s.step a = some next) :
    ∃ rs, results Numbered.call ⟨s.sched, k⟩ (s.calls a) = some (⟨next.sched, k⟩, rs) := by
  have hone : ∀ {c : SchedulerCall} {r : SchedulerReply} {sched : Scheduler},
      Numbered.call ⟨s.sched, k⟩ c = some (⟨sched, k⟩, r) →
        ∃ rs, results Numbered.call ⟨s.sched, k⟩ [c] = some (⟨sched, k⟩, rs) :=
    fun hcall => ⟨_, results_singleton hcall⟩
  cases step_cases h with
  | newTask sid => exact hone rfl
  | gcTask tid => exact hone rfl
  | queueTask tid => exact hone rfl
  | queueMessage tid => exact hone rfl
  | refuse _ => exact hone rfl
  | @take _ sid _ _ hpool =>
      refine hone (r := .taken sid) ?_
      simp only [Numbered.call, hpool]
      rfl
  | enterBusy hpc hbusy =>
      simp only [State.calls, hpc]
      refine hone (r := .popped none) ?_
      simp only [Numbered.call, hbusy]
      rfl
  | @enter _ _ _ job hpc henter =>
      simp only [State.calls, hpc]
      refine hone (r := .popped (some job)) ?_
      simp only [Numbered.call, henter]
      rfl
  | runNone hpc =>
      simp only [State.calls, hpc]
      exact ⟨[], rfl⟩
  | run hpc =>
      simp only [State.calls, hpc]
      obtain ⟨_, _, _, _, hsched, _⟩ := s.taskRunEnter_spec _ _ _
      rw [hsched]
      exact hone rfl
  | luacTask c writes _ _ =>
      rw [s.sched_luac]
      exact ⟨[], rfl⟩
  | luacPlain c writes _ =>
      rw [State.sched_luac]
      exact ⟨[], rfl⟩
  | testClosed hpc _ | test hpc _ | locked hpc _ | leaveTask hpc | leavePlain hpc | wake hpc =>
      exact ⟨[], rfl⟩
  | @callback th f full i rest hpc =>
      obtain ⟨_, _, _, hsched, _⟩ := s.invoke_spec th f full i rest
      rw [hsched]
      simp only [State.calls, hpc]
      split
      · exact ⟨[], rfl⟩
      · exact hone rfl
      · exact ⟨[], rfl⟩
  | queue hpc =>
      simp only [State.calls, hpc]
      exact hone rfl
  | yielded hpc _ =>
      simp only [State.calls, hpc]
      exact hone rfl
  | ended hpc =>
      simp only [State.calls, hpc]
      exact hone rfl
  | finish hpc =>
      simp only [State.calls, hpc]
      exact hone rfl
  | close c =>
      rw [(s.close_spec c).2.2.1]
      exact ⟨[], rfl⟩

/-! ### Sessions that were created -/

/-- The session whose `session_run` a thread has called. -/
def Stage.concerns : Stage → Option SessionId
  | .outside => none
  | .entered sid | .popped sid _ | .inside sid _ | .ran sid => some sid

/-- Only such sessions wait for a worker or are being run. -/
structure View.Confined (v : View) (P : SessionId → Prop) : Prop where
  pool : ∀ sid ∈ v.sched.pool, P sid
  stage : ∀ th, ∀ sid ∈ (v.stage th).concerns, P sid

theorem View.Confined.advance {v : View} {P : SessionId → Prop} {sched : Scheduler} {th : ThreadId}
    {st : Stage} (hv : v.Confined P) (hpool : ∀ sid ∈ sched.pool, P sid)
    (hst : ∀ sid ∈ st.concerns, P sid) :
    View.Confined ⟨sched, Function.update v.stage th st⟩ P where
  pool := hpool
  stage other := by
    change ∀ sid ∈ (Function.update v.stage th st other).concerns, P sid
    by_cases hother : other = th
    · rw [hother, Function.update_self]
      exact hst
    · rw [Function.update_of_ne hother]
      exact hv.stage other

theorem View.Confined.stay {v : View} {P : SessionId → Prop} {sched : Scheduler} {th : ThreadId}
    {st : Stage} (hv : v.Confined P) (hpool : sched.pool = v.sched.pool)
    (hst : st.concerns = (v.stage th).concerns) :
    View.Confined ⟨sched, Function.update v.stage th st⟩ P := by
  apply hv.advance
  · rw [hpool]
    exact hv.pool
  · rw [hst]
    exact hv.stage th

theorem View.Confined.move {R : LuaResult → Prop} {Q : ℕ → Prop} {v v' : View}
    {P : SessionId → Prop} (hv : v.Confined P)
    (htasks : ∀ tid t, v.sched.tasks tid = some t → P t.sid)
    (h : Move R Q v v') : v'.Confined P := by
  cases h with
  | still => exact hv
  | newTask sid => exact ⟨hv.pool, hv.stage⟩
  | gcTask tid =>
      refine ⟨?_, hv.stage⟩
      rw [(v.sched.sessions_taskFree tid).2.1]
      exact hv.pool
  | queue job =>
      refine ⟨?_, hv.stage⟩
      intro sid hsid
      rcases v.sched.sessionQueueTask_cases job with ⟨_, heq⟩ | ⟨t, ht, _, _, _, heq⟩
      · rw [heq] at hsid
        exact hv.pool sid hsid
      · rw [heq] at hsid
        rcases List.mem_append.mp hsid with hold | hnew
        · exact hv.pool sid hold
        · split at hnew
          · rw [List.mem_singleton.mp hnew]
            exact htasks _ t ht
          · cases hnew
  | take _ hpool =>
      have hall := hv.pool
      rw [hpool] at hall
      apply hv.advance
      · exact fun sid hsid => hall sid (List.mem_cons_of_mem _ hsid)
      · intro sid hsid
        cases hsid
        exact hall _ List.mem_cons_self
  | busy _ _ =>
      apply hv.advance hv.pool
      intro sid hsid
      cases hsid
  | enter hstage henter =>
      obtain ⟨_, _, rfl⟩ := Scheduler.sessionRunEnter_eq_some.mp henter
      exact hv.stay rfl (by rw [hstage]; rfl)
  | none hstage => exact hv.stay rfl (by rw [hstage]; rfl)
  | skip hstage hrun _ | resume hstage hrun =>
      exact hv.stay (Scheduler.sessions_taskRunEnter hrun).2.1 (by rw [hstage]; rfl)
  | @leave th sid tid rc inChannel hstage _ =>
      exact hv.stay (v.sched.sessions_taskRunLeave tid rc inChannel).2.1 (by rw [hstage]; rfl)
  | @finish th sid hstage _ =>
      have hsid : P sid := hv.stage th sid (by rw [hstage]; rfl)
      apply hv.advance
      · intro other hother
        unfold Scheduler.sessionRunLeave at hother
        simp only at hother
        split at hother
        · exact hv.pool other hother
        · rcases List.mem_append.mp hother with hold | hnew
          · exact hv.pool other hold
          · rw [List.mem_singleton.mp hnew]
            exact hsid
      · intro other hother
        cases hother

/-! ### Runs -/

def SchedulerCall.task : SchedulerCall → Option TaskId
  | .taskFree tid | .taskRunLeave tid _ _ | .taskResumable tid => some tid
  | .taskRunEnter job | .sessionQueueTask job => some job.tid
  | .sessionNew | .taskNew _ | .take | .sessionRunEnter _ | .sessionRunLeave _ => none

def Label.creates : Label → Option SessionId
  | .newTask sid => some sid
  | _ => none

/-- Tasks are created in one of `k` sessions, their ids stay within an `int`, and no reference
count overflows. -/
def State.IdsFit (k : ℕ) (s : State) (a : Label) : Prop :=
  (∀ sid ∈ a.creates, 0 < sid ∧ sid ≤ k ∧ s.sched.nextTask ≤ maxCount) ∧
    ∀ c ∈ s.calls a, ∀ tid ∈ c.task, Numbered.Countable ⟨s.sched, k⟩ tid

instance (n : Numbered) (tid : TaskId) : Decidable (n.Countable tid) := by
  unfold Numbered.Countable
  infer_instance

instance (k : ℕ) (s : State) (a : Label) : Decidable (s.IdsFit k a) := by
  unfold State.IdsFit
  infer_instance

/-- The tables are those of the scheduler, and sessions in use were created. -/
structure Follows (narrow : ℕ → ℤ) (k : ℕ) (tb : Tables) (s : State) : Prop where
  represents : Represents narrow tb ⟨s.sched, k⟩
  exclusive : s.view.Exclusive
  confined : s.view.Confined fun sid => 0 < sid ∧ sid ≤ k

namespace Follows

variable {narrow : ℕ → ℤ} {k : ℕ} {tb : Tables} {s next : State} {a : Label}

theorem inRange (hf : Follows narrow k tb s) (hfit : s.IdsFit k a) (hstep : s.step a = some next) :
    ∀ c ∈ s.calls a, Numbered.InRange ⟨s.sched, k⟩ c := by
  intro c hc
  have htask := hfit.2 c hc
  cases step_cases hstep with
  | newTask sid =>
      rw [List.mem_singleton.mp hc]
      obtain ⟨hpos, hle, hmax⟩ := hfit.1 sid rfl
      exact ⟨⟨hpos, hle⟩, hmax⟩
  | gcTask tid =>
      rw [List.mem_singleton.mp hc] at htask ⊢
      exact (htask tid rfl).1
  | queueTask tid | queueMessage tid | @refuse tid _ =>
      rw [List.mem_singleton.mp hc] at htask ⊢
      exact htask tid rfl
  | take _ hpool =>
      rw [List.mem_singleton.mp hc]
      change s.sched.pool ≠ []
      rw [hpool]
      exact List.cons_ne_nil _ _
  | @enterBusy th sid hpc _ | @enter th sid _ _ hpc _ =>
      simp only [State.calls, hpc] at hc
      rw [List.mem_singleton.mp hc]
      have hstage : s.view.stage th = .entered sid := congrArg Pc.stage hpc
      exact hf.confined.stage th sid (by rw [hstage]; rfl)
  | runNone hpc => simp [State.calls, hpc] at hc
  | run hpc =>
      simp only [State.calls, hpc] at hc
      rw [List.mem_singleton.mp hc] at htask ⊢
      exact htask _ rfl
  | luacTask | luacPlain | testClosed | test | locked | leaveTask | leavePlain | wake | close =>
      cases hc
  | callback hpc =>
      simp only [State.calls, hpc] at hc
      split at hc
      · cases hc
      · rw [List.mem_singleton.mp hc] at htask ⊢
        exact htask _ rfl
      · cases hc
  | queue hpc =>
      simp only [State.calls, hpc] at hc
      rw [List.mem_singleton.mp hc] at htask ⊢
      exact htask _ rfl
  | yielded hpc _ | ended hpc =>
      simp only [State.calls, hpc] at hc
      rw [List.mem_singleton.mp hc] at htask ⊢
      exact (htask _ rfl).1
  | @finish th sid hpc =>
      simp only [State.calls, hpc] at hc
      rw [List.mem_singleton.mp hc]
      have hstage : s.view.stage th = .ran sid := congrArg Pc.stage hpc
      have hsession : (s.view.stage th).session = some sid := by rw [hstage]; rfl
      exact ⟨hf.confined.stage th sid (by rw [hstage]; rfl), hf.exclusive.busy th sid hsession⟩

theorem calls_length (s : State) (a : Label) : (s.calls a).length ≤ 1 := by
  cases a <;> simp only [State.calls] <;> first | simp | (split <;> simp)

theorem step (hf : Follows narrow k tb s) (hnarrow : Narrows narrow) (hfit : s.IdsFit k a)
    (hstep : s.step a = some next) :
    ∃ tb' rs, results Tables.call tb (s.calls a) = some (tb', rs) ∧
      results Numbered.call ⟨s.sched, k⟩ (s.calls a) = some (⟨next.sched, k⟩, rs) ∧
      Follows narrow k tb' next := by
  have hmove : AnyMove s.view next.view := anyMove_of_step hstep
  have hexclusive := hf.exclusive.move hmove
  have hconfined : next.view.Confined fun sid => 0 < sid ∧ sid ≤ k :=
    hf.confined.move (fun tid t ht => (hf.represents.referenced tid t ht).2.2) hmove
  obtain ⟨rs, hresults⟩ := calls_of_step k hstep
  have hrange := hf.inRange hfit hstep
  have hone := calls_length s a
  rcases hcalls : s.calls a with _ | ⟨c, _ | ⟨d, ds⟩⟩
  · rw [hcalls] at hresults
    have hsame : s.sched = next.sched :=
      congrArg Numbered.sched (Prod.mk.inj (Option.some.inj hresults)).1
    have hr := hf.represents
    rw [hsame] at hr
    refine ⟨tb, [], rfl, ?_, hr, hexclusive, hconfined⟩
    rw [hsame]
    rfl
  · rw [hcalls] at hresults hrange
    obtain ⟨tb', r, n', htb, hn, hr⟩ := hf.represents.call hnarrow (hrange c List.mem_cons_self)
    have hn' := results_singleton hn
    rw [hresults] at hn'
    obtain ⟨rfl, rfl⟩ := Prod.mk.inj (Option.some.inj hn')
    exact ⟨tb', [r], results_singleton htb, hresults, hr, hexclusive, hconfined⟩
  · rw [hcalls] at hone
    simp at hone

theorem run (hf : Follows narrow k tb s) (hnarrow : Narrows narrow) {steps : List Label}
    {final : State} (hfit : Respects State.step (State.IdsFit k) s steps)
    (hrun : Transition.run State.step s steps = some final) :
    ∃ tb' rs, results Tables.call tb (s.callsOf steps) = some (tb', rs) ∧
      results Numbered.call ⟨s.sched, k⟩ (s.callsOf steps) = some (⟨final.sched, k⟩, rs) ∧
      Follows narrow k tb' final := by
  induction steps generalizing s tb with
  | nil =>
      cases hrun
      exact ⟨tb, [], rfl, rfl, hf⟩
  | cons a steps ih =>
      obtain ⟨next, hnext, hrest⟩ := run_cons_eq_some.mp hrun
      obtain ⟨hhead, htail⟩ := hfit next hnext
      obtain ⟨tb₁, rs, htb, hn, hf₁⟩ := hf.step hnarrow hhead hnext
      obtain ⟨tb₂, qs, htb', hn', hf₂⟩ := ih hf₁ htail hrest
      rw [State.callsOf, along_cons hnext]
      exact ⟨tb₂, rs ++ qs, results_append htb htb', results_append hn hn', hf₂⟩

theorem start (hnarrow : Narrows narrow) (size : ChannelId → Int) (hk : k ≤ maxCount) :
    ∃ tb rs, results Tables.call (Tables.start narrow) (List.replicate k .sessionNew) =
        some (tb, rs) ∧
      results Numbered.call Numbered.start (List.replicate k .sessionNew) =
        some (⟨Numbered.start.sched, k⟩, rs) ∧
      Follows narrow k tb (State.start size) := by
  have hcreate : ∀ k ≤ maxCount, ∃ tb rs,
      results Tables.call (Tables.start narrow) (List.replicate k .sessionNew) = some (tb, rs) ∧
        results Numbered.call Numbered.start (List.replicate k .sessionNew) =
          some (⟨Numbered.start.sched, k⟩, rs) ∧
        Represents narrow tb ⟨Numbered.start.sched, k⟩ := by
    intro k hk
    induction k with
    | zero => exact ⟨_, [], rfl, rfl, Represents.start narrow⟩
    | succ k ih =>
        obtain ⟨tb, rs, htb, hn, hr⟩ := ih (Nat.le_of_succ_le hk)
        obtain ⟨tb', hnew, hr'⟩ := hr.sessionNew hnarrow hk
        have hcall : tb.call .sessionNew = some (tb', .created (k + 1)) := by
          rw [Tables.call, hnew]
          rfl
        rw [List.replicate_succ']
        exact ⟨tb', rs ++ [.created (k + 1)], results_append htb (results_singleton hcall),
          results_append hn (results_singleton rfl), hr'⟩
  obtain ⟨tb, rs, htb, hn, hr⟩ := hcreate k hk
  refine ⟨tb, rs, htb, hn, hr, View.exclusive_start size, ⟨?_, ?_⟩⟩
  · intro sid hsid
    cases hsid
  · intro th sid hsid
    cases hsid

end Follows

/-- The maps answer, to every function that the steps of a run call, what the run goes on with,
and at its end they hold the tasks and the sessions of the runtime, each under its id, and the
entries of the pool. -/
theorem tablesFollow {narrow : ℕ → ℤ} (hnarrow : Narrows narrow) (size : ChannelId → Int) {k : ℕ}
    (hk : k ≤ maxCount) {steps : List Label} {final : State}
    (hfit : Respects State.step (State.IdsFit k) (State.start size) steps)
    (hrun : run State.step (State.start size) steps = some final) :
    let calls := List.replicate k .sessionNew ++ (State.start size).callsOf steps
    ∃ tb rs, results Tables.call (Tables.start narrow) calls = some (tb, rs) ∧
      results Numbered.call Numbered.start calls = some (⟨final.sched, k⟩, rs) ∧
      (∀ tid ≤ maxCount, tb.tasks.find tid = final.sched.taskRecords tid) ∧
      (∀ sid, 0 < sid → sid ≤ k →
        tb.sessions.find sid = some ((final.sched.sessions sid).record sid)) ∧
      tb.pool = final.sched.pool := by
  obtain ⟨tb, rs, htb, hn, hf⟩ := Follows.start hnarrow size hk
  obtain ⟨tb', qs, htb', hn', hf'⟩ := hf.run hnarrow hfit hrun
  have hholds := hf'.represents.holds
  refine ⟨tb', rs ++ qs, results_append htb htb', results_append hn hn', ?_, ?_, hholds.pool⟩
  · exact fun tid htid => hholds.tasks.find hnarrow htid
  · intro sid hpos hle
    rw [hholds.sessions.find hnarrow (Nat.le_trans hle hk)]
    exact Numbered.sessionRecords_eq_some ⟨hpos, hle⟩

/-- Two tasks in two sessions; the handle of the first is collected while it runs. -/
theorem tablesFollow_two_sessions :
    let steps : List Label := [.newTask 1, .newTask 2, .queueTask 1 true, .take 0, .enter 0,
      .taskRun 0, .gcTask 1, .ended 0 .yield, .finish 0, .queueTask 2 false]
    let calls := List.replicate 2 .sessionNew ++ (State.start fun _ => 0).callsOf steps
    ∃ final, run State.step (State.start fun _ => 0) steps = some final ∧
      ∃ tb rs, results Tables.call (Tables.start fun n => n) calls = some (tb, rs) ∧
        results Numbered.call Numbered.start calls = some (⟨final.sched, 2⟩, rs) ∧
        (∀ tid ≤ maxCount, tb.tasks.find tid = final.sched.taskRecords tid) ∧
        (∀ sid, 0 < sid → sid ≤ 2 →
          tb.sessions.find sid = some ((final.sched.sessions sid).record sid)) ∧
        tb.pool = final.sched.pool := by
  intro steps calls
  have hnarrow : Narrows fun n => n := fun _ _ => rfl
  have hfit : Respects State.step (State.IdsFit 2) (State.start fun _ => 0) steps := by decide
  exact ⟨_, rfl, tablesFollow hnarrow (fun _ => 0) (by decide) hfit rfl⟩

end Casting.Runtime
