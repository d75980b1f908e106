import Casting.Framework.Settling
import Casting.Runtime.Waiting
import Casting.Runtime.Wakeups

/-!
# Work that has begun is finished

`session_run` submits its session again while jobs are queued, and callbacks queue new jobs.  As
long as Lua code and the host make no new calls, all this comes to an end, and it ends with every
accepted job popped.
-/

namespace Casting.Runtime

open Transition

/-- The step is no new call of Lua code or of the host. -/
def Label.CarriesOn : Label → Prop
  | .newTask _ | .gcTask _ | .queueTask _ _ | .refuse _ | .luac _ _ _ | .close _ => False
  | _ => True

/-! ### What is left to do -/

/-- A bound for the steps that a thread takes from here, and for those of the jobs it queues. -/
def Pc.weight : Pc → ℕ
  | .idle => 0
  | .waiting _ => 1
  | .ran _ => 1
  | .inTask _ _ | .yielding _ _ _ => 2
  | .popped _ _ => 3
  | .entered _ => 4
  | .calling _ _ calls => 3 + 12 * calls.length
  | .queueing _ _ _ _ calls => 14 + 12 * calls.length
  | .locking _ _ _ => 40
  | .testing _ _ _ => 41

/-- A bound for the steps that a session's jobs take; a running session with jobs is to be
submitted once more. -/
def Session.weight (s : Session) : ℕ :=
  5 * s.tasks.length + if s.status = .running ∧ s.tasks ≠ [] then 5 else 0

noncomputable def Scheduler.weight (sc : Scheduler) : ℕ :=
  (∑ᶠ sid, (sc.sessions sid).weight) + 5 * sc.pool.length

noncomputable def State.backlog (s : State) : ℕ := (∑ᶠ th, (s.pc th).weight) + s.sched.weight

def Scheduler.FewBusy (sc : Scheduler) : Prop :=
  (Function.support fun sid => (sc.sessions sid).weight).Finite

def State.FewActive (s : State) : Prop := (Function.support fun th => (s.pc th).weight).Finite

namespace Scheduler

theorem weight_congr {sc sc' : Scheduler} (hsessions : sc'.sessions = sc.sessions)
    (hpool : sc'.pool = sc.pool) (hfew : sc.FewBusy) : sc'.FewBusy ∧ sc'.weight = sc.weight := by
  simp only [FewBusy, weight, hsessions, hpool]
  exact ⟨hfew, trivial⟩

theorem weight_update {sc sc' : Scheduler} {sid : SessionId} {s : Session} (hfew : sc.FewBusy)
    (hsessions : sc'.sessions = Function.update sc.sessions sid s) :
    sc'.FewBusy ∧ sc'.weight + (sc.sessions sid).weight + 5 * sc.pool.length =
      sc.weight + s.weight + 5 * sc'.pool.length := by
  have hsum := finsum_update_add hfew sid s
  simp only [FewBusy, weight, hsessions]
  refine ⟨finite_support_update hfew sid s, ?_⟩
  omega

theorem weight_setSession {sc : Scheduler} {sid : SessionId} {s : Session} {k : ℕ}
    (hfew : sc.FewBusy) (hle : s.weight + k ≤ (sc.sessions sid).weight) :
    (sc.setSession sid s).FewBusy ∧ (sc.setSession sid s).weight + k ≤ sc.weight := by
  have hsessions : (sc.setSession sid s).sessions = Function.update sc.sessions sid s := rfl
  obtain ⟨hfew', hweight⟩ := weight_update hfew hsessions
  have hpool : (sc.setSession sid s).pool = sc.pool := rfl
  rw [hpool] at hweight
  exact ⟨hfew', by omega⟩

theorem weight_submit {sc : Scheduler} (sid : SessionId) (hfew : sc.FewBusy) :
    (sc.submit sid).FewBusy ∧ (sc.submit sid).weight = sc.weight + 5 := by
  simp only [FewBusy, weight, submit, queuePush, List.length_append, List.length_singleton]
  exact ⟨hfew, by omega⟩

theorem weight_taskRunEnter {sc sched : Scheduler} {job : Job} {entry : Entry}
    (h : sc.taskRunEnter job = (entry, sched)) (hfew : sc.FewBusy) :
    sched.FewBusy ∧ sched.weight = sc.weight := by
  obtain ⟨hsessions, hpool, _⟩ := sessions_taskRunEnter h
  exact weight_congr hsessions hpool hfew

theorem weight_taskRunLeave {sc : Scheduler} (tid : TaskId) (rc : LuaResult) (inChannel : Bool)
    (hfew : sc.FewBusy) :
    (sc.taskRunLeave tid rc inChannel).FewBusy ∧
      (sc.taskRunLeave tid rc inChannel).weight = sc.weight := by
  obtain ⟨hsessions, hpool, _⟩ := sc.sessions_taskRunLeave tid rc inChannel
  exact weight_congr hsessions hpool hfew

/-- A job that is queued brings itself and at most one entry in the pool, now or when the session
is submitted again. -/
theorem weight_sessionQueueTask {sc : Scheduler} (job : Job) (hfew : sc.FewBusy) :
    (sc.sessionQueueTask job).FewBusy ∧ (sc.sessionQueueTask job).weight ≤ sc.weight + 10 := by
  rcases sc.sessionQueueTask_cases job with ⟨_, heq⟩ | ⟨t, _, _, _, hsessions, hpool⟩
  · rw [heq]
    exact ⟨hfew, Nat.le_add_right _ _⟩
  · obtain ⟨hfew', hweight⟩ := weight_update hfew hsessions
    refine ⟨hfew', ?_⟩
    rw [hpool] at hweight
    simp only [Session.weight, List.length_append, List.length_singleton] at hweight
    by_cases hready : (sc.sessions t.sid).status = .ready
    · simp [hready] at hweight
      omega
    · simp only [hready, if_false, List.length_nil] at hweight
      split at hweight <;> split at hweight <;> omega

/-- The job that `session_run` pops outweighs the entry that the rest of the queue will need. -/
theorem weight_sessionRunEnter {sc sched : Scheduler} {sid : SessionId} {job : Option Job}
    (h : sc.sessionRunEnter sid = some (sched, job)) (hfew : sc.FewBusy) :
    sched.FewBusy ∧ sched.weight ≤ sc.weight := by
  obtain ⟨hidle, _, rfl⟩ := sessionRunEnter_eq_some.mp h
  apply weight_setSession (k := 0) hfew
  simp only [Session.weight, hidle, false_and, if_false, true_and]
  cases (sc.sessions sid).tasks with
  | nil => simp
  | cons first rest =>
      cases rest with
      | nil => simp
      | cons second rest =>
          simp
          omega

/-- The second locked section of `session_run` submits a session again only in place of the entry
that its queue was due. -/
theorem weight_sessionRunLeave {sc : Scheduler} {sid : SessionId}
    (hbusy : (sc.sessions sid).status = .running) (hfew : sc.FewBusy) :
    (sc.sessionRunLeave sid).FewBusy ∧ (sc.sessionRunLeave sid).weight ≤ sc.weight := by
  by_cases hempty : queueSize (sc.sessions sid).tasks = 0
  · simp only [sessionRunLeave, hempty, if_true]
    apply weight_setSession (k := 0) hfew
    simp [Session.weight]
  · have hne : (sc.sessions sid).tasks ≠ [] := fun hnil => hempty (by rw [hnil, queueSize_nil])
    simp only [sessionRunLeave, hempty, if_false]
    have hlighter :
        (sc.setSession sid { sc.sessions sid with status := .ready }).FewBusy ∧
          (sc.setSession sid { sc.sessions sid with status := .ready }).weight + 5 ≤ sc.weight :=
      weight_setSession hfew (by simp [Session.weight, hbusy, hne])
    obtain ⟨hfew', hweight⟩ := weight_submit sid hlighter.1
    exact ⟨hfew', hweight ▸ hlighter.2⟩

end Scheduler

theorem length_wroteInvocation (w : Option (Writer Waiter MessageId))
    (m : Writer Waiter MessageId → MessageId) : (wroteInvocation w m).length ≤ 1 := by
  cases w <;> simp [wroteInvocation]

theorem length_channelWriteCallbacks {message : MessageId} {cb : Waiter}
    {l : WriteLocals Waiter MessageId} {calls : List Callback}
    (h : channelWriteCallbacks message cb l = some calls) : calls.length ≤ 3 := by
  obtain ⟨rc, r, m, w⟩ := l
  have hw := length_wroteInvocation w Writer.message
  have hown : (if rc = .success then
      [(⟨cb, some message, .write⟩ : Callback)] else []).length ≤ 1 := by
    split <;> simp
  cases r with
  | none =>
      obtain rfl := Option.some.inj h
      simp only
      omega
  | some r =>
      obtain ⟨got, _, rfl⟩ := Option.map_eq_some_iff.mp h
      simp only [List.length_append, List.length_cons]
      omega

theorem length_channelReadCallbacks {cb : Waiter} {l : ReadLocals Waiter MessageId}
    {calls : List Callback} (h : channelReadCallbacks cb l = some calls) : calls.length ≤ 3 := by
  unfold channelReadCallbacks at h
  split at h
  · obtain ⟨got, _, rfl⟩ := Option.map_eq_some_iff.mp h
    have hw := length_wroteInvocation l.w fun _ => got
    simp only [List.length_cons]
    omega
  · cases h
    simp

theorem State.length_lockedSection {ch ch' : Channel Waiter MessageId} {w : Waiter}
    {op : Operation} {full : Bool} {calls : List Callback}
    (h : State.lockedSection ch w op = some (ch', full, calls)) : calls.length ≤ 3 := by
  cases op with
  | write m =>
      obtain ⟨calls', hcalls, heq⟩ := Option.map_eq_some_iff.mp h
      cases heq
      exact length_channelWriteCallbacks hcalls
  | read =>
      obtain ⟨calls', hcalls, heq⟩ := Option.map_eq_some_iff.mp h
      cases heq
      exact length_channelReadCallbacks hcalls

namespace State

theorem lowers {s next : State} {th : ThreadId} {p : Pc} (hfew : s.FewActive)
    (hpc : next.pc = Function.update s.pc th p)
    (hlt : next.sched.weight + p.weight < s.sched.weight + (s.pc th).weight) :
    next.FewActive ∧ next.backlog < s.backlog := by
  have hsum := finsum_update_add hfew th p
  simp only [FewActive, backlog, hpc]
  refine ⟨finite_support_update hfew th p, ?_⟩
  omega

end State

/-- What a step that carries on relies on: finitely many threads and sessions have anything to do,
and whoever is in a session has its status. -/
structure State.Finite (s : State) : Prop where
  active : s.FewActive
  busy : s.sched.FewBusy
  exclusive : s.view.Exclusive

theorem backlog_lt {s next : State} {a : Label} (hs : s.Finite) (ha : a.CarriesOn)
    (h : Step s a next) :
    next.FewActive ∧ next.sched.FewBusy ∧ next.backlog < s.backlog := by
  have hlowers : ∀ {th : ThreadId} {p : Pc}, next.pc = Function.update s.pc th p →
      next.sched.FewBusy → next.sched.weight + p.weight < s.sched.weight + (s.pc th).weight →
      next.FewActive ∧ next.sched.FewBusy ∧ next.backlog < s.backlog := by
    intro th p hpc hbusy hlt
    obtain ⟨hactive, hless⟩ := State.lowers hs.active hpc hlt
    exact ⟨hactive, hbusy, hless⟩
  cases h with
  | newTask | gcTask | queueTask | queueMessage | refuse | luacTask | luacPlain | close =>
      exact ha.elim
  | @take th sid pool hpc hpool =>
      refine hlowers (State.pc_setPc _ _ _) hs.busy ?_
      simp only [State.sched_setPc, Scheduler.weight, hpool, hpc, Pc.weight, List.length_cons]
      omega
  | enterBusy hpc hbusy =>
      refine hlowers (State.pc_setPc _ _ _) hs.busy ?_
      simp [hpc, Pc.weight]
  | enter hpc henter =>
      obtain ⟨hfew, hle⟩ := Scheduler.weight_sessionRunEnter henter hs.busy
      refine hlowers (State.pc_setPc _ _ _) hfew ?_
      simp only [State.sched_setPc, hpc, Pc.weight]
      omega
  | runNone hpc =>
      refine hlowers (State.pc_setPc _ _ _) hs.busy ?_
      simp [hpc, Pc.weight]
  | @run th sid job hpc =>
      obtain ⟨p, hp, hpc', _, hsched, _⟩ := s.taskRunEnter_spec th sid job
      have hrun : s.sched.taskRunEnter job =
          ((s.sched.taskRunEnter job).1, (s.sched.taskRunEnter job).2) := rfl
      obtain ⟨hfew, hweight⟩ := Scheduler.weight_taskRunEnter hrun hs.busy
      refine hlowers hpc' (hsched ▸ hfew) ?_
      rw [hsched, hpc]
      rcases hp with rfl | rfl <;> simp only [Pc.weight] <;> omega
  | testClosed hpc _ =>
      refine hlowers (State.pc_setPc _ _ _) hs.busy ?_
      simp [hpc, Pc.weight]
  | test hpc _ =>
      refine hlowers (State.pc_setPc _ _ _) hs.busy ?_
      simp [hpc, Pc.weight]
  | locked hpc hsection =>
      have hle := State.length_lockedSection hsection
      refine hlowers (State.pc_setPc _ _ _) hs.busy ?_
      simp only [State.sched_setPc, State.sched_setChannel, hpc, Pc.weight]
      omega
  | @callback th f full i rest hpc =>
      obtain ⟨p, hpc', _, hsched, hp⟩ := s.invoke_spec th f full i rest
      refine hlowers hpc' (hsched ▸ hs.busy) ?_
      rw [hsched, hpc]
      rcases hp with ⟨tid, m, release, _, rfl⟩ | ⟨rfl, _⟩ <;>
        simp only [Pc.weight, List.length_cons] <;> omega
  | @queue th f full job release rest hpc =>
      obtain ⟨hfew, hle⟩ := Scheduler.weight_sessionQueueTask job hs.busy
      refine hlowers (State.pc_setPc _ _ _) hfew ?_
      simp only [State.sched_setPc, hpc, Pc.weight]
      omega
  | leaveTask hpc =>
      refine hlowers (State.pc_setPc _ _ _) hs.busy ?_
      simp [hpc, Pc.weight]
  | @leavePlain th frame full hpc =>
      refine hlowers (State.pc_setPc _ _ _) hs.busy ?_
      cases full <;> simp [hpc, Pc.weight]
  | wake hpc =>
      refine hlowers (State.pc_setPc _ _ _) hs.busy ?_
      simp [hpc, Pc.weight]
  | @yielded th sid tid current rc hpc _ =>
      obtain ⟨hfew, hweight⟩ := Scheduler.weight_taskRunLeave tid rc true hs.busy
      refine hlowers (State.pc_setPc _ _ _) hfew ?_
      simp only [State.sched_setPc, hpc, Pc.weight]
      omega
  | @ended th sid tid rc hpc =>
      obtain ⟨hfew, hweight⟩ := Scheduler.weight_taskRunLeave tid rc false hs.busy
      refine hlowers (State.pc_setPc _ _ _) hfew ?_
      simp only [State.sched_setPc, hpc, Pc.weight]
      omega
  | @finish th sid hpc =>
      have hstage : (s.view.stage th).session = some sid := by
        simp [State.view, hpc, Pc.stage, Stage.session]
      have hrunning : (s.sched.sessions sid).status = .running :=
        hs.exclusive.busy th sid hstage
      obtain ⟨hfew, hle⟩ := Scheduler.weight_sessionRunLeave hrunning hs.busy
      refine hlowers (State.pc_setPc _ _ _) hfew ?_
      simp only [State.sched_setPc, hpc, Pc.weight]
      omega

/-! ### Every run keeps it so -/

namespace Scheduler

theorem fewBusy_sessionRunLeave {sc : Scheduler} (sid : SessionId) (hfew : sc.FewBusy) :
    (sc.sessionRunLeave sid).FewBusy := by
  unfold sessionRunLeave
  simp only
  split
  · exact finite_support_update hfew sid _
  · exact finite_support_update hfew sid _

end Scheduler

namespace State

theorem fewActive_of_pc {s next : State} {th : ThreadId} {p : Pc} (hfew : s.FewActive)
    (hpc : next.pc = Function.update s.pc th p) : next.FewActive := by
  simp only [FewActive, hpc]
  exact finite_support_update hfew th p

theorem fewActive_luac {s : State} (hfew : s.FewActive) (th : ThreadId) (f : CallFrame)
    (c : ChannelId) (writes : Bool) : (s.luac th f c writes).FewActive := by
  rcases s.luac_cases th f c writes with ⟨_, heq⟩ | ⟨_, heq | heq⟩
  · rw [heq]
    exact hfew
  · rw [heq]
    exact fewActive_of_pc hfew (pc_setPc _ _ _)
  · rw [heq]
    exact fewActive_of_pc hfew (pc_setPc _ _ _)

end State

theorem few_step {s next : State} {a : Label} (hactive : s.FewActive) (hbusy : s.sched.FewBusy)
    (h : Step s a next) : next.FewActive ∧ next.sched.FewBusy := by
  have hmoved : ∀ {th : ThreadId} {p : Pc}, next.pc = Function.update s.pc th p →
      next.sched.FewBusy → next.FewActive ∧ next.sched.FewBusy :=
    fun hpc hfew => ⟨State.fewActive_of_pc hactive hpc, hfew⟩
  cases h with
  | newTask | refuse => exact ⟨hactive, hbusy⟩
  | gcTask tid =>
      obtain ⟨hsessions, hpool, _⟩ := s.sched.sessions_taskFree tid
      exact ⟨hactive, (Scheduler.weight_congr hsessions hpool hbusy).1⟩
  | queueTask tid => exact ⟨hactive, (Scheduler.weight_sessionQueueTask _ hbusy).1⟩
  | queueMessage tid => exact ⟨hactive, (Scheduler.weight_sessionQueueTask _ hbusy).1⟩
  | enter _ henter =>
      exact hmoved (State.pc_setPc _ _ _) (Scheduler.weight_sessionRunEnter henter hbusy).1
  | @run th sid job _ =>
      obtain ⟨p, _, hpc, _, hsched, _⟩ := s.taskRunEnter_spec th sid job
      have hrun : s.sched.taskRunEnter job =
          ((s.sched.taskRunEnter job).1, (s.sched.taskRunEnter job).2) := rfl
      exact hmoved hpc (hsched ▸ (Scheduler.weight_taskRunEnter hrun hbusy).1)
  | luacTask c writes _ _ =>
      exact ⟨State.fewActive_luac hactive _ _ c writes, s.sched_luac _ _ c writes ▸ hbusy⟩
  | luacPlain c writes _ =>
      have hactive' : ({ s with nextFrame := s.nextFrame + 1 } : State).FewActive := hactive
      refine ⟨State.fewActive_luac hactive' _ _ c writes, ?_⟩
      rw [State.sched_luac]
      exact hbusy
  | @callback th f full i rest _ =>
      obtain ⟨p, hpc, _, hsched, _⟩ := s.invoke_spec th f full i rest
      exact hmoved hpc (hsched ▸ hbusy)
  | @queue th f full job release rest _ =>
      exact hmoved (State.pc_setPc _ _ _) (Scheduler.weight_sessionQueueTask job hbusy).1
  | yielded _ _ =>
      exact hmoved (State.pc_setPc _ _ _) (Scheduler.weight_taskRunLeave _ _ _ hbusy).1
  | ended _ =>
      exact hmoved (State.pc_setPc _ _ _) (Scheduler.weight_taskRunLeave _ _ _ hbusy).1
  | @finish th sid _ =>
      exact hmoved (State.pc_setPc _ _ _) (Scheduler.fewBusy_sessionRunLeave sid hbusy)
  | close c =>
      obtain ⟨hpc, _, hsched, _⟩ := s.close_spec c
      simp only [State.FewActive, hpc, hsched]
      exact ⟨hactive, hbusy⟩
  | _ => exact hmoved (State.pc_setPc _ _ _) hbusy

/-- A session whose status is `running` is being run. -/
def View.Manned (v : View) : Prop :=
  ∀ sid, (v.sched.sessions sid).status = .running → ∃ th, (v.stage th).session = some sid

namespace View

theorem Manned.advance {v : View} (hv : v.Manned) {sched : Scheduler} {th : ThreadId} {st : Stage}
    (hkeep : ∀ sid, (sched.sessions sid).status = .running →
      st.session = some sid ∨ ((v.sched.sessions sid).status = .running ∧
        (v.stage th).session ≠ some sid)) :
    Manned ⟨sched, Function.update v.stage th st⟩ := by
  intro sid hrunning
  rcases hkeep sid hrunning with hst | ⟨hbefore, hother⟩
  · exact ⟨th, by simpa using hst⟩
  · obtain ⟨th', hth'⟩ := hv sid hbefore
    have hne : th' ≠ th := by
      intro heq
      rw [heq] at hth'
      exact hother hth'
    exact ⟨th', by simpa [hne] using hth'⟩

theorem Manned.keep {v : View} (hv : v.Manned) {sched : Scheduler}
    (hstatus : ∀ sid, (sched.sessions sid).status = (v.sched.sessions sid).status) :
    Manned { v with sched := sched } := by
  intro sid hrunning
  rw [hstatus] at hrunning
  exact hv sid hrunning

theorem Manned.within {v : View} (hv : v.Manned) {sched : Scheduler} {th : ThreadId} {st : Stage}
    (hsessions : sched.sessions = v.sched.sessions)
    (hsession : ∀ sid, (v.stage th).session = some sid → st.session = some sid) :
    Manned ⟨sched, Function.update v.stage th st⟩ := by
  apply hv.advance
  intro sid hrunning
  rw [hsessions] at hrunning
  by_cases hth : (v.stage th).session = some sid
  · exact .inl (hsession sid hth)
  · exact .inr ⟨hrunning, hth⟩

theorem Manned.move {R : LuaResult → Prop} {Q : ℕ → Prop} {v v' : View} (hv : v.Manned)
    (h : Move R Q v v') : v'.Manned := by
  cases h with
  | still => exact hv
  | newTask sid => exact hv.keep fun _ => rfl
  | gcTask tid =>
      apply hv.keep
      intro sid
      rw [(v.sched.sessions_taskFree tid).1]
  | queue job => exact hv.keep fun sid => (v.sched.sessionQueueTask_session job sid).1
  | take hstage _ =>
      apply hv.within rfl
      simp [hstage, Stage.session]
  | busy hstage _ =>
      apply hv.within rfl
      simp [hstage, Stage.session]
  | @enter th sid sched job hstage henter =>
      obtain ⟨_, _, rfl⟩ := Scheduler.sessionRunEnter_eq_some.mp henter
      apply hv.advance
      intro other hrunning
      by_cases hother : other = sid
      · subst hother
        exact .inl rfl
      · right
        simp only [Scheduler.setSession, Function.update_of_ne hother] at hrunning
        exact ⟨hrunning, by simp [hstage, Stage.session]⟩
  | none hstage =>
      apply hv.within rfl
      simp [hstage, Stage.session]
  | skip hstage hrun _ =>
      apply hv.within (Scheduler.sessions_taskRunEnter hrun).1
      simp [hstage, Stage.session]
  | resume hstage hrun =>
      apply hv.within (Scheduler.sessions_taskRunEnter hrun).1
      simp [hstage, Stage.session]
  | @leave th sid tid rc inChannel hstage _ =>
      apply hv.within (v.sched.sessions_taskRunLeave tid rc inChannel).1
      simp [hstage, Stage.session]
  | @finish th sid hstage _ =>
      apply hv.advance
      intro other hrunning
      right
      have hother : other ≠ sid := by
        rintro rfl
        unfold Scheduler.sessionRunLeave at hrunning
        simp only at hrunning
        split at hrunning <;> simp [Scheduler.setSession, Scheduler.submit] at hrunning
      rw [(v.sched.sessionRunLeave_session sid other).2 hother] at hrunning
      refine ⟨hrunning, ?_⟩
      simpa [hstage, Stage.session] using hother.symm

end View

/-- What the reachable states have in common, as far as work that has begun depends on it. -/
structure State.Steady (s : State) : Prop where
  finite : s.Finite
  manned : s.view.Manned
  rendezvous : ∀ c, Rendezvous (s.channels c)

theorem State.Steady.step {s next : State} {a : Label} (hs : s.Steady)
    (h : s.step a = some next) : next.Steady := by
  have hstep := step_cases h
  have hmove : AnyMove s.view next.view := anyMove_of_step h
  obtain ⟨hactive, hbusy⟩ := few_step hs.finite.active hs.finite.busy hstep
  exact ⟨⟨hactive, hbusy, hs.finite.exclusive.move hmove⟩, hs.manned.move hmove,
    rendezvous_step hs.rendezvous hstep⟩

theorem State.steady_start (size : ChannelId → Int) : (State.start size).Steady where
  finite := by
    refine ⟨?_, ?_, View.exclusive_start size⟩
    · simp [FewActive, pc, start, Pc.weight]
    · simp [Scheduler.FewBusy, start, Session.weight, queueNew]
  manned sid h := by cases h
  rendezvous c := channelNew_rendezvous (size c)

theorem State.Steady.run {s final : State} {as : List Label} (hs : s.Steady)
    (h : run State.step s as = some final) : final.Steady :=
  run_of_kind (fun _ _ _ hs (_ : True) hnext => hs.step hnext) hs (fun _ _ => trivial) h

/-! ### Nothing left to do -/

/-- No session has a job or is due to run, every accepted job has been popped, and no thread is
under way but in an `lc_sem_wait` that nobody has posted. -/
structure State.AtRest (s : State) : Prop where
  pool : s.sched.pool = []
  threads : ∀ th, s.pc th = .idle ∨ ∃ frame, s.pc th = .waiting frame ∧ (s.frames frame).sem = 0
  sessions : ∀ sid, (s.sched.sessions sid).status = .ready ∧ (s.sched.sessions sid).tasks = [] ∧
    (s.sched.sessions sid).popped = (s.sched.sessions sid).accepted

namespace State

theorem lockedSection_isSome {ch : Channel Waiter MessageId} (hc : Rendezvous ch) (w : Waiter)
    (op : Operation) : ∃ r, lockedSection ch w op = some r := by
  cases op with
  | write m =>
      rcases channelWriteLocked_cases hc m w with
        ⟨_, _, heq⟩ | ⟨_, _, heq⟩ | ⟨r, rest, _, _, _, _, heq⟩ | ⟨r, rest, _, _, _, _, heq⟩ <;>
        simp [lockedSection, heq, channelWriteCallbacks]
  | read =>
      rcases channelReadLocked_cases ch w with ⟨_, _, heq⟩ | ⟨hne, heq⟩
      · simp [lockedSection, heq, channelReadCallbacks]
      · cases hm : ch.messages with
        | cons m rest => simp [lockedSection, heq, channelReadCallbacks, hm]
        | nil =>
            cases hw : ch.writers with
            | cons x rest => simp [lockedSection, heq, channelReadCallbacks, hm, hw]
            | nil => simp [hm, hw] at hne

theorem idle_of_quiet {s : State} (hc : ∀ c, Rendezvous (s.channels c))
    (hquiet : Quiet State.step Label.CarriesOn s) (th : ThreadId) :
    s.pc th = .idle ∨ ∃ frame, s.pc th = .waiting frame ∧ (s.frames frame).sem = 0 := by
  cases hpc : s.pc th with
  | idle => exact .inl rfl
  | waiting frame =>
      have hwake := hquiet (.wake th) trivial
      simp only [step, hpc] at hwake
      exact .inr ⟨frame, rfl, by simpa using hwake⟩
  | entered sid =>
      have henter := hquiet (.enter th) trivial
      simp only [step, hpc] at henter
      split at henter <;> cases henter
  | popped sid job =>
      have hrun := hquiet (.taskRun th) trivial
      cases job <;> simp [step, hpc] at hrun
  | inTask sid tid =>
      have hended := hquiet (.ended th .ok) trivial
      simp [step, hpc] at hended
  | testing f c op =>
      have htest := hquiet (.test th) trivial
      simp only [step, hpc] at htest
      split at htest <;> cases htest
  | locking f c op =>
      have hlocked := hquiet (.locked th) trivial
      obtain ⟨r, hr⟩ := lockedSection_isSome (hc c) f.waiter op
      simp [step, hpc, hr] at hlocked
  | calling f full calls =>
      cases calls with
      | nil =>
          have hleave := hquiet (.leave th) trivial
          cases f <;> simp [step, hpc] at hleave
      | cons i rest =>
          have hcallback := hquiet (.callback th) trivial
          simp [step, hpc] at hcallback
  | queueing f full job release calls =>
      have hqueue := hquiet (.queue th) trivial
      simp [step, hpc] at hqueue
  | yielding sid tid current =>
      have hyielded := hquiet (.yielded th .yield) trivial
      simp [step, hpc] at hyielded
  | ran sid =>
      have hfinish := hquiet (.finish th) trivial
      simp [step, hpc] at hfinish

theorem exists_idle {s : State} (hactive : s.FewActive) : ∃ th, s.pc th = .idle := by
  obtain ⟨th, hth⟩ := Set.Finite.exists_notMem hactive
  refine ⟨th, ?_⟩
  have hzero : (s.pc th).weight = 0 := by simpa using hth
  cases hpc : s.pc th with
  | idle => rfl
  | _ => simp [hpc, Pc.weight] at hzero

theorem Steady.atRest {s : State} (hs : s.Steady) (hserved : s.view.Served)
    (hquiet : Quiet State.step Label.CarriesOn s) : s.AtRest := by
  have hthreads := idle_of_quiet hs.rendezvous hquiet
  have hoff : ∀ th, (s.pc th).stage = .outside := by
    intro th
    rcases hthreads th with hpc | ⟨frame, hpc, _⟩ <;> rw [hpc] <;> rfl
  have hpool : s.sched.pool = [] := by
    obtain ⟨th, hth⟩ := exists_idle hs.finite.active
    have htake := hquiet (.take th) trivial
    cases hentries : s.sched.pool with
    | nil => rfl
    | cons sid pool => simp [State.step, hth, hentries] at htake
  refine ⟨hpool, hthreads, fun sid => ?_⟩
  have hready : (s.sched.sessions sid).status = .ready := by
    rcases hserved.settled sid with hready | hrunning
    · exact hready
    · obtain ⟨th, hth⟩ := hs.manned sid hrunning
      simp [view, hoff, Stage.session] at hth
  have hempty : (s.sched.sessions sid).tasks = [] := by
    by_contra hne
    rcases hserved.awaited sid hne (by simp [view, hready]) with hmem | ⟨th, hth⟩
    · simp [view, hpool] at hmem
    · simp [view, hoff] at hth
  have hlog : (s.sched.sessions sid).accepted = (s.sched.sessions sid).popped ++
      (s.sched.sessions sid).tasks := hserved.inOrder sid
  exact ⟨hready, hempty, by simp [hlog, hempty]⟩

end State

/-! ### Jobs stay accepted -/

theorem grows_run {s final : State} {steps : List Label}
    (hrun : run State.step s steps = some final) (sid : SessionId) :
    (s.sched.sessions sid).accepted <+: (final.sched.sessions sid).accepted ∧
      (s.sched.sessions sid).popped <+: (final.sched.sessions sid).popped := by
  induction steps generalizing s with
  | nil =>
      cases hrun
      exact ⟨List.prefix_rfl, List.prefix_rfl⟩
  | cons a steps ih =>
      obtain ⟨next, hnext, hrest⟩ := run_cons_eq_some.mp hrun
      have hone := advances_of_move (anyMove_of_step hnext) sid
      exact ⟨hone.accepted.trans (ih hrest).1, hone.popped.trans (ih hrest).2⟩

theorem State.served_run {size : ChannelId → Int} {steps : List Label} {s : State}
    (hsees : Respects State.step SeesJobs (start size) steps)
    (hrun : run State.step (start size) steps = some s) : s.view.Served :=
  hsees.run_invariant (I := fun s => s.view.Served)
    (fun _ _ _ hs hsees hnext => hs.move (hsees.move hnext)) (View.served_start size) hrun

theorem State.quiet_of_idle {s : State} (hidle : ∀ th, s.pc th = .idle)
    (hpool : s.sched.pool = []) : Quiet State.step Label.CarriesOn s := by
  intro a ha
  cases a <;> first | exact ha.elim | simp [State.step, hidle, hpool]

end Casting.Runtime
