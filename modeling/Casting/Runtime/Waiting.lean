import Casting.Runtime.Exclusion

/-!
# Waiting for a session

`session_wait` takes one post from the semaphore of the session.  `session_run` posts it whenever
it finds the queue empty, so posts of earlier idle periods are there for later calls.
-/

namespace Casting.Runtime

open Transition

def Stage.job : Stage → Option SessionId
  | .popped sid (some _) | .inside sid _ => some sid
  | _ => none

theorem Stage.session_of_job {st : Stage} {sid : SessionId} (h : st.job = some sid) :
    st.session = some sid := by
  cases st with
  | popped other job =>
      cases job with
      | none => cases h
      | some job => exact h
  | inside other tid => exact h
  | _ => cases h

/-- The run-time system with calls of `session_wait`.  For a thread that runs a job `running` has
the session and the number of the job there; for a call `waiting`, and for one that has returned
`returned`, have the session and the jobs that it had accepted when the call was made; and `taken`
counts the posts that were waited for. -/
structure WaitLog where
  state : State
  running : ThreadId → Option (SessionId × Nat)
  taken : SessionId → Nat
  waiting : ThreadId → Option (SessionId × List Job)
  returned : List (SessionId × List Job)

inductive WaitLabel
  | run (a : Label)
  | call (th : ThreadId) (sid : SessionId)
  | wake (th : ThreadId)
  deriving DecidableEq, Repr

namespace WaitLog

def start (size : ChannelId → Int) : WaitLog :=
  ⟨State.start size, fun _ => none, fun _ => 0, fun _ => none, []⟩

def session (l : WaitLog) (sid : SessionId) : Session := l.state.sched.sessions sid

/-- A job is numbered by the jobs popped before it. -/
def nextRunning (l : WaitLog) (next : State) (th : ThreadId) : Option (SessionId × Nat) :=
  (next.pc th).stage.job.map fun sid => (l.running th).getD (sid, (l.session sid).popped.length)

def called (l : WaitLog) (th : ThreadId) (sid : SessionId) : WaitLog :=
  { l with waiting := Function.update l.waiting th (some (sid, (l.session sid).accepted)) }

def step (l : WaitLog) : WaitLabel → Option WaitLog
  | .run a => (l.state.step a).map fun next =>
      { l with state := next, running := l.nextRunning next }
  | .call th sid =>
      match l.waiting th with
      | none => some (l.called th sid)
      | some _ => none
  | .wake th =>
      match l.waiting th with
      | some (sid, jobs) =>
          if l.taken sid < (l.session sid).sem then
            some { l with
              taken := Function.update l.taken sid (l.taken sid + 1)
              waiting := Function.update l.waiting th none
              returned := l.returned ++ [(sid, jobs)] }
          else none
      | none => none

/-- The jobs, the first ones accepted for the session, have been popped, and no thread is still
running one of them. -/
def Done (l : WaitLog) (sid : SessionId) (jobs : List Job) : Prop :=
  jobs <+: (l.session sid).popped ∧ ∀ th i, l.running th = some (sid, i) → jobs.length ≤ i

/-- What was accepted before a call of `session_wait` is done when the call has returned. -/
def Waits (l : WaitLog) : Prop := ∀ w ∈ l.returned, l.Done w.1 w.2

/-- A call of `session_wait` finds no post left over, or nothing to wait for; and `session_run`
sees the jobs that it leaves. -/
def NothingLeft (l : WaitLog) : WaitLabel → Prop
  | .call _ sid => l.taken sid = (l.session sid).sem ∨ l.Done sid (l.session sid).accepted
  | .run a => l.state.SeesJobs a
  | .wake _ => True

end WaitLog

/-! ### What a move does to a session -/

/-- Jobs are accepted and popped in order, and the semaphore is posted only by the last thread to
leave the session, with a queue that `queue_size` counts as empty. -/
structure Advances (Q : ℕ → Prop) (v v' : View) (sid : SessionId) : Prop where
  accepted : (v.sched.sessions sid).accepted <+: (v'.sched.sessions sid).accepted
  popped : (v.sched.sessions sid).popped <+: (v'.sched.sessions sid).popped
  sem : (v'.sched.sessions sid).sem = (v.sched.sessions sid).sem ∨
    (queueSize (v'.sched.sessions sid).tasks = 0 ∧ Q (v'.sched.sessions sid).tasks.length ∧
      ∃ th, v.stage th = .ran sid ∧ v'.stage = Function.update v.stage th .outside)

theorem Advances.of_same {Q : ℕ → Prop} {v v' : View} {sid : SessionId}
    (h : v'.sched.sessions sid = v.sched.sessions sid) : Advances Q v v' sid where
  accepted := ⟨[], by rw [h, List.append_nil]⟩
  popped := ⟨[], by rw [h, List.append_nil]⟩
  sem := .inl (by rw [h])

theorem advances_of_move {R : LuaResult → Prop} {Q : ℕ → Prop} {v v' : View}
    (h : Move R Q v v') (sid : SessionId) : Advances Q v v' sid := by
  cases h with
  | still | newTask | take | busy | none => exact .of_same rfl
  | gcTask tid => exact .of_same (congrFun (v.sched.sessions_taskFree tid).1 sid)
  | skip _ hrun _ | resume _ hrun =>
      exact .of_same (congrFun (Scheduler.sessions_taskRunEnter hrun).1 sid)
  | leave inChannel _ _ =>
      exact .of_same (congrFun (v.sched.sessions_taskRunLeave _ _ inChannel).1 sid)
  | queue job =>
      rcases v.sched.sessionQueueTask_cases job with ⟨_, heq⟩ | ⟨t, _, _, _, hsessions, _⟩
      · rw [heq]
        exact .of_same rfl
      · by_cases hsid : sid = t.sid
        · subst hsid
          constructor <;> simp only [hsessions, Function.update_self]
          · exact List.prefix_append _ _
          · exact List.prefix_refl _
          · exact .inl trivial
        · exact .of_same (by simp only [hsessions, Function.update_of_ne hsid])
  | @enter th other sched job hstage henter =>
      obtain ⟨_, _, rfl⟩ := Scheduler.sessionRunEnter_eq_some.mp henter
      by_cases hsid : sid = other
      · subst hsid
        constructor <;> simp only [Scheduler.setSession, Function.update_self]
        · exact List.prefix_refl _
        · exact List.prefix_append _ _
        · exact .inl trivial
      · exact .of_same (by simp only [Scheduler.setSession, Function.update_of_ne hsid])
  | @finish th other hstage hleft =>
      by_cases hsid : sid = other
      · subst hsid
        by_cases hempty : queueSize (v.sched.sessions sid).tasks = 0
        · simp only [Scheduler.sessionRunLeave, hempty, if_true]
          constructor <;> simp only [Scheduler.setSession, Function.update_self]
          · exact List.prefix_refl _
          · exact List.prefix_refl _
          · exact .inr ⟨hempty, hleft, th, hstage, rfl⟩
        · simp only [Scheduler.sessionRunLeave, hempty, if_false]
          constructor <;>
            simp only [Scheduler.submit, Scheduler.setSession, Function.update_self]
          · exact List.prefix_refl _
          · exact List.prefix_refl _
          · exact .inl trivial
      · exact .of_same ((v.sched.sessionRunLeave_session other sid).2 hsid)

theorem job_of_move {R : LuaResult → Prop} {Q : ℕ → Prop} {v v' : View} (h : Move R Q v v')
    {th : ThreadId} {sid : SessionId} (hjob : (v'.stage th).job = some sid) :
    (v.stage th).job = some sid ∨ ((v.stage th).job = none ∧
      (v.sched.sessions sid).popped.length < (v'.sched.sessions sid).popped.length) := by
  have hmoved : ∀ {other : ThreadId} {st : Stage},
      (Function.update v.stage other st th).job = some sid →
      (th = other ∧ st.job = some sid) ∨ (v.stage th).job = some sid := by
    intro other st hst
    by_cases hth : th = other
    · subst hth
      rw [Function.update_self] at hst
      exact .inl ⟨rfl, hst⟩
    · rw [Function.update_of_ne hth] at hst
      exact .inr hst
  cases h with
  | still | newTask | gcTask | queue => exact .inl hjob
  | take | busy | none | skip | leave | finish =>
      rcases hmoved hjob with ⟨_, hst⟩ | h
      · cases hst
      · exact .inl h
  | @resume other sid' job sched hstage hrun =>
      rcases hmoved hjob with ⟨rfl, hst⟩ | h
      · left
        rw [hstage]
        exact hst
      · exact .inl h
  | @enter other sid' sched job hstage henter =>
      rcases hmoved hjob with ⟨rfl, hst⟩ | h
      · right
        cases job with
        | none => cases hst
        | some job =>
            cases hst
            obtain ⟨_, _, rfl⟩ := Scheduler.sessionRunEnter_eq_some.mp henter
            rw [hstage]
            simp [Scheduler.setSession, Stage.job]
      · exact .inl h

namespace WaitLog

/-- A semaphore with a post left has nothing to wait for. -/
structure Kept (l : WaitLog) : Prop where
  served : l.state.view.Served
  exclusive : l.state.view.Exclusive
  job : ∀ th, (l.running th).map Prod.fst = (l.state.pc th).stage.job
  numbered : ∀ th sid i, l.running th = some (sid, i) → i < (l.session sid).popped.length
  waiting : ∀ th sid jobs, l.waiting th = some (sid, jobs) →
    jobs <+: (l.session sid).accepted ∧
      (l.taken sid = (l.session sid).sem ∨ l.Done sid jobs)
  returned : l.Waits

theorem start_kept (size : ChannelId → Int) : (start size).Kept where
  served := View.served_start size
  exclusive := View.exclusive_start size
  job th := rfl
  numbered th sid i h := by cases h
  waiting th sid jobs h := by cases h
  returned w h := by cases h

theorem Kept.nextRunning_job {l : WaitLog} {next : State} (hl : l.Kept)
    (hmove : Move (fun _ => True) Seen l.state.view next.view) (th : ThreadId) :
    (l.nextRunning next th).map Prod.fst = (next.pc th).stage.job := by
  unfold nextRunning
  cases hjob : (next.pc th).stage.job with
  | none => rfl
  | some sid =>
      have hbefore := hl.job th
      cases hrunning : l.running th with
      | none => rfl
      | some numbered =>
          rw [hrunning] at hbefore
          rcases job_of_move hmove hjob with hold | ⟨hnone, _⟩
          · exact hbefore.trans hold
          · have hsome : some numbered.1 = none := hbefore.trans hnone
            cases hsome

theorem nextRunning_cases {l : WaitLog} {next : State} {th : ThreadId} {sid : SessionId} {i : Nat}
    (hl : l.Kept) (hmove : Move (fun _ => True) Seen l.state.view next.view)
    (h : l.nextRunning next th = some (sid, i)) :
    l.running th = some (sid, i) ∨ (i = (l.session sid).popped.length ∧
      (l.session sid).popped.length < (next.sched.sessions sid).popped.length) := by
  obtain ⟨sid', hjob, heq⟩ := Option.map_eq_some_iff.mp h
  have hbefore := hl.job th
  cases hrunning : l.running th with
  | some numbered =>
      rw [hrunning] at heq
      exact .inl (congrArg some heq)
  | none =>
      right
      rw [hrunning] at heq hbefore
      cases heq
      rcases job_of_move hmove hjob with hold | ⟨_, hlt⟩
      · have hnone : none = some sid := hbefore.trans hold
        cases hnone
      · exact ⟨rfl, hlt⟩

theorem Done.run {l : WaitLog} {next : State} {sid : SessionId} {jobs : List Job}
    (hdone : l.Done sid jobs) (hl : l.Kept)
    (hmove : Move (fun _ => True) Seen l.state.view next.view) :
    Done { l with state := next, running := l.nextRunning next } sid jobs := by
  obtain ⟨hinitial, hnone⟩ := hdone
  refine ⟨hinitial.trans (advances_of_move hmove sid).popped, ?_⟩
  intro th i hi
  rcases nextRunning_cases hl hmove hi with hold | ⟨rfl, _⟩
  · exact hnone th i hold
  · exact hinitial.length_le

/-- When the semaphore is posted, everything accepted is done. -/
theorem Kept.done_of_posted {l : WaitLog} {next : State} {sid : SessionId} {th : ThreadId}
    {jobs : List Job} (hl : l.Kept)
    (hmove : Move (fun _ => True) Seen l.state.view next.view)
    (hjobs : jobs <+: (next.sched.sessions sid).accepted)
    (hempty : (next.sched.sessions sid).tasks = []) (hran : l.state.view.stage th = .ran sid)
    (hstage : next.view.stage = Function.update l.state.view.stage th .outside) :
    Done { l with state := next, running := l.nextRunning next } sid jobs := by
  constructor
  · have horder := (hl.served.move hmove).inOrder sid
    have hall : (next.sched.sessions sid).accepted = (next.sched.sessions sid).popped := by
      have hnil : (next.view.sched.sessions sid).tasks = [] := hempty
      rw [hnil, List.append_nil] at horder
      exact horder
    rw [hall] at hjobs
    exact hjobs
  · intro other i hi
    have hjob := hl.nextRunning_job hmove other
    have hnumbered : l.nextRunning next other = some (sid, i) := hi
    rw [hnumbered] at hjob
    have hstage' := congrFun hstage other
    -- the thread that leaves was alone in the session
    by_cases hother : other = th
    · rw [hother, Function.update_self] at hstage'
      have hout : (next.pc th).stage = .outside := hstage'
      rw [hother, hout] at hjob
      cases hjob
    · rw [Function.update_of_ne hother] at hstage'
      have hsame : (next.pc other).stage = l.state.view.stage other := hstage'
      rw [hsame] at hjob
      have hran' : (l.state.view.stage th).session = some sid := by
        rw [hran]
        rfl
      exact absurd (hl.exclusive.alone other th sid (Stage.session_of_job hjob.symm) hran') hother

theorem Kept.run {l : WaitLog} {a : Label} {next : State} (hl : l.Kept)
    (hsees : l.state.SeesJobs a) (h : l.state.step a = some next) :
    Kept { l with state := next, running := l.nextRunning next } := by
  have hmove := hsees.move h
  constructor
  · exact hl.served.move hmove
  · exact hl.exclusive.move hmove
  · exact hl.nextRunning_job hmove
  · intro th sid i hi
    have hgrows := (advances_of_move hmove sid).popped.length_le
    rcases nextRunning_cases hl hmove hi with hold | ⟨rfl, hlt⟩
    · exact Nat.lt_of_lt_of_le (hl.numbered th sid i hold) hgrows
    · exact hlt
  · intro th sid jobs hth
    obtain ⟨hinitial, hleft⟩ := hl.waiting th sid jobs hth
    have hadvances := advances_of_move hmove sid
    have hjobs : jobs <+: (next.sched.sessions sid).accepted := hinitial.trans hadvances.accepted
    refine ⟨hjobs, ?_⟩
    rcases hadvances.sem with hsem | ⟨hempty, hseen, other, hran, hstage⟩
    · rcases hleft with heq | hdone
      · exact .inl (heq.trans hsem.symm)
      · exact .inr (hdone.run hl hmove)
    · have hnil := (queueSize_eq_zero_iff_of_seen hseen).mp hempty
      exact .inr (hl.done_of_posted hmove hjobs hnil hran hstage)
  · intro w hw
    exact (hl.returned w hw).run hl hmove

theorem Kept.call {l next : WaitLog} {th : ThreadId} {sid : SessionId} (hl : l.Kept)
    (hguard : l.NothingLeft (.call th sid)) (h : l.step (.call th sid) = some next) :
    next.Kept := by
  simp only [step] at h
  split at h
  · cases h
    refine ⟨hl.served, hl.exclusive, hl.job, hl.numbered, ?_, hl.returned⟩
    intro other sid' jobs hother
    by_cases heq : other = th
    · subst heq
      simp only [called, Function.update_self, Option.some.injEq, Prod.mk.injEq] at hother
      obtain ⟨rfl, rfl⟩ := hother
      exact ⟨List.prefix_refl _, hguard⟩
    · simp only [called, Function.update_of_ne heq] at hother
      exact hl.waiting other sid' jobs hother
  · cases h

theorem Kept.wake {l next : WaitLog} {th : ThreadId} (hl : l.Kept)
    (h : l.step (.wake th) = some next) : next.Kept := by
  simp only [step] at h
  split at h
  · rename_i sid jobs hwaiting
    split at h <;> cases h
    rename_i hlt
    have hposted : ∀ other jobs', l.waiting other = some (sid, jobs') → l.Done sid jobs' := by
      intro other jobs' hother
      rcases (hl.waiting other sid jobs' hother).2 with heq | hdone
      · exact absurd heq (Nat.ne_of_lt hlt)
      · exact hdone
    refine ⟨hl.served, hl.exclusive, hl.job, hl.numbered, ?_, ?_⟩
    · intro other sid' jobs' hother
      have hne : other ≠ th := by
        rintro rfl
        simp at hother
      simp only [Function.update_of_ne hne] at hother
      obtain ⟨hinitial, hleft⟩ := hl.waiting other sid' jobs' hother
      refine ⟨hinitial, ?_⟩
      by_cases hsid : sid' = sid
      · subst hsid
        exact .inr (hposted other jobs' hother)
      · simp only [Function.update_of_ne hsid]
        exact hleft
    · intro w hw
      rcases List.mem_append.mp hw with hold | hnew
      · exact hl.returned w hold
      · rw [List.mem_singleton.mp hnew]
        exact hposted th jobs hwaiting
  · cases h

/-- In every run in which `session_wait` is called only where no post is left over, or nothing is
to be waited for, and `session_run` sees the jobs that it leaves, what was accepted before a call is
done when the call has returned. -/
theorem waits_throughout (size : ChannelId → Int) (steps : List WaitLabel)
    (hguard : Respects step NothingLeft (start size) steps) :
    Throughout step Waits (start size) steps := by
  have hstep : ∀ l a next, Kept l → NothingLeft l a → step l a = some next → Kept next := by
    intro l a next hl hnone h
    cases a with
    | run a =>
        obtain ⟨state, hstate, rfl⟩ := Option.map_eq_some_iff.mp h
        exact hl.run hnone hstate
    | call th sid => exact hl.call hnone h
    | wake th => exact hl.wake h
  exact throughout_of_respects hstep (fun _ hl => hl.returned) (start_kept size) hguard

/-- A call that finds a post left over can return at once, whatever is still to be done. -/
theorem returns_at_once {l : WaitLog} {th : ThreadId} {sid : SessionId}
    (hfree : l.waiting th = none) (hleft : l.taken sid < (l.session sid).sem) :
    ∃ next, run step l [.call th sid, .wake th] = some next ∧ next.state = l.state ∧
      (sid, (l.session sid).accepted) ∈ next.returned := by
  have hcall : step l (.call th sid) = some (l.called th sid) := by
    simp only [step, hfree]
  have hwaiting : (l.called th sid).waiting th = some (sid, (l.session sid).accepted) :=
    Function.update_self _ _ _
  have hposted : (l.called th sid).taken sid < ((l.called th sid).session sid).sem := hleft
  rw [run, hcall, Option.bind_some, run, step, hwaiting]
  simp only [if_pos hposted, Option.bind_some]
  exact ⟨_, rfl, rfl, List.mem_append_right _ List.mem_cons_self⟩

def Unposted (l : WaitLog) : WaitLabel → Prop
  | .call _ sid => l.taken sid = (l.session sid).sem
  | .run a => l.state.SeesJobs a
  | .wake _ => True

instance (l : WaitLog) (a : WaitLabel) : Decidable (l.Unposted a) :=
  match a with
  | .call _ sid => inferInstanceAs (Decidable (l.taken sid = (l.session sid).sem))
  | .run a => inferInstanceAs (Decidable (l.state.SeesJobs a))
  | .wake _ => .isTrue trivial

theorem Unposted.nothingLeft {l : WaitLog} {a : WaitLabel} (h : l.Unposted a) :
    l.NothingLeft a := by
  cases a with
  | call th sid => exact .inl h
  | run a => exact h
  | wake th => trivial

/-- One job, and a call made while it is queued. -/
theorem waits_one_job :
    let steps : List WaitLabel := [.run (.newTask 0), .run (.queueTask 1 true), .call 9 0,
      .run (.take 0), .run (.enter 0), .run (.taskRun 0), .run (.ended 0 .ok), .run (.finish 0),
      .wake 9]
    Throughout step Waits (start fun _ => 1) steps := by
  intro steps
  have hunposted : Respects step Unposted (start fun _ => 1) steps := by decide
  exact waits_throughout (fun _ => 1) steps (hunposted.mono fun _ _ h => h.nothingLeft)

/-- The post of the first job is left over when the second job is waited for. -/
theorem waits_fails :
    ¬ ∀ (size : ChannelId → Int) (steps : List WaitLabel),
      Throughout step Waits (start size) steps := by
  intro hall
  have h := hall (fun _ => 1) [.run (.newTask 0), .run (.queueTask 1 true), .run (.take 0),
    .run (.enter 0), .run (.taskRun 0), .run (.ended 0 .ok), .run (.finish 0),
    .run (.newTask 0), .run (.queueTask 2 true), .call 9 0, .wake 9]
  have hwaits := ((((((((((h.2 _ rfl).2 _ rfl).2 _ rfl).2 _ rfl).2 _ rfl).2 _ rfl).2 _ rfl).2 _
    rfl).2 _ rfl).2 _ rfl).2 _ rfl
  have hdone := hwaits _ List.mem_cons_self
  exact absurd hdone.1.length_le (by decide)

end WaitLog

end Casting.Runtime
