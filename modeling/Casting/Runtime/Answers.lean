import Casting.Runtime.Plain
import Casting.Runtime.Settling

/-!
# Answers

Each call of `channel_read` or `channel_write` gives the channel a callback.  What becomes of it:
it is called once, or the call is refused with `ERR_CLOSED`, or it stays parked.
-/

namespace Casting.Runtime

open Transition

/-- How a call of `channel_read` or `channel_write` ends for whom it is made. -/
inductive Outcome
  /-- the callback posted the semaphore, or called `session_queue_task` -/
  | answered
  /-- the callback was told that the channel closes -/
  | closed
  /-- the task of the callback had ended or was gone -/
  | dropped
  /-- `ERR_CLOSED` -/
  | refused
  deriving DecidableEq, Repr

/-- The callbacks that a thread has still to make or to give to a channel. -/
def Pc.owes : Pc → List Waiter
  | .testing f _ _ | .locking f _ _ => [f.waiter]
  | .calling _ _ calls => calls.map Invocation.cb
  | .queueing _ _ job _ calls => .task job.tid :: calls.map Invocation.cb
  | _ => []

namespace State

/-- The calls of `channel_read` and `channel_write` that a step begins, each by its callback.  In a
task this is `task_callback` with the id that `task_current` returns, which may be a stale one. -/
def callsMade (s : State) : Label → List Waiter
  | .luac th c _ =>
      if (s.channels c).status = .channelClosed then []
      else
        match s.pc th, (s.threads th).taskKey with
        | .inTask _ _, some current => [.task current]
        | .idle, _ => [.session s.nextFrame]
        | _, _ => []
  | _ => []

/-- What a callback that is made comes to, unless it goes on to `session_queue_task`. -/
def calledBack (s : State) (i : Callback) : List (Waiter × Outcome) :=
  match i.cb, i.event with
  | _, .closed => [(i.cb, .closed)]
  | .task tid, _ => if s.sched.taskResumable tid then [] else [(i.cb, .dropped)]
  | .session _, _ => [(i.cb, .answered)]

def outcomes (s : State) : Label → List (Waiter × Outcome)
  | .test th =>
      match s.pc th with
      | .testing f c _ =>
          if (s.channels c).status = .channelClosed then [(f.waiter, .refused)] else []
      | _ => []
  | .callback th =>
      match s.pc th with
      | .calling _ _ (i :: _) => s.calledBack i
      | _ => []
  | .queue th =>
      match s.pc th with
      | .queueing _ _ job _ _ => [(.task job.tid, .answered)]
      | _ => []
  | .close c => (channelClose (s.channels c)).2.2.flatMap s.calledBack
  | _ => []

/-- The calls outside tasks whose callback is made in the step. -/
def calledFrames (s : State) : Label → List FrameId
  | .callback th =>
      match s.pc th with
      | .calling _ _ (i :: _) => i.cb.frame.toList
      | _ => []
  | .close c => (channelClose (s.channels c)).2.2.filterMap fun i => i.cb.frame
  | _ => []

/-- How many calls made for `w` have not ended. -/
noncomputable def owed (s : State) (w : Waiter) : ℕ :=
  (∑ᶠ th, (s.pc th).owes.count w) + ∑ᶠ c, (s.channels c).callbacks.count w

/-- Finitely many threads and channels have a callback of `w`. -/
structure FewOwing (w : Waiter) (s : State) : Prop where
  threads : (Function.support fun th => (s.pc th).owes.count w).Finite
  channels : (Function.support fun c => (s.channels c).callbacks.count w).Finite

variable {s next : State} {w : Waiter}

theorem FewOwing.thread (hs : s.FewOwing w) {th : ThreadId} {p : Pc}
    (hpc : next.pc = Function.update s.pc th p) (hchannels : next.channels = s.channels) :
    next.FewOwing w ∧
      next.owed w + (s.pc th).owes.count w = s.owed w + p.owes.count w := by
  have hsum := finsum_update_add (f := s.pc) (w := fun p => p.owes.count w) hs.threads th p
  constructor
  · constructor
    · rw [hpc]
      exact finite_support_update (f := s.pc) (w := fun p => p.owes.count w) hs.threads th p
    · rw [hchannels]
      exact hs.channels
  · simp only [owed, hpc, hchannels]
    omega

theorem FewOwing.channel (hs : s.FewOwing w) {c : ChannelId} {ch : Channel Waiter MessageId}
    (hpc : next.pc = s.pc) (hchannels : next.channels = Function.update s.channels c ch) :
    next.FewOwing w ∧
      next.owed w + (s.channels c).callbacks.count w = s.owed w + ch.callbacks.count w := by
  have hsum := finsum_update_add (f := s.channels) (w := fun ch => ch.callbacks.count w)
    hs.channels c ch
  constructor
  · constructor
    · rw [hpc]
      exact hs.threads
    · rw [hchannels]
      exact finite_support_update (f := s.channels) (w := fun ch => ch.callbacks.count w)
        hs.channels c ch
  · simp only [owed, hpc, hchannels]
    omega

theorem FewOwing.same (hs : s.FewOwing w) (hpc : next.pc = s.pc)
    (hchannels : next.channels = s.channels) : next.FewOwing w ∧ next.owed w = s.owed w := by
  simp only [owed, hpc, hchannels]
  refine ⟨⟨?_, ?_⟩, trivial⟩
  · rw [hpc]
    exact hs.threads
  · rw [hchannels]
    exact hs.channels

theorem FewOwing.pass (hs : s.FewOwing w) {th : ThreadId} {p : Pc}
    (hpc : next.pc = Function.update s.pc th p) (hchannels : next.channels = s.channels)
    (hbefore : (s.pc th).owes = []) (hafter : p.owes = []) :
    next.FewOwing w ∧ s.owed w + 0 = next.owed w + 0 := by
  obtain ⟨hnext, hsum⟩ := hs.thread hpc hchannels
  rw [hbefore, hafter] at hsum
  exact ⟨hnext, hsum.symm⟩

theorem FewOwing.luac (hs : s.FewOwing w) {th : ThreadId} {f : CallFrame} (c : ChannelId)
    (writes : Bool) (hbefore : (s.pc th).owes = []) :
    (s.luac th f c writes).FewOwing w ∧
      s.owed w + (if (s.channels c).status = .channelClosed then [] else [f.waiter]).count w =
        (s.luac th f c writes).owed w + 0 := by
  have htesting : ∀ {next : State} {op : Operation},
      next.pc = Function.update s.pc th (.testing f c op) → next.channels = s.channels →
        next.FewOwing w ∧ s.owed w + [f.waiter].count w = next.owed w + 0 := by
    intro next op hpc hchannels
    obtain ⟨hnext, hsum⟩ := hs.thread hpc hchannels
    rw [hbefore] at hsum
    exact ⟨hnext, hsum.symm⟩
  rcases s.luac_cases th f c writes with ⟨hclosed, heq⟩ | ⟨hopen, heq⟩
  · rw [heq, if_pos hclosed]
    exact ⟨hs, rfl⟩
  · rw [if_neg (by simp [hopen])]
    rcases heq with heq | heq <;> rw [heq]
    · exact htesting (pc_setPc _ _ _) rfl
    · exact htesting (pc_setPc _ _ _) rfl

theorem owes_invoke (s : State) (th : ThreadId) (f : CallFrame) (full : Bool) (i : Callback)
    (rest : List Callback) :
    ∃ p, (s.invoke th f full i rest).pc = Function.update s.pc th p ∧
      (s.invoke th f full i rest).channels = s.channels ∧
      (s.calledBack i).map Prod.fst ++ p.owes = i.cb :: rest.map Invocation.cb := by
  obtain ⟨cb, m, event⟩ := i
  cases cb with
  | session frame =>
      refine ⟨.calling f full rest, ?_⟩
      cases event <;> simp [invoke, calledBack, Pc.owes]
  | task tid =>
      cases hres : s.sched.taskResumable tid <;> cases event
      case true.read =>
        refine ⟨.queueing f full ⟨tid, m⟩ none rest, ?_⟩
        simp [invoke, hres, calledBack, Pc.owes]
      case true.write =>
        refine ⟨.queueing f full ⟨tid, some s.store.msgNew.1⟩ m rest, ?_⟩
        simp [invoke, hres, calledBack, Pc.owes]
        rfl
      all_goals
        refine ⟨.calling f full rest, ?_⟩
        simp [invoke, hres, calledBack, Pc.owes]
        try rfl

theorem outcomes_close (s : State) (c : ChannelId) :
    s.outcomes (.close c) =
      (channelClose (s.channels c)).2.2.map fun i => (i.cb, .closed) := by
  have hclosed : ∀ i ∈ (channelClose (s.channels c)).2.2, s.calledBack i = [(i.cb, .closed)] := by
    cases hstatus : (s.channels c).status with
    | channelClosed => simp [channelClose, hstatus]
    | channelOpen =>
        intro i hi
        rcases (channelClose_callbacks hstatus).2.2.2 i hi with ⟨r, _, rfl⟩ | ⟨x, _, rfl⟩ <;> rfl
  rw [outcomes, List.flatMap_congr hclosed]
  exact List.map_eq_flatMap.symm

theorem ended_close (s : State) (c : ChannelId) :
    (s.outcomes (.close c)).map Prod.fst ++ (channelClose (s.channels c)).1.callbacks =
      (s.channels c).callbacks := by
  have hended : (s.outcomes (.close c)).map Prod.fst =
      (channelClose (s.channels c)).2.2.map Invocation.cb := by
    rw [outcomes_close, List.map_map]
    rfl
  rw [hended]
  cases hstatus : (s.channels c).status with
  | channelClosed => simp [channelClose, hstatus]
  | channelOpen =>
      obtain ⟨_, hempty, hcalled, _⟩ := channelClose_callbacks hstatus
      rw [hcalled, hempty, List.append_nil]

theorem owed_step {a : Label} (hs : s.FewOwing w) (hc : ∀ c, Rendezvous (s.channels c))
    (h : s.step a = some next) :
    next.FewOwing w ∧ s.owed w + (s.callsMade a).count w =
      next.owed w + ((s.outcomes a).map Prod.fst).count w := by
  have hsame : next.pc = s.pc → next.channels = s.channels →
      next.FewOwing w ∧ s.owed w + 0 = next.owed w + 0 := by
    intro hpc hchannels
    obtain ⟨hnext, howed⟩ := hs.same hpc hchannels
    exact ⟨hnext, howed.symm⟩
  cases step_cases h with
  | newTask | gcTask | queueTask | queueMessage | refuse => exact hsame rfl rfl
  | take hpc _ => exact hs.pass (pc_setPc _ _ _) rfl (by rw [hpc]; rfl) rfl
  | enterBusy hpc _ => exact hs.pass (pc_setPc _ _ _) rfl (by rw [hpc]; rfl) rfl
  | enter hpc _ => exact hs.pass (pc_setPc _ _ _) rfl (by rw [hpc]; rfl) rfl
  | runNone hpc => exact hs.pass (pc_setPc _ _ _) rfl (by rw [hpc]; rfl) rfl
  | wake hpc => exact hs.pass (pc_setPc _ _ _) rfl (by rw [hpc]; rfl) rfl
  | yielded hpc _ => exact hs.pass (pc_setPc _ _ _) rfl (by rw [hpc]; rfl) rfl
  | ended hpc => exact hs.pass (pc_setPc _ _ _) rfl (by rw [hpc]; rfl) rfl
  | finish hpc => exact hs.pass (pc_setPc _ _ _) rfl (by rw [hpc]; rfl) rfl
  | leaveTask hpc => exact hs.pass (pc_setPc _ _ _) rfl (by rw [hpc]; rfl) rfl
  | @leavePlain th frame full hpc =>
      refine hs.pass (pc_setPc _ _ _) rfl (by rw [hpc]; rfl) ?_
      cases full <;> rfl
  | @run th sid job hpc =>
      obtain ⟨p, hp, hpc', hchannels, _⟩ := s.taskRunEnter_spec th sid job
      refine hs.pass hpc' hchannels (by rw [hpc]; rfl) ?_
      rcases hp with rfl | rfl <;> rfl
  | @luacTask th sid tid current c writes hpc hkey =>
      simp only [callsMade, hpc, hkey]
      exact hs.luac (f := .task sid tid current) c writes (by rw [hpc]; rfl)
  | @luacPlain th c writes hpc =>
      simp only [callsMade, hpc]
      exact FewOwing.luac (s := { s with nextFrame := s.nextFrame + 1 }) (f := .plain s.nextFrame)
        ⟨hs.threads, hs.channels⟩ c writes (by change (s.pc th).owes = []; rw [hpc]; rfl)
  | testClosed hpc hclosed =>
      obtain ⟨hnext, hsum⟩ := hs.thread (pc_setPc _ _ _) (channels_setPc _ _ _)
      refine ⟨hnext, ?_⟩
      rw [hpc] at hsum
      simp only [outcomes, hpc, hclosed, if_true]
      exact hsum.symm
  | test hpc hopen =>
      obtain ⟨hnext, hsum⟩ := hs.thread (pc_setPc _ _ _) (channels_setPc _ _ _)
      refine ⟨hnext, ?_⟩
      rw [hpc] at hsum
      simp only [outcomes, hpc, hopen, if_false]
      exact (Nat.add_right_cancel hsum).symm
  | @locked th f c op ch full calls hpc hsection =>
      have hperm := (lockedSection_waiters (hc c) hsection).count_eq w
      obtain ⟨hmid, hchannel⟩ := hs.channel (s.pc_setChannel c ch) (s.channels_setChannel c ch)
      obtain ⟨hnext, hsum⟩ := hmid.thread (pc_setPc _ th (.calling f full calls))
        (channels_setPc _ _ _)
      refine ⟨hnext, ?_⟩
      rw [pc_setChannel, hpc] at hsum
      simp only [Pc.owes, List.count_append, List.count_cons, List.count_nil] at hperm hsum
      simp only [callsMade, outcomes, List.map_nil, List.count_nil]
      omega
  | @callback th f full i rest hpc =>
      obtain ⟨p, hpc', hchannels, howes⟩ := s.owes_invoke th f full i rest
      obtain ⟨hnext, hsum⟩ := hs.thread hpc' hchannels
      refine ⟨hnext, ?_⟩
      have hcount := congrArg (List.count w) howes
      rw [List.count_append] at hcount
      rw [hpc] at hsum
      change _ + (i.cb :: rest.map Invocation.cb).count w = _ + p.owes.count w at hsum
      simp only [callsMade, outcomes, hpc, List.count_nil]
      omega
  | @queue th f full job release rest hpc =>
      obtain ⟨hnext, hsum⟩ := hs.thread (pc_setPc
        { s with sched := s.sched.sessionQueueTask job, store := s.store.msgDestroy release }
        th (.calling f full rest)) rfl
      refine ⟨hnext, ?_⟩
      rw [hpc] at hsum
      change _ + (.task job.tid :: rest.map Invocation.cb).count w =
        _ + (rest.map Invocation.cb).count w at hsum
      simp only [callsMade, outcomes, hpc, List.map_cons, List.map_nil, List.count_nil]
      rw [List.count_cons] at hsum
      rw [List.count_singleton]
      omega
  | close c =>
      obtain ⟨hpc, hchannels, _⟩ := s.close_spec c
      obtain ⟨hnext, hsum⟩ := hs.channel hpc hchannels
      refine ⟨hnext, ?_⟩
      have hcount := congrArg (List.count w) (s.ended_close c)
      rw [List.count_append] at hcount
      simp only [callsMade, List.count_nil]
      omega

/-! ### Calls outside tasks -/

def Posts (frame : FrameId) (x : Waiter × Outcome) : Bool :=
  decide (x.1 = .session frame ∧ x.2 ≠ .refused)

theorem callsMade_session {a : Label} (h : s.step a = some next) (frame : FrameId) :
    s.nextFrame ≤ next.nextFrame ∧ ((s.callsMade a).count (.session frame) = 0 ∨
      ((s.callsMade a).count (.session frame) = 1 ∧ s.nextFrame = frame ∧
        frame < next.nextFrame)) := by
  have hsame : next.nextFrame = s.nextFrame → s.nextFrame ≤ next.nextFrame ∧
      (0 = 0 ∨ (0 = 1 ∧ s.nextFrame = frame ∧ frame < next.nextFrame)) := fun hframe =>
    ⟨hframe.ge, .inl rfl⟩
  have hluac : ∀ (s : State) (th : ThreadId) (f : CallFrame) (c : ChannelId) (writes : Bool),
      (s.luac th f c writes).nextFrame = s.nextFrame := by
    intro s th f c writes
    rcases s.luac_cases th f c writes with ⟨_, heq⟩ | ⟨_, heq | heq⟩ <;> rw [heq] <;> rfl
  cases step_cases h with
  | run _ => exact hsame (frames_taskRunEnter _ _ _ _).2
  | callback _ => exact hsame (invoke_frames _ _ _ _ _ _).1
  | close c => exact hsame (closedCallbacks_frames _ _).1
  | luacTask c writes hpc hkey =>
      refine ⟨(hluac _ _ _ c writes).ge, .inl ?_⟩
      simp only [callsMade, hpc, hkey]
      split <;> simp
  | luacPlain c writes hpc =>
      rw [hluac]
      refine ⟨Nat.le_succ _, ?_⟩
      simp only [callsMade, hpc]
      split
      · exact .inl rfl
      · rw [List.count_singleton]
        by_cases hframe : s.nextFrame = frame
        · subst hframe
          exact .inr ⟨by simp, rfl, Nat.lt_succ_self _⟩
        · exact .inl (by simp [hframe])
  | _ => exact hsame rfl

theorem callsMade_session_run {as : List Label} (hrun : run step s as = some next)
    (frame : FrameId) :
    (along step callsMade s as).count (.session frame) = 0 ∨
      ((along step callsMade s as).count (.session frame) = 1 ∧ s.nextFrame ≤ frame) := by
  induction as generalizing s with
  | nil => exact .inl rfl
  | cons a as ih =>
      obtain ⟨mid, hmid, hrest⟩ := run_cons_eq_some.mp hrun
      obtain ⟨hle, hone⟩ := callsMade_session hmid frame
      rw [along_cons hmid, List.count_append]
      rcases hone with hnone | ⟨hone, hframe, hlt⟩
      · rw [hnone, Nat.zero_add]
        exact (ih hrest).imp_right fun h => ⟨h.1, hle.trans h.2⟩
      · rcases ih hrest with hlater | ⟨_, hge⟩
        · exact .inr ⟨by rw [hone, hlater], hframe.le⟩
        · exact absurd hlt (Nat.not_lt.mpr hge)

theorem sem_closedCallbacks (s : State) (calls : List Callback) (frame : FrameId) :
    ((s.closedCallbacks calls).frames frame).sem =
      (s.frames frame).sem + (calls.map Invocation.cb).count (.session frame) := by
  induction calls generalizing s with
  | nil => rfl
  | cons i calls ih =>
      obtain ⟨cb, m, event⟩ := i
      cases cb with
      | task tid =>
          rw [List.map_cons, List.count_cons_of_ne (by simp)]
          exact ih s
      | session other =>
          refine (ih (s.sessionCallback other none)).trans ?_
          rw [List.map_cons, List.count_cons]
          by_cases hframe : frame = other
          · subst hframe
            simp [sessionCallback]
            omega
          · simp [sessionCallback, hframe, Ne.symm hframe]

theorem countP_calledBack (s : State) (i : Callback) (frame : FrameId) :
    (s.calledBack i).countP (Posts frame) = if i.cb = .session frame then 1 else 0 := by
  obtain ⟨cb, m, event⟩ := i
  cases cb with
  | task tid =>
      have hended : ∀ x ∈ s.calledBack ⟨.task tid, m, event⟩, x.1 = .task tid := by
        cases event <;> simp only [calledBack] <;> try split
        all_goals simp
      rw [if_neg (by simp), List.countP_eq_zero]
      intro x hx
      simp [Posts, hended x hx]
  | session other => cases event <;> simp [calledBack, Posts, List.countP_cons]

theorem sem_step {a : Label} (h : s.step a = some next) (frame : FrameId) :
    (next.frames frame).sem = (s.frames frame).sem + (s.outcomes a).countP (Posts frame) := by
  have hsame : next.frames = s.frames → (s.outcomes a).countP (Posts frame) = 0 →
      (next.frames frame).sem = (s.frames frame).sem + (s.outcomes a).countP (Posts frame) := by
    intro hframes hnone
    rw [hframes, hnone, Nat.add_zero]
  cases step_cases h with
  | run _ => exact hsame (frames_taskRunEnter _ _ _ _).1 rfl
  | luacTask c writes _ _ =>
      refine hsame ?_ rfl
      rcases s.luac_cases _ _ c writes with ⟨_, heq⟩ | ⟨_, heq | heq⟩ <;> rw [heq] <;> rfl
  | luacPlain c writes _ =>
      refine hsame ?_ rfl
      rcases luac_cases { s with nextFrame := s.nextFrame + 1 } _ _ c writes with
        ⟨_, heq⟩ | ⟨_, heq | heq⟩ <;> rw [heq] <;> rfl
  | testClosed hpc hclosed => exact hsame rfl (by simp [outcomes, hpc, hclosed, Posts])
  | test hpc hopen => exact hsame rfl (by simp [outcomes, hpc, hopen])
  | queue hpc => exact hsame rfl (by simp [outcomes, hpc, Posts])
  | @callback th f full i rest hpc =>
      simp only [outcomes, hpc, countP_calledBack]
      rcases (invoke_frames s th f full i rest).2 with ⟨hnone, hframes⟩ | ⟨other, hcb, _, hframes⟩
      · have hne : i.cb ≠ .session frame := by
          intro hcb
          rw [hcb] at hnone
          cases hnone
        rw [hframes, if_neg hne, Nat.add_zero]
      · rw [hframes, hcb]
        by_cases hframe : frame = other
        · simp [hframe]
        · simp [hframe, Ne.symm hframe]
  | close c =>
      rw [outcomes_close, List.countP_map]
      refine (sem_closedCallbacks _ _ frame).trans ?_
      rw [List.count, List.countP_map]
      congr 1
      refine List.countP_congr fun i _ => ?_
      simp [Posts]
  | _ => exact hsame rfl rfl

theorem sem_run {as : List Label} (hrun : run step s as = some next) (frame : FrameId) :
    (next.frames frame).sem =
      (s.frames frame).sem + (along step outcomes s as).countP (Posts frame) := by
  induction as generalizing s with
  | nil =>
      cases hrun
      rfl
  | cons a as ih =>
      obtain ⟨mid, hmid, hrest⟩ := run_cons_eq_some.mp hrun
      rw [along_cons hmid, List.countP_append, ih hrest, sem_step hmid frame, Nat.add_assoc]

/-! ### Every call -/

theorem owed_of_quiet (hc : ∀ c, Rendezvous (s.channels c))
    (hquiet : Quiet step Label.CarriesOn s) (w : Waiter) :
    s.owed w = ∑ᶠ c, (s.channels c).callbacks.count w := by
  have hnothing : ∀ th, (s.pc th).owes.count w = 0 := by
    intro th
    rcases idle_of_quiet hc hquiet th with hpc | ⟨frame, hpc, _⟩ <;> rw [hpc] <;> rfl
  simp only [owed, hnothing, finsum_zero, Nat.zero_add]

theorem owed_start (size : ChannelId → Int) (w : Waiter) :
    (start size).FewOwing w ∧ (start size).owed w = 0 := by
  have hthreads : ∀ th, ((start size).pc th).owes.count w = 0 := fun _ => rfl
  have hchannels : ∀ c, ((start size).channels c).callbacks.count w = 0 := fun _ => rfl
  constructor
  · constructor <;> simp [hthreads, hchannels]
  · simp [owed, hthreads, hchannels]

theorem owed_run {as : List Label} (hs : s.Steady) (hfew : s.FewOwing w)
    (hrun : run step s as = some next) :
    s.owed w + (along step callsMade s as).count w =
      next.owed w + ((along step outcomes s as).map Prod.fst).count w := by
  rw [map_along]
  refine conserved_run (fun s => s.owed w) callsMade (fun s a => (s.outcomes a).map Prod.fst)
    (I := fun s => s.FewOwing w ∧ s.Steady) ?_ ⟨hfew, hs⟩ hrun
  intro s a next ⟨hfew, hs⟩ hnext
  obtain ⟨hfew', hsum⟩ := owed_step hfew hs.rendezvous hnext
  exact ⟨⟨hfew', hs.step hnext⟩, hsum⟩

end State

namespace PlainLog

/-- A callback that is made with a dead `session_cb` has no outcome. -/
def liveStep (l : PlainLog) (a : Label) : Option PlainLog :=
  if ∀ frame ∈ l.state.calledFrames a, frame ∉ l.returned.map Return.frame then l.step a else none

theorem state_liveStep {l l' : PlainLog} {a : Label} (h : l.liveStep a = some l') :
    l.state.step a = some l'.state := by
  simp only [liveStep] at h
  split at h
  · obtain ⟨next, hnext, rfl⟩ := Option.map_eq_some_iff.mp h
    exact hnext
  · cases h

end PlainLog

namespace State

/-- In every run each call of `channel_read` or `channel_write` has ended once, in one way, or is
owed by one thread or channel, and once nothing can be carried on, by a channel.  The semaphore of
a call outside tasks is posted when its callback is made. -/
theorem everyCall_ends (size : ChannelId → Int) (steps : List Label) {l : PlainLog}
    (hlive : run PlainLog.liveStep (PlainLog.start size) steps = some l) :
    (∀ w, (along step callsMade (start size) steps).count w =
      l.state.owed w + ((along step outcomes (start size) steps).map Prod.fst).count w) ∧
    (∀ frame, (along step callsMade (start size) steps).count (.session frame) ≤ 1 ∧
      (l.state.frames frame).sem =
        (along step outcomes (start size) steps).countP (Posts frame)) ∧
    (Quiet step Label.CarriesOn l.state →
      ∀ w, l.state.owed w = ∑ᶠ c, (l.state.channels c).callbacks.count w) := by
  have hrun : run step (start size) steps = some l.state :=
    run_map PlainLog.state (fun _ _ _ => PlainLog.state_liveStep) hlive
  refine ⟨fun w => ?_, fun frame => ⟨?_, ?_⟩, ?_⟩
  · obtain ⟨hfew, hnothing⟩ := owed_start size w
    have hconserved := owed_run (steady_start size) hfew hrun
    rw [hnothing, Nat.zero_add] at hconserved
    exact hconserved
  · rcases callsMade_session_run hrun frame with hnone | ⟨hone, _⟩
    · exact hnone.le.trans (Nat.zero_le 1)
    · exact hone.le
  · exact (sem_run hrun frame).trans (Nat.zero_add _)
  · exact owed_of_quiet ((steady_start size).run hrun).rendezvous

/-- A read of a task answers a write outside tasks that waits for it, and is answered. -/
theorem everyCall_ends_read :
    let steps : List Label := [.luac 5 0 true, .test 5, .locked 5, .leave 5, .newTask 1,
      .queueTask 1 true, .take 0, .enter 0, .taskRun 0, .luac 0 0 false, .test 0, .locked 0,
      .callback 0, .queue 0, .callback 0, .leave 0, .yielded 0 .yield, .finish 0, .wake 5]
    ∃ l, run PlainLog.liveStep (PlainLog.start fun _ => 0) steps = some l ∧
      (∀ w, (along step callsMade (start fun _ => 0) steps).count w =
        l.state.owed w +
          ((along step outcomes (start fun _ => 0) steps).map Prod.fst).count w) ∧
      (l.state.frames 0).sem =
        (along step outcomes (start fun _ => 0) steps).countP (Posts 0) ∧
      along step outcomes (start fun _ => 0) steps =
        [(.task 1, .answered), (.session 0, .answered)] := by
  intro steps
  have hends := everyCall_ends (fun _ => 0) steps rfl
  exact ⟨_, rfl, hends.1, (hends.2.1 0).2, rfl⟩

end State

end Casting.Runtime
