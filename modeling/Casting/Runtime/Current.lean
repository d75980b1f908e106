import Casting.Runtime.Wakeups

/-!
# The current task of a thread

`task_set_current` stores an id only where none is stored, so neither the reset at the end of
`task_run` nor a later task changes what `task_current` returns.
-/

namespace Casting.Runtime

open Transition

/-- The task whose Lua code runs inside `task_run`. -/
def Pc.running : Pc → Option TaskId
  | .inTask _ tid | .yielding _ tid _ => some tid
  | .testing f _ _ | .locking f _ _ | .calling f _ _ | .queueing f _ _ _ _ => f.runningTask
  | _ => none

namespace State

def key (s : State) (th : ThreadId) : Option TaskId := (s.threads th).taskKey

/-- `task_current`. -/
def taskCurrent (s : State) (th : ThreadId) : TaskId := (s.key th).getD 0

/-- `task_current()` is the task whose Lua code runs on the thread, and 0 if none does; and
`luac_read` and `luac_write` work for that task. -/
def Tracked (th : ThreadId) (s : State) : Prop :=
  s.taskCurrent th = (s.pc th).running.getD 0 ∧ (s.pc th).Own

/-- The step does not return from a call of `task_run`, on this thread, that found its task. -/
def NoneReturns (th : ThreadId) (s : State) : Label → Prop
  | .taskRun other => other = th → ∀ sid job, s.pc th = .popped sid (some job) →
      (s.sched.taskRunEnter job).1 ≠ .skipped
  | .yielded other _ | .ended other _ => other ≠ th
  | _ => True

/-! ### The stored id -/

section

variable (s : State) (th : ThreadId) (p : Pc) (c : ChannelId) (ch : Channel Waiter MessageId)
  (frame : FrameId) (m : Option MessageId)

@[simp]
theorem key_setPc : (s.setPc th p).key = s.key := by
  funext other
  by_cases h : other = th
  · subst h
    simp [key, setPc]
  · simp [key, setPc, h]

@[simp] theorem key_setChannel : (s.setChannel c ch).key = s.key := rfl
@[simp] theorem key_sessionCallback : (s.sessionCallback frame m).key = s.key := rfl

end

theorem key_taskSetCurrent (s : State) (th : ThreadId) (tid : TaskId) :
    (s.taskSetCurrent th tid).key = Function.update s.key th (some ((s.key th).getD tid)) := by
  cases hkey : (s.threads th).taskKey with
  | none =>
      funext other
      by_cases h : other = th
      · subst h
        simp [taskSetCurrent, key, hkey]
      · simp [taskSetCurrent, key, hkey, h]
  | some old =>
      have hsame : some ((s.key th).getD tid) = s.key th := by simp [key, hkey]
      rw [hsame, Function.update_eq_self, taskSetCurrent, hkey]

theorem key_luac (s : State) (th : ThreadId) (f : CallFrame) (c : ChannelId) (writes : Bool) :
    (s.luac th f c writes).key = s.key := by
  unfold luac
  split
  · rfl
  · split
    · exact key_setPc _ th _
    · exact key_setPc s th _

theorem key_invoke (s : State) (th : ThreadId) (f : CallFrame) (full : Bool) (i : Callback)
    (rest : List Callback) : (s.invoke th f full i rest).key = s.key := by
  unfold invoke
  split
  · split <;> exact key_setPc s th _
  · simp only
    split <;> exact key_setPc _ th _
  · exact key_setPc s th _
  · exact key_setPc (s.sessionCallback _ _) th _
  · exact key_setPc (s.sessionCallback _ _) th _

theorem key_closedCallbacks (s : State) (calls : List Callback) :
    (s.closedCallbacks calls).key = s.key := by
  induction calls generalizing s with
  | nil => rfl
  | cons i calls ih =>
      rw [closedCallbacks, List.foldl_cons]
      cases i.cb with
      | task tid => exact ih s
      | session frame => exact ih (s.sessionCallback frame none)

theorem key_taskRunEnter (s : State) (th : ThreadId) (sid : SessionId) (job : Job) :
    (s.taskRunEnter th sid job).key =
      if (s.sched.taskRunEnter job).1 = .gone then s.key
      else Function.update s.key th (some ((s.key th).getD job.tid)) := by
  cases hrun : s.sched.taskRunEnter job with
  | mk entry sched =>
      cases entry with
      | gone => simp [taskRunEnter, hrun]
      | skipped =>
          simp only [taskRunEnter, hrun, key_setPc, key_taskSetCurrent]
          rfl
      | resumed =>
          simp only [taskRunEnter, hrun, key_setPc, key_taskSetCurrent]
          rfl

theorem key_step {s next : State} {a : Label} (h : Step s a next) :
    next.key = s.key ∨
      ∃ th sid job, a = .taskRun th ∧ s.pc th = .popped sid (some job) ∧
        next = s.taskRunEnter th sid job := by
  cases h with
  | run hpc => exact .inr ⟨_, _, _, rfl, hpc, rfl⟩
  | luacTask c writes _ _ => exact .inl (s.key_luac _ _ c writes)
  | luacPlain c writes _ => exact .inl (key_luac _ _ _ c writes)
  | callback _ => exact .inl (s.key_invoke _ _ _ _ _)
  | close c => exact .inl (key_closedCallbacks _ _)
  | newTask | gcTask | queueTask | queueMessage | refuse => exact .inl rfl
  | _ => exact .inl (key_setPc _ _ _)

/-! ### The running task -/

theorem running_update {pc : ThreadId → Pc} {th other : ThreadId} {p : Pc}
    (hown : (pc th).Own) (hrunning : p.running = (pc other).running)
    (hkeep : other = th → p.Own) :
    (Function.update pc other p th).running = (pc th).running ∧
      (Function.update pc other p th).Own := by
  by_cases h : th = other
  · subst h
    rw [Function.update_self]
    exact ⟨hrunning, hkeep rfl⟩
  · rw [Function.update_of_ne h]
    exact ⟨rfl, hown⟩

def Enters (th : ThreadId) (s : State) (a : Label) (next : State) : Prop :=
  ∃ sid job, a = .taskRun th ∧ s.pc th = .popped sid (some job) ∧
    next = s.taskRunEnter th sid job

/-- The step ends what `lua_resume` runs on the thread. -/
def Returns (th : ThreadId) (s : State) (a : Label) (next : State) : Prop :=
  (∃ rc, a = .yielded th rc ∨ a = .ended th rc) ∧ (s.pc th).running.isSome ∧
    (next.pc th).running = none

/-- What the thread runs changes only where `task_run` begins and ends. -/
theorem running_step {s next : State} {a : Label} (h : Step s a next) {th : ThreadId}
    (hkey : s.key th = (s.pc th).running) (hown : (s.pc th).Own) :
    (s.NoneReturns th a ∧ (next.pc th).running = (s.pc th).running ∧ (next.pc th).Own) ∨
      s.Enters th a next ∨ s.Returns th a next := by
  have hkept : ∀ {other : ThreadId} {p q : Pc}, s.pc other = q → p.running = q.running →
      (q.Own → p.Own) →
      (Function.update s.pc other p th).running = (s.pc th).running ∧
        (Function.update s.pc other p th).Own := by
    intro other p q hpc hrunning hkeep
    subst hpc
    apply running_update hown hrunning
    rintro rfl
    exact hkeep hown
  cases h with
  | newTask | gcTask | queueTask | queueMessage | refuse => exact .inl ⟨trivial, rfl, hown⟩
  | take hpc | enterBusy hpc | enter hpc | wake hpc | finish hpc =>
      rw [pc_setPc]
      exact .inl ⟨trivial, hkept hpc rfl fun _ => trivial⟩
  | runNone hpc =>
      left
      constructor
      · rintro rfl sid job hjob
        rw [hpc] at hjob
        cases hjob
      · rw [pc_setPc]
        exact hkept hpc rfl fun _ => trivial
  | testClosed hpc | test hpc | locked hpc | queue hpc | leaveTask hpc =>
      rw [pc_setPc]
      exact .inl ⟨trivial, hkept hpc rfl fun h => h⟩
  | @leavePlain other frame full hpc =>
      rw [pc_setPc]
      cases full <;> exact .inl ⟨trivial, hkept hpc rfl fun _ => trivial⟩
  | @run other sid job hpc =>
      by_cases hother : other = th
      · subst hother
        exact .inr (.inl ⟨sid, job, rfl, hpc, rfl⟩)
      · left
        obtain ⟨p, _, hpc', _⟩ := s.taskRunEnter_spec other sid job
        rw [hpc', Function.update_of_ne (Ne.symm hother)]
        exact ⟨fun h => absurd h hother, rfl, hown⟩
  | @luacTask other sid tid current c writes hpc hcurrent =>
      left
      have howner : other = th → current = tid := by
        rintro rfl
        rw [hpc, key, hcurrent] at hkey
        exact Option.some.inj hkey
      have hrunning : some tid = (s.pc other).running := by
        rw [hpc]
        rfl
      refine ⟨trivial, ?_⟩
      rcases s.luac_cases other (.task sid tid current) c writes with
        ⟨_, heq⟩ | ⟨_, heq | heq⟩ <;> rw [heq]
      · exact ⟨rfl, hown⟩
      · rw [pc_setPc]
        exact running_update hown hrunning howner
      · rw [pc_setPc]
        exact running_update hown hrunning howner
  | @luacPlain other c writes hpc =>
      left
      refine ⟨trivial, ?_⟩
      rcases luac_cases { s with nextFrame := s.nextFrame + 1 } other (.plain s.nextFrame) c
        writes with ⟨_, heq⟩ | ⟨_, heq | heq⟩ <;> rw [heq]
      · exact ⟨rfl, hown⟩
      · rw [pc_setPc]
        exact hkept hpc rfl fun _ => trivial
      · rw [pc_setPc]
        exact hkept hpc rfl fun _ => trivial
  | @callback other f full i rest hpc =>
      left
      refine ⟨trivial, ?_⟩
      obtain ⟨p, hpc', _, _, hp⟩ := s.invoke_spec other f full i rest
      rw [hpc']
      rcases hp with ⟨_, _, _, _, rfl⟩ | ⟨rfl, _⟩ <;> exact hkept hpc rfl fun h => h
  | @yielded other sid tid current rc hpc _ =>
      rw [Returns, pc_setPc]
      by_cases hother : other = th
      · subst hother
        right
        right
        rw [Function.update_self, hpc]
        exact ⟨⟨rc, .inl rfl⟩, rfl, rfl⟩
      · left
        rw [Function.update_of_ne (Ne.symm hother)]
        exact ⟨hother, rfl, hown⟩
  | @ended other sid tid rc hpc =>
      rw [Returns, pc_setPc]
      by_cases hother : other = th
      · subst hother
        right
        right
        rw [Function.update_self, hpc]
        exact ⟨⟨rc, .inr rfl⟩, rfl, rfl⟩
      · left
        rw [Function.update_of_ne (Ne.symm hother)]
        exact ⟨hother, rfl, hown⟩
  | close c =>
      rw [(s.close_spec c).1]
      exact .inl ⟨trivial, rfl, hown⟩

/-! ### Task ids start at 1 -/

def Positive (s : State) : Prop := s.sched.tasks 0 = none ∧ 0 < s.sched.nextTask

theorem Positive.keep {s next : State} (hs : s.Positive)
    (h : s.sched.KeepsOwners next.sched) : next.Positive := by
  obtain ⟨hle, howners⟩ := h
  refine ⟨?_, Nat.lt_of_lt_of_le hs.2 hle⟩
  cases hzero : next.sched.tasks 0 with
  | none => rfl
  | some t =>
      rcases howners 0 t hzero with ⟨t', ht', _⟩ | ⟨hzero', _⟩
      · have hnone := hs.1
        exact absurd (hnone.symm.trans ht') (by simp)
      · exact absurd hs.2 (Nat.not_lt.mpr hzero')

theorem Positive.step {s next : State} {a : Label} (hs : s.Positive)
    (h : s.step a = some next) : next.Positive :=
  hs.keep (anyMove_of_step h).keepsOwners

/-! ### The first task -/

/-- The thread has not yet returned from a task. -/
structure Unreturned (th : ThreadId) (s : State) : Prop where
  positive : s.Positive
  key : s.key th = (s.pc th).running
  own : (s.pc th).Own
  task : ∀ tid, s.key th = some tid → tid ≠ 0

theorem unreturned_start (size : ChannelId → Int) (th : ThreadId) :
    (start size).Unreturned th where
  positive := ⟨rfl, Nat.one_pos⟩
  key := rfl
  own := trivial
  task _ h := by cases h

theorem Unreturned.tracked {s : State} {th : ThreadId} (hs : s.Unreturned th) :
    s.Tracked th := by
  refine ⟨?_, hs.own⟩
  rw [taskCurrent, hs.key]

theorem not_tracked {s : State} {th : ThreadId} {tid : TaskId} (hkey : s.key th = some tid)
    (htid : tid ≠ 0) (hrunning : (s.pc th).running = none) : ¬ s.Tracked th := by
  intro ⟨hcurrent, _⟩
  rw [taskCurrent, hkey, hrunning] at hcurrent
  exact htid hcurrent

theorem Unreturned.enters {s : State} {th : ThreadId} {sid : SessionId} {job : Job}
    (hs : s.Unreturned th) (hpc : s.pc th = .popped sid (some job))
    (hpositive : (s.taskRunEnter th sid job).Positive) :
    ((s.sched.taskRunEnter job).1 ≠ .skipped ∧ (s.taskRunEnter th sid job).Unreturned th) ∨
      ((s.sched.taskRunEnter job).1 = .skipped ∧ ¬ (s.taskRunEnter th sid job).Tracked th) := by
  have hfresh : s.key th = none := by
    rw [hs.key, hpc]
    rfl
  have hkey := s.key_taskRunEnter th sid job
  have hthere : s.sched.tasks job.tid ≠ none → job.tid ≠ 0 := by
    intro hsome hzero
    rw [hzero] at hsome
    exact hsome hs.positive.1
  have hpc' : (s.taskRunEnter th sid job).pc th =
      if (s.sched.taskRunEnter job).1 = .resumed then .inTask sid job.tid else .ran sid := by
    cases hrun : s.sched.taskRunEnter job with
    | mk entry sched => cases entry <;> simp [taskRunEnter, hrun]
  have hrun : s.sched.taskRunEnter job =
      ((s.sched.taskRunEnter job).1, (s.sched.taskRunEnter job).2) := rfl
  rcases Scheduler.taskRunEnter_cases hrun with
    ⟨hnone, hentry, _⟩ | ⟨t, ht, hentry, _⟩ | ⟨t, ht, hentry, _⟩ <;>
    rw [hentry] at hkey hpc' ⊢
  · left
    refine ⟨by decide, hpositive, ?_, ?_, ?_⟩
    · rw [hkey, hpc', if_pos rfl, hfresh]
      rfl
    · rw [hpc']
      trivial
    · rw [hkey, if_pos rfl, hfresh]
      rintro tid ⟨⟩
  · right
    refine ⟨rfl, ?_⟩
    have hstored : (s.taskRunEnter th sid job).key th = some job.tid := by
      rw [hkey, if_neg (by decide), Function.update_self, hfresh]
      rfl
    apply not_tracked hstored (hthere (by simp [ht]))
    rw [hpc']
    rfl
  · left
    refine ⟨by decide, hpositive, ?_, ?_, ?_⟩
    · rw [hkey, hpc', if_neg (by decide), Function.update_self, hfresh]
      rfl
    · rw [hpc']
      trivial
    · rw [hkey, if_neg (by decide), Function.update_self, hfresh]
      rintro tid ⟨⟩
      exact hthere (by simp [ht])

theorem Unreturned.step {s next : State} {a : Label} {th : ThreadId} (hs : s.Unreturned th)
    (hstep : s.step a = some next) :
    (s.NoneReturns th a ∧ next.Unreturned th) ∨ (¬ s.NoneReturns th a ∧ ¬ next.Tracked th) := by
  have h := step_cases hstep
  have hpositive := hs.positive.step hstep
  by_cases henters : s.Enters th a next
  · obtain ⟨sid, job, rfl, hpc, rfl⟩ := henters
    rcases hs.enters hpc hpositive with ⟨hentry, hnext⟩ | ⟨hentry, hnext⟩
    · left
      refine ⟨?_, hnext⟩
      intro _ sid' job' hpc'
      rw [hpc] at hpc'
      cases hpc'
      exact hentry
    · exact .inr ⟨fun hnone => hnone rfl sid job hpc hentry, hnext⟩
  · have hkey : next.key th = s.key th := by
      rcases key_step h with heq | ⟨other, sid, job, rfl, hpc, rfl⟩
      · rw [heq]
      · have hother : th ≠ other := by
          rintro rfl
          exact henters ⟨sid, job, rfl, hpc, rfl⟩
        rw [key_taskRunEnter]
        split
        · rfl
        · rw [Function.update_of_ne hother]
    rcases running_step h hs.key hs.own with ⟨hnone, hrunning, hown⟩ | hagain | hreturns
    · left
      refine ⟨hnone, hpositive, ?_, hown, ?_⟩
      · rw [hkey, hrunning, hs.key]
      · rw [hkey]
        exact hs.task
    · exact absurd hagain henters
    · right
      obtain ⟨⟨rc, hlabel⟩, hsome, hrunning⟩ := hreturns
      obtain ⟨tid, htid⟩ := Option.isSome_iff_exists.mp hsome
      constructor
      · rcases hlabel with rfl | rfl <;> exact fun hne => hne rfl
      · have hstored : s.key th = some tid := hs.key.trans htid
        exact not_tracked (hkey.trans hstored) (hs.task tid hstored) hrunning

/-- In every run, the task of a thread is tracked throughout exactly if the thread never returns
from a call of `task_run` that found its task. -/
theorem tracked_throughout_iff (size : ChannelId → Int) (th : ThreadId) (steps : List Label) :
    Throughout State.step (Tracked th) (start size) steps ↔
      Respects State.step (NoneReturns th) (start size) steps := by
  have hinv : ∀ s a (_ : List Label) next, Unreturned th s → NoneReturns th s a →
      s.step a = some next → Unreturned th next := by
    intro s a _ next hs hguard hstep
    rcases hs.step hstep with ⟨_, hnext⟩ | ⟨hnot, _⟩
    · exact hnext
    · exact absurd hguard hnot
  have hiff : ∀ s a (_ : List Label) next, Unreturned th s → Tracked th s →
      s.step a = some next → (Tracked th next ↔ NoneReturns th s a) := by
    intro s a _ next hs _ hstep
    rcases hs.step hstep with ⟨hguard, hnext⟩ | ⟨hnot, hbad⟩
    · exact iff_of_true hnext.tracked hguard
    · exact iff_of_false hbad hnot
  exact throughout_iff_respects (I := fun s _ => Unreturned th s) hinv hiff
    (unreturned_start size th) (unreturned_start size th).tracked

/-- One task runs to its end on a fresh thread. -/
theorem tracked_fails :
    ¬ ∀ (size : ChannelId → Int) (th : ThreadId) (steps : List Label) (final : State),
      run State.step (start size) steps = some final → final.pc th = .idle →
        final.taskCurrent th = 0 := by
  intro hall
  have hrun : ∃ final, run State.step (start fun _ => 1)
      [.newTask 0, .queueTask 1 true, .take 0, .enter 0, .taskRun 0, .ended 0 .ok, .finish 0] =
        some final ∧ final.pc 0 = .idle ∧ final.taskCurrent 0 = 1 := ⟨_, rfl, rfl, rfl⟩
  obtain ⟨final, hfinal, hidle, hcurrent⟩ := hrun
  rw [hall (fun _ => 1) 0 _ final hfinal hidle] at hcurrent
  cases hcurrent

end State

end Casting.Runtime
