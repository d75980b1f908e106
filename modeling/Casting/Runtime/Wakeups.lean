import Casting.Runtime.Exclusion

/-!
# Wake-ups of tasks that sleep in a channel

A task that `luac_read` or `luac_write` put to sleep is woken by a job.  Its wake-up is the entry
parked in a channel, then the callback of the thread that popped the entry, then the job; it is
never dropped in between.  It is lost where a closed channel is involved: `task_callback` ignores
`closed`, the callers ignore `ERR_CLOSED`, and the locked sections do not look at the status.
-/

namespace Casting.Runtime

open Transition

/-- The callback is parked as a reader or a writer. -/
def Holds (ch : Channel Waiter MessageId) (w : Waiter) : Prop :=
  ⟨w⟩ ∈ ch.readers ∨ ∃ x ∈ ch.writers, x.cb = w

/-- The callback will be told of a read or a write. -/
def Told (w : Waiter) (calls : List Callback) : Prop :=
  ∃ i ∈ calls, i.cb = w ∧ i.event ≠ .closed

def Operation.Parks (ch : Channel Waiter MessageId) : Operation → Prop
  | .write _ => ch.bufSize ≤ ch.messages.length ∧ ch.readers = []
  | .read => ch.messages = [] ∧ ch.writers = []

def Waiter.isTask : Waiter → Bool
  | .task _ => true
  | .session _ => false

/-- The thread will queue a job for the task, or has popped one and is about to run it. -/
def Pc.Wakes (tid : TaskId) : Pc → Prop
  | .popped _ (some job) => job.tid = tid
  | .calling _ _ calls => Told (.task tid) calls
  | .queueing _ _ job _ calls => job.tid = tid ∨ Told (.task tid) calls
  | _ => False

/-- In a task, `task_current()` is that task. -/
def Pc.CallsAsItself (key : Option TaskId) : Pc → Prop
  | .inTask _ tid => key = some tid
  | _ => True

/-- The call of a task finds its channel open, or at least does not park in it. -/
def Pc.FindsOpen (channels : ChannelId → Channel Waiter MessageId) : Pc → Prop
  | .testing (.task _ _ _) c _ => (channels c).status = .channelOpen
  | .locking (.task _ _ _) c op => (channels c).status = .channelOpen ∨ ¬ op.Parks (channels c)
  | _ => True

instance (ch : Channel Waiter MessageId) : (op : Operation) → Decidable (op.Parks ch)
  | .write _ => inferInstanceAs (Decidable (ch.bufSize ≤ ch.messages.length ∧ ch.readers = []))
  | .read => inferInstanceAs (Decidable (ch.messages = [] ∧ ch.writers = []))

instance (key : Option TaskId) (p : Pc) : Decidable (p.CallsAsItself key) := by
  cases p <;> unfold Pc.CallsAsItself <;> infer_instance

instance (channels : ChannelId → Channel Waiter MessageId) (p : Pc) :
    Decidable (p.FindsOpen channels) := by
  rcases p with _ | _ | _ | _ | ⟨⟨⟩ | ⟨⟩, _, _⟩ | ⟨⟨⟩ | ⟨⟩, _, _⟩ | _ | _ | _ | _ | _ <;>
    unfold Pc.FindsOpen <;> infer_instance

namespace State

def Parked (s : State) (tid : TaskId) : Prop :=
  ∃ c, (s.channels c).status = .channelOpen ∧ Holds (s.channels c) (.task tid)

/-- Unless some thread has a wake-up of it under way, every task that sleeps in a channel is
parked in an open channel or has a job in its session's queue. -/
def NobodyForgotten (s : State) : Prop :=
  ∀ tid t, s.sched.tasks tid = some t → t.status = .suspended → t.inChannel = true →
    (∀ th, ¬ (s.pc th).Wakes tid) →
      s.Parked tid ∨ ∃ job ∈ (s.sched.sessions t.sid).tasks, job.tid = tid

/-- The step is none of the four that leave a task asleep: a call made under another task's id, a
call of a task that finds the channel closed by the status test or parks in it after that, and
the closing of a channel in which a task is parked. -/
def WakeupKept (s : State) : Label → Prop
  | .luac th c _ =>
      (s.channels c).status = .channelOpen → (s.pc th).CallsAsItself (s.threads th).taskKey
  | .test th | .locked th => (s.pc th).FindsOpen s.channels
  | .close c =>
      (s.channels c).status = .channelOpen →
        (∀ r ∈ (s.channels c).readers, r.cb.isTask = false) ∧
          ∀ x ∈ (s.channels c).writers, x.cb.isTask = false
  | _ => True

instance decidableWakeupKept (s : State) : (a : Label) → Decidable (s.WakeupKept a)
  | .luac th c _ => inferInstanceAs (Decidable ((s.channels c).status = .channelOpen →
      (s.pc th).CallsAsItself (s.threads th).taskKey))
  | .test th | .locked th => inferInstanceAs (Decidable ((s.pc th).FindsOpen s.channels))
  | .close c => inferInstanceAs (Decidable ((s.channels c).status = .channelOpen →
      (∀ r ∈ (s.channels c).readers, r.cb.isTask = false) ∧
        ∀ x ∈ (s.channels c).writers, x.cb.isTask = false))
  | .newTask _ | .gcTask _ | .queueTask _ _ | .refuse _ | .take _ | .enter _ | .taskRun _
  | .callback _ | .queue _ | .leave _ | .wake _ | .yielded _ _ | .ended _ _ | .finish _ =>
    .isTrue trivial

end State

/-! ### What the locked sections do with callbacks -/

theorem told_of_mem {w : Waiter} {m : Option MessageId} {e : ChannelEvent}
    {calls : List Callback} (he : e ≠ .closed) (h : ⟨w, m, e⟩ ∈ calls) : Told w calls :=
  ⟨⟨w, m, e⟩, h, rfl, he⟩

theorem told_cons {w : Waiter} {i : Callback} {calls : List Callback} (h : Told w (i :: calls)) :
    (i.cb = w ∧ i.event ≠ .closed) ∨ Told w calls := by
  obtain ⟨j, hj, hcb⟩ := h
  rcases List.mem_cons.mp hj with rfl | hj
  · exact .inl hcb
  · exact .inr ⟨j, hj, hcb⟩

/-- A callback that was parked stays parked or is told; the caller is parked or told, and it is
told unless the operation parks it. -/
structure SectionKept (ch ch' : Channel Waiter MessageId) (w : Waiter) (op : Operation)
    (calls : List Callback) : Prop where
  status : ch'.status = ch.status
  rendezvous : Rendezvous ch'
  others : ∀ other, Holds ch other → Holds ch' other ∨ Told other calls
  caller : Holds ch' w ∨ Told w calls
  told : ¬ op.Parks ch → Told w calls

theorem holds_or_told_of_popped {ch ch' : Channel Waiter MessageId} {r : Reader Waiter}
    {rest : List (Reader Waiter)} {calls : List Callback} {other : Waiter}
    (hr : ch.readers = r :: rest) (hw : ch.writers = []) (hrest : ch'.readers = rest)
    (htold : Told r.cb calls) (h : Holds ch other) :
    Holds ch' other ∨ Told other calls := by
  rcases h with hmem | ⟨x, hx, _⟩
  · rw [hr] at hmem
    rcases List.mem_cons.mp hmem with heq | hmem
    · cases heq
      exact .inr htold
    · exact .inl (.inl (by rwa [hrest]))
  · simp [hw] at hx

theorem writeSection_kept {ch ch' : Channel Waiter MessageId} {w : Waiter} {m : MessageId}
    {full : Bool} {calls : List Callback} (hc : Rendezvous ch)
    (h : State.lockedSection ch w (.write m) = some (ch', full, calls)) :
    SectionKept ch ch' w (.write m) calls := by
  have hkept := channelWriteLocked_rendezvous hc m w
  simp only [State.lockedSection] at h
  rcases channelWriteLocked_cases hc m w with
    ⟨hr, hroom, heq⟩ | ⟨hr, hfull, heq⟩ | ⟨r, rest, hr, hm, hw, hpos, heq⟩ |
    ⟨r, rest, hr, hm, hw, hzero, heq⟩
  all_goals
    rw [heq] at h hkept
    simp only [channelWriteCallbacks, wroteInvocation, Option.map_some, Option.some.injEq,
      Prod.mk.injEq] at h
  · obtain ⟨rfl, _, rfl⟩ := h
    have htold : Told w [⟨w, some m, .write⟩] :=
      told_of_mem (e := .write) (by decide) List.mem_cons_self
    exact ⟨rfl, hkept, fun _ h => .inl h, .inr htold, fun _ => htold⟩
  · obtain ⟨rfl, _, rfl⟩ := h
    refine ⟨rfl, hkept, ?_, ?_, ?_⟩
    · rintro other (hmem | ⟨x, hx, hcb⟩)
      · exact .inl (.inl hmem)
      · exact .inl (.inr ⟨x, List.mem_append_left _ hx, hcb⟩)
    · exact .inl (.inr ⟨⟨w, m⟩, by simp, rfl⟩)
    · intro hparks
      exact absurd ⟨Nat.le_of_eq hfull.symm, hr⟩ hparks
  · simp at h
    obtain ⟨rfl, _, rfl⟩ := h
    have htold : Told w [⟨w, some m, .write⟩, ⟨r.cb, some m, .read⟩] :=
      told_of_mem (e := .write) (by decide) List.mem_cons_self
    have hreader : Told r.cb [⟨w, some m, .write⟩, ⟨r.cb, some m, .read⟩] :=
      told_of_mem (m := some m) (e := .read) (by decide) (by simp)
    exact ⟨rfl, hkept, fun _ => holds_or_told_of_popped hr hw rfl hreader, .inr htold,
      fun _ => htold⟩
  · simp at h
    obtain ⟨rfl, _, rfl⟩ := h
    have htold : Told w [⟨r.cb, some m, .read⟩, ⟨w, some m, .write⟩] :=
      told_of_mem (m := some m) (e := .write) (by decide) (by simp)
    have hreader : Told r.cb [⟨r.cb, some m, .read⟩, ⟨w, some m, .write⟩] :=
      told_of_mem (m := some m) (e := .read) (by decide) (by simp)
    exact ⟨rfl, hkept, fun _ => holds_or_told_of_popped hr hw rfl hreader, .inr htold,
      fun _ => htold⟩

theorem readSection_kept {ch ch' : Channel Waiter MessageId} {w : Waiter} {full : Bool}
    {calls : List Callback} (hc : Rendezvous ch)
    (h : State.lockedSection ch w .read = some (ch', full, calls)) :
    SectionKept ch ch' w .read calls := by
  have hkept := channelReadLocked_rendezvous hc w
  simp only [State.lockedSection] at h
  rcases channelReadLocked_cases ch w with ⟨hm, hw, heq⟩ | ⟨hne, heq⟩
  · rw [heq] at h hkept
    simp [channelReadCallbacks] at h
    obtain ⟨rfl, _, rfl⟩ := h
    refine ⟨rfl, hkept, ?_, ?_, ?_⟩
    · rintro other (hmem | hx)
      · exact .inl (.inl (List.mem_append_left _ hmem))
      · exact .inl (.inr hx)
    · exact .inl (.inl (by simp))
    · intro hparks
      exact absurd ⟨hm, hw⟩ hparks
  · rw [heq] at h hkept
    simp only [channelReadCallbacks, if_true, Option.map_map, Option.map_eq_some_iff,
      Function.comp_apply, Prod.mk.injEq] at h
    obtain ⟨got, _, rfl, _, rfl⟩ := h
    have htold : Told w (⟨w, some got, .read⟩ ::
        wroteInvocation ch.writers.head? fun _ => got) :=
      told_of_mem (e := .read) (by decide) List.mem_cons_self
    refine ⟨rfl, hkept, ?_, .inr htold, fun _ => htold⟩
    rintro other (hmem | ⟨x, hx, hcb⟩)
    · exact .inl (.inl hmem)
    · cases hwriters : ch.writers with
      | nil => simp [hwriters] at hx
      | cons first rest =>
          rw [hwriters] at hx
          subst hcb
          rcases List.mem_cons.mp hx with rfl | hx
          · exact .inr (told_of_mem (m := some got) (e := .write) (by decide)
              (by simp [wroteInvocation]))
          · exact .inl (.inr ⟨x, by simpa [hwriters] using hx, rfl⟩)

theorem lockedSection_kept {ch ch' : Channel Waiter MessageId} {w : Waiter} {op : Operation}
    {full : Bool} {calls : List Callback} (hc : Rendezvous ch)
    (h : State.lockedSection ch w op = some (ch', full, calls)) :
    SectionKept ch ch' w op calls := by
  cases op with
  | write m => exact writeSection_kept hc h
  | read => exact readSection_kept hc h

/-! ### The wake-up of a task is somewhere -/

/-- `task_current()` was the running task. -/
def CallFrame.Own : CallFrame → Prop
  | .task _ tid current => current = tid
  | .plain _ => True

def CallFrame.runningTask : CallFrame → Option TaskId
  | .task _ tid _ => some tid
  | .plain _ => none

def Pc.Own : Pc → Prop
  | .testing f _ _ | .locking f _ _ | .calling f _ _ | .queueing f _ _ _ _ => f.Own
  | .yielding _ tid current => current = tid
  | _ => True

/-- The running task whose call is past its locked section. -/
def Pc.past : Pc → Option TaskId
  | .calling f _ _ | .queueing f _ _ _ _ => f.runningTask
  | .yielding _ tid _ => some tid
  | _ => none

theorem Pc.stage_of_past {p : Pc} {tid : TaskId} (h : p.past = some tid) :
    ∃ sid, p.stage = .inside sid tid := by
  cases p with
  | calling f | queueing f =>
      cases f with
      | task sid other current =>
          cases h
          exact ⟨sid, rfl⟩
      | plain frame => cases h
  | yielding sid other current =>
      cases h
      exact ⟨sid, rfl⟩
  | _ => cases h

namespace State

/-- The task sleeps in a channel, or is about to. -/
def Sleeps (s : State) (tid : TaskId) (t : Task) : Prop :=
  (t.status = .suspended ∧ t.inChannel = true) ∨ ∃ th, (s.pc th).past = some tid

def Wakeable (s : State) (tid : TaskId) (sid : SessionId) : Prop :=
  s.Parked tid ∨ (∃ job ∈ (s.sched.sessions sid).tasks, job.tid = tid) ∨
    ∃ th, (s.pc th).Wakes tid

structure Woken (s : State) : Prop where
  exclusive : s.view.Exclusive
  rendezvous : ∀ c, Rendezvous (s.channels c)
  own : ∀ th, (s.pc th).Own
  woken : ∀ tid t, s.sched.tasks tid = some t → s.Sleeps tid t → s.Wakeable tid t.sid

theorem Woken.resumable {s : State} (hs : s.Woken) {tid : TaskId} {t : Task}
    (ht : s.sched.tasks tid = some t) (hsleeps : s.Sleeps tid t) :
    s.sched.taskResumable tid = true := by
  have hstatus : t.status = .suspended ∨ t.status = .running := by
    rcases hsleeps with ⟨hsusp, _⟩ | ⟨th, hpast⟩
    · exact .inl hsusp
    · obtain ⟨sid, hstage⟩ := Pc.stage_of_past hpast
      exact .inr (hs.exclusive.running th sid tid t hstage ht)
  simp only [Scheduler.taskResumable, ht]
  rcases hstatus with h | h <;> simp [h]

theorem Wakeable.pass {s next : State} {th : ThreadId} {p : Pc} {tid : TaskId} {sid : SessionId}
    (h : s.Wakeable tid sid) (hpc : next.pc = Function.update s.pc th p)
    (hparked : s.Parked tid → next.Wakeable tid sid)
    (hqueue : ∀ job ∈ (s.sched.sessions sid).tasks, job.tid = tid → next.Wakeable tid sid)
    (hself : (s.pc th).Wakes tid → next.Wakeable tid sid) : next.Wakeable tid sid := by
  rcases h with hpark | ⟨job, hjob, htid⟩ | ⟨th', hwakes⟩
  · exact hparked hpark
  · exact hqueue job hjob htid
  · by_cases hth : th' = th
    · rw [hth] at hwakes
      exact hself hwakes
    · right
      right
      refine ⟨th', ?_⟩
      rw [hpc, Function.update_of_ne hth]
      exact hwakes

theorem Wakeable.advance {s next : State} {th : ThreadId} {p : Pc} {tid : TaskId}
    {sid : SessionId} (h : s.Wakeable tid sid) (hpc : next.pc = Function.update s.pc th p)
    (hchannels : next.channels = s.channels)
    (hqueue : ∀ job ∈ (s.sched.sessions sid).tasks, job ∈ (next.sched.sessions sid).tasks)
    (hself : (s.pc th).Wakes tid → p.Wakes tid) : next.Wakeable tid sid := by
  apply h.pass hpc
  · intro ⟨c, hopen, hholds⟩
    exact .inl ⟨c, by rw [hchannels]; exact hopen, by rw [hchannels]; exact hholds⟩
  · exact fun job hjob htid => .inr (.inl ⟨job, hqueue job hjob, htid⟩)
  · intro hwakes
    have hp : (next.pc th).Wakes tid := by
      rw [hpc, Function.update_self]
      exact hself hwakes
    exact .inr (.inr ⟨th, hp⟩)

theorem Wakeable.keep {s next : State} {tid : TaskId} {sid : SessionId} (h : s.Wakeable tid sid)
    (hpc : next.pc = s.pc) (hparked : s.Parked tid → next.Parked tid)
    (hqueue : ∀ job ∈ (s.sched.sessions sid).tasks, job ∈ (next.sched.sessions sid).tasks) :
    next.Wakeable tid sid := by
  rcases h with hpark | ⟨job, hjob, htid⟩ | ⟨th, hwakes⟩
  · exact .inl (hparked hpark)
  · exact .inr (.inl ⟨job, hqueue job hjob, htid⟩)
  · exact .inr (.inr ⟨th, by rw [hpc]; exact hwakes⟩)

theorem mem_sessionQueueTask {sc : Scheduler} {job : Job} {sid : SessionId} {j : Job}
    (h : j ∈ (sc.sessions sid).tasks) : j ∈ ((sc.sessionQueueTask job).sessions sid).tasks := by
  rcases sc.sessionQueueTask_cases job with ⟨_, heq⟩ | ⟨t, _, _, _, hsessions, _⟩
  · rw [heq]
    exact h
  · rw [hsessions]
    by_cases hsid : sid = t.sid
    · subst hsid
      simp [h]
    · rw [Function.update_of_ne hsid]
      exact h

theorem mem_sessionQueueTask_self {sc : Scheduler} {job : Job} {t : Task}
    (ht : sc.tasks job.tid = some t) :
    job ∈ ((sc.sessionQueueTask job).sessions t.sid).tasks := by
  rcases sc.sessionQueueTask_cases job with ⟨hnone, _⟩ | ⟨u, hu, _, _, hsessions, _⟩
  · rw [ht] at hnone
    cases hnone
  · rw [ht] at hu
    cases hu
    rw [hsessions]
    simp

theorem wakeable_enter {s : State} {th : ThreadId} {sid : SessionId} {sched : Scheduler}
    {job : Option Job} {tid : TaskId} {other : SessionId} (hpc : s.pc th = .entered sid)
    (henter : s.sched.sessionRunEnter sid = some (sched, job)) (h : s.Wakeable tid other) :
    ({ s with sched := sched }.setPc th (.popped sid job)).Wakeable tid other := by
  obtain ⟨_, hjob, rfl⟩ := Scheduler.sessionRunEnter_eq_some.mp henter
  apply h.pass
  · exact pc_setPc _ th _
  · exact fun hpark => .inl hpark
  · intro j hj htid
    by_cases hother : other = sid
    · subst hother
      cases htasks : (s.sched.sessions other).tasks with
      | nil => simp [htasks] at hj
      | cons first rest =>
          rw [htasks] at hj
          rcases List.mem_cons.mp hj with rfl | hj
          · right
            right
            refine ⟨th, ?_⟩
            simp [hjob, htasks, Pc.Wakes, htid]
          · right
            left
            refine ⟨j, ?_, htid⟩
            simpa [Scheduler.setSession, htasks] using hj
    · right
      left
      refine ⟨j, ?_, htid⟩
      simpa [Scheduler.setSession, hother] using hj
  · intro hwakes
    rw [hpc] at hwakes
    exact hwakes.elim

theorem wakeable_locked {s : State} {th : ThreadId} {f : CallFrame} {c : ChannelId}
    {op : Operation} {ch : Channel Waiter MessageId} {full : Bool} {calls : List Callback}
    {tid : TaskId} {sid : SessionId} (hpc : s.pc th = .locking f c op)
    (hkept : SectionKept (s.channels c) ch f.waiter op calls) (h : s.Wakeable tid sid) :
    ((s.setChannel c ch).setPc th (.calling f full calls)).Wakeable tid sid := by
  apply h.pass
  · exact pc_setPc _ th _
  · intro ⟨c', hopen, hholds⟩
    by_cases hc : c' = c
    · subst hc
      rcases hkept.others (.task tid) hholds with hstill | htold
      · left
        refine ⟨c', ?_, ?_⟩
        · simpa [hkept.status] using hopen
        · simpa using hstill
      · right
        right
        refine ⟨th, ?_⟩
        simpa [Pc.Wakes] using htold
    · left
      refine ⟨c', ?_, ?_⟩
      · simpa [hc] using hopen
      · simpa [hc] using hholds
  · exact fun job hjob htid => .inr (.inl ⟨job, hjob, htid⟩)
  · intro hwakes
    rw [hpc] at hwakes
    exact hwakes.elim

theorem wakeable_invoke {s : State} {th : ThreadId} {f : CallFrame} {full : Bool} {i : Callback}
    {rest : List Callback} {tid : TaskId} {sid : SessionId}
    (hpc : s.pc th = .calling f full (i :: rest)) (hres : s.sched.taskResumable tid = true)
    (h : s.Wakeable tid sid) : (s.invoke th f full i rest).Wakeable tid sid := by
  obtain ⟨p, hp, hchannels, hsched, hcases⟩ := s.invoke_spec th f full i rest
  apply h.advance hp hchannels
  · rw [hsched]
    exact fun _ hj => hj
  · intro hwakes
    rw [hpc] at hwakes
    rcases hcases with ⟨other, m, release, hcb, rfl⟩ | ⟨rfl, hover⟩
    · rcases told_cons hwakes with ⟨hself, _⟩ | hrest
      · rw [hcb] at hself
        cases hself
        exact .inl rfl
      · exact .inr hrest
    · rcases told_cons hwakes with ⟨hself, hevent⟩ | hrest
      · rcases hover tid hself with hclosed | hnot
        · exact absurd hclosed hevent
        · rw [hres] at hnot
          cases hnot
      · exact hrest

theorem wakeable_close {s : State} {c : ChannelId} {tid : TaskId} {sid : SessionId}
    (hguard : s.WakeupKept (.close c)) (h : s.Wakeable tid sid) :
    (s.close c).Wakeable tid sid := by
  obtain ⟨hpc, hchannels, hsched, _⟩ := s.close_spec c
  apply h.keep hpc
  · intro ⟨c', hopen, hholds⟩
    have hne : c' ≠ c := by
      intro heq
      subst heq
      obtain ⟨hreaders, hwriters⟩ := hguard hopen
      rcases hholds with hr | ⟨x, hx, hcb⟩
      · have hnot := hreaders _ hr
        cases hnot
      · have hnot := hwriters x hx
        rw [hcb] at hnot
        cases hnot
    have hsame : (s.close c).channels c' = s.channels c' := by
      rw [hchannels]
      exact Function.update_of_ne hne _ _
    exact ⟨c', by rw [hsame]; exact hopen, by rw [hsame]; exact hholds⟩
  · rw [hsched]
    exact fun _ hj => hj

/-- A step keeps the wake-up of a task that needs one, unless it runs the task. -/
theorem Woken.wakeable_step {s next : State} {a : Label} (hs : s.Woken) (h : Step s a next)
    (hguard : s.WakeupKept a) {tid : TaskId} {t : Task} (ht : s.sched.tasks tid = some t)
    (hsleeps : s.Sleeps tid t)
    (hnot : ∀ th sid job, a = .taskRun th → s.pc th = .popped sid (some job) → job.tid ≠ tid)
    (hw : s.Wakeable tid t.sid) : next.Wakeable tid t.sid := by
  have hsilent : ∀ {th : ThreadId} {p : Pc} {q : Pc}, s.pc th = q → (¬ q.Wakes tid) →
      (s.pc th).Wakes tid → p.Wakes tid := by
    intro th p q hpc hq hwakes
    rw [hpc] at hwakes
    exact absurd hwakes hq
  cases h with
  | newTask sid => exact hw.keep rfl (fun hpark => hpark) fun _ hjob => hjob
  | gcTask other =>
      apply hw.keep
      · rfl
      · exact fun hpark => hpark
      · rw [(s.sched.sessions_taskFree other).1]
        exact fun _ hjob => hjob
  | queueTask | queueMessage =>
      exact hw.keep rfl (fun hpark => hpark) fun job hjob => mem_sessionQueueTask hjob
  | refuse _ => exact hw.keep rfl (fun hpark => hpark) fun _ hjob => hjob
  | take hpc _ =>
      exact hw.advance (pc_setPc _ _ _) rfl (fun _ hj => hj) (hsilent hpc fun h => h)
  | enterBusy hpc _ =>
      exact hw.advance (pc_setPc _ _ _) rfl (fun _ hj => hj) (hsilent hpc fun h => h)
  | enter hpc henter => exact wakeable_enter hpc henter hw
  | runNone hpc =>
      exact hw.advance (pc_setPc _ _ _) rfl (fun _ hj => hj) (hsilent hpc fun h => h)
  | @run th sid job hpc =>
      obtain ⟨p, _, hp, hchannels, hsched, _⟩ := s.taskRunEnter_spec th sid job
      apply hw.advance hp hchannels
      · have hsame : ∀ r, s.sched.taskRunEnter job = r → r.2.sessions = s.sched.sessions :=
          fun r hr => (Scheduler.sessions_taskRunEnter hr).1
        rw [hsched, hsame _ rfl]
        exact fun _ hj => hj
      · exact hsilent hpc fun htid => hnot th sid job rfl hpc htid
  | @luacTask th sid tid' current c writes hpc _ =>
      rcases s.luac_cases th (.task sid tid' current) c writes with
        ⟨_, heq⟩ | ⟨_, heq | heq⟩
      · rw [heq]
        exact hw
      all_goals
        rw [heq]
        exact hw.advance (pc_setPc _ _ _) rfl (fun _ hj => hj) (hsilent hpc fun h => h)
  | @luacPlain th c writes hpc =>
      rcases luac_cases { s with nextFrame := s.nextFrame + 1 } th (.plain s.nextFrame) c
        writes with ⟨_, heq⟩ | ⟨_, heq | heq⟩
      · rw [heq]
        exact hw
      all_goals
        rw [heq]
        exact hw.advance (pc_setPc _ _ _) rfl (fun _ hj => hj) (hsilent hpc fun h => h)
  | testClosed hpc _ =>
      exact hw.advance (pc_setPc _ _ _) rfl (fun _ hj => hj) (hsilent hpc fun h => h)
  | test hpc _ =>
      exact hw.advance (pc_setPc _ _ _) rfl (fun _ hj => hj) (hsilent hpc fun h => h)
  | @locked th f c op ch full calls hpc hsection =>
      exact wakeable_locked hpc (lockedSection_kept (hs.rendezvous c) hsection) hw
  | callback hpc => exact wakeable_invoke hpc (hs.resumable ht hsleeps) hw
  | @queue th f full job release rest hpc =>
      apply hw.pass
      · exact pc_setPc _ th _
      · exact fun hpark => .inl hpark
      · exact fun j hj htid => .inr (.inl ⟨j, mem_sessionQueueTask hj, htid⟩)
      · intro hwakes
        rw [hpc] at hwakes
        rcases hwakes with htid | htold
        · subst htid
          exact .inr (.inl ⟨job, mem_sessionQueueTask_self ht, rfl⟩)
        · right
          right
          exact ⟨th, by simpa [Pc.Wakes] using htold⟩
  | leaveTask hpc =>
      exact hw.advance (pc_setPc _ _ _) rfl (fun _ hj => hj)
        (hsilent hpc fun h => by simp [Pc.Wakes, Told] at h)
  | leavePlain hpc =>
      exact hw.advance (pc_setPc _ _ _) rfl (fun _ hj => hj)
        (hsilent hpc fun h => by simp [Pc.Wakes, Told] at h)
  | wake hpc =>
      exact hw.advance (pc_setPc _ _ _) rfl (fun _ hj => hj) (hsilent hpc fun h => h)
  | @yielded th sid tid' current rc hpc _ =>
      apply hw.advance
      · exact pc_setPc _ th _
      · rfl
      · intro job hjob
        rw [sched_setPc, (s.sched.sessions_taskRunLeave tid' rc true).1]
        exact hjob
      · exact hsilent hpc fun h => h
  | @ended th sid tid' rc hpc =>
      apply hw.advance
      · exact pc_setPc _ th _
      · rfl
      · intro job hjob
        rw [sched_setPc, (s.sched.sessions_taskRunLeave tid' rc false).1]
        exact hjob
      · exact hsilent hpc fun h => h
  | @finish th sid hpc =>
      apply hw.advance
      · exact pc_setPc _ th _
      · rfl
      · intro job hjob
        rw [sched_setPc, (s.sched.sessionRunLeave_session sid t.sid).1]
        exact hjob
      · exact hsilent hpc fun h => h
  | close c => exact wakeable_close hguard hw

theorem asleep_step {s next : State} {a : Label} (h : Step s a next) {tid : TaskId} {t' : Task}
    (ht' : next.sched.tasks tid = some t')
    (hasleep : t'.status = .suspended ∧ t'.inChannel = true) :
    ∃ t, s.sched.tasks tid = some t ∧ t.sid = t'.sid ∧ s.Sleeps tid t ∧
      ∀ th sid job, a = .taskRun th → s.pc th = .popped sid (some job) → job.tid ≠ tid := by
  have hkeep : ∀ {n : Nat}, s.sched.tasks tid = some { t' with refCount := n } →
      (∀ th sid job, a = .taskRun th → s.pc th = .popped sid (some job) → job.tid ≠ tid) →
      ∃ t, s.sched.tasks tid = some t ∧ t.sid = t'.sid ∧ s.Sleeps tid t ∧
        ∀ th sid job, a = .taskRun th → s.pc th = .popped sid (some job) → job.tid ≠ tid :=
    fun htask hnot => ⟨_, htask, rfl, .inl hasleep, hnot⟩
  cases h with
  | newTask sid =>
      by_cases htid : tid = s.sched.nextTask
      · subst htid
        have heq : some (Task.mk sid 1 .ready false) = some t' := by
          simpa [Scheduler.taskNew, Scheduler.setTask] using ht'
        cases heq
        cases hasleep.1
      · apply hkeep (n := t'.refCount)
        · simpa [Scheduler.taskNew, Scheduler.setTask, htid] using ht'
        · simp
  | gcTask other =>
      obtain ⟨n, htask⟩ := Scheduler.tasks_taskFree ht'
      exact hkeep htask (by simp)
  | queueTask | queueMessage | queue =>
      have htask := ht'
      simp only [sched_setPc, Scheduler.tasks_sessionQueueTask] at htask
      exact hkeep (n := t'.refCount) htask (by simp)
  | refuse _ => exact hkeep (n := t'.refCount) ht' (by simp)
  | enter hpc henter =>
      obtain ⟨_, _, rfl⟩ := Scheduler.sessionRunEnter_eq_some.mp henter
      exact hkeep (n := t'.refCount) ht' (by simp)
  | runNone hpc =>
      apply hkeep (n := t'.refCount) ht'
      intro th sid job hlabel hpopped
      cases hlabel
      rw [hpc] at hpopped
      cases hpopped
  | @run th sid job hpc =>
      obtain ⟨_, _, _, _, hsched, _⟩ := s.taskRunEnter_spec th sid job
      rw [hsched] at ht'
      cases hrun : s.sched.taskRunEnter job with
      | mk entry sched =>
          rw [hrun] at ht'
          have hne : tid ≠ job.tid := by
            intro heq
            subst heq
            rcases Scheduler.taskRunEnter_self hrun ht' with hstatus | hstatus <;>
              simp [hstatus] at hasleep
          apply hkeep (n := t'.refCount)
          · rw [← Scheduler.taskRunEnter_of_ne hrun hne]
            exact ht'
          · intro th' sid' job' hlabel hpopped
            cases hlabel
            rw [hpc] at hpopped
            cases hpopped
            exact hne.symm
  | @luacTask th sid tid' current c writes hpc _ =>
      rcases s.luac_cases th (.task sid tid' current) c writes with ⟨_, heq⟩ | ⟨_, heq | heq⟩
      all_goals
        rw [heq] at ht'
        exact hkeep (n := t'.refCount) ht' (by simp)
  | @luacPlain th c writes hpc =>
      rcases luac_cases { s with nextFrame := s.nextFrame + 1 } th (.plain s.nextFrame) c
        writes with ⟨_, heq⟩ | ⟨_, heq | heq⟩
      all_goals
        rw [heq] at ht'
        exact hkeep (n := t'.refCount) ht' (by simp)
  | @callback th f full i rest hpc =>
      obtain ⟨_, _, _, hsched, _⟩ := s.invoke_spec th f full i rest
      rw [hsched] at ht'
      exact hkeep (n := t'.refCount) ht' (by simp)
  | @yielded th sid tid' current rc hpc _ =>
      by_cases htid : tid = tid'
      · subst htid
        obtain ⟨u, hu, hsid, _⟩ := Scheduler.taskRunLeave_self ht'
        refine ⟨u, hu, hsid, .inr ⟨th, ?_⟩, by simp⟩
        rw [hpc]
        rfl
      · obtain ⟨n, htask⟩ := Scheduler.taskRunLeave_of_ne htid ht'
        exact hkeep htask (by simp)
  | @ended th sid tid' rc hpc =>
      by_cases htid : tid = tid'
      · subst htid
        obtain ⟨_, _, _, hchannel, _⟩ := Scheduler.taskRunLeave_self ht'
        rw [hasleep.2] at hchannel
        cases hchannel
      · obtain ⟨n, htask⟩ := Scheduler.taskRunLeave_of_ne htid ht'
        exact hkeep htask (by simp)
  | finish hpc =>
      have htask := ht'
      simp only [sched_setPc, Scheduler.tasks_sessionRunLeave] at htask
      exact hkeep (n := t'.refCount) htask (by simp)
  | close c =>
      obtain ⟨_, _, hsched, _⟩ := s.close_spec c
      rw [hsched] at ht'
      exact hkeep (n := t'.refCount) ht' (by simp)
  | _ => exact hkeep (n := t'.refCount) ht' (by simp)

theorem past_step {s next : State} {a : Label} (h : Step s a next) {th : ThreadId}
    {tid : TaskId} (hpast : (next.pc th).past = some tid) :
    (s.pc th).past = some tid ∨
    (∃ sid current c op, a = .locked th ∧ s.pc th = .locking (.task sid tid current) c op) ∨
    (∃ sid current c op, a = .test th ∧ s.pc th = .testing (.task sid tid current) c op ∧
      (s.channels c).status = .channelClosed) := by
  have hmoved : ∀ {th' : ThreadId} {p : Pc}, (Function.update s.pc th' p th).past = some tid →
      ((th = th' ∧ p.past = some tid) ∨ (s.pc th).past = some tid) := by
    intro th' p hp
    by_cases hth : th = th'
    · subst hth
      rw [Function.update_self] at hp
      exact .inl ⟨rfl, hp⟩
    · rw [Function.update_of_ne hth] at hp
      exact .inr hp
  cases h with
  | newTask | gcTask | queueTask | queueMessage | refuse => exact .inl hpast
  | @run th' sid job hpc =>
      obtain ⟨p, hp, hpc', _⟩ := s.taskRunEnter_spec th' sid job
      rw [hpc'] at hpast
      rcases hmoved hpast with ⟨_, hown⟩ | hold
      · rcases hp with rfl | rfl <;> cases hown
      · exact .inl hold
  | @luacTask th' sid tid' current c writes hpc _ =>
      rcases s.luac_cases th' (.task sid tid' current) c writes with ⟨_, heq⟩ | ⟨_, heq | heq⟩
      · rw [heq] at hpast
        exact .inl hpast
      all_goals
        rw [heq, pc_setPc] at hpast
        rcases hmoved hpast with ⟨_, hown⟩ | hold
        · cases hown
        · exact .inl hold
  | @luacPlain th' c writes hpc =>
      rcases luac_cases { s with nextFrame := s.nextFrame + 1 } th' (.plain s.nextFrame) c
        writes with ⟨_, heq⟩ | ⟨_, heq | heq⟩
      · rw [heq] at hpast
        exact .inl hpast
      all_goals
        rw [heq, pc_setPc] at hpast
        rcases hmoved hpast with ⟨_, hown⟩ | hold
        · cases hown
        · exact .inl hold
  | @testClosed th' f c op hpc hclosed =>
      rw [pc_setPc] at hpast
      rcases hmoved hpast with ⟨rfl, hown⟩ | hold
      · cases f with
        | task sid other current =>
            cases hown
            exact .inr (.inr ⟨sid, current, c, op, rfl, hpc, hclosed⟩)
        | plain frame => cases hown
      · exact .inl hold
  | @locked th' f c op ch full calls hpc _ =>
      rw [pc_setPc] at hpast
      rcases hmoved hpast with ⟨rfl, hown⟩ | hold
      · cases f with
        | task sid other current =>
            cases hown
            exact .inr (.inl ⟨sid, current, c, op, rfl, hpc⟩)
        | plain frame => cases hown
      · exact .inl hold
  | @callback th' f full i rest hpc =>
      obtain ⟨p, hpc', _, _, hcases⟩ := s.invoke_spec th' f full i rest
      rw [hpc'] at hpast
      rcases hmoved hpast with ⟨rfl, hown⟩ | hold
      · left
        rw [hpc]
        rcases hcases with ⟨_, _, _, _, rfl⟩ | ⟨rfl, _⟩ <;> exact hown
      · exact .inl hold
  | @queue th' f full job release rest hpc =>
      rw [pc_setPc] at hpast
      rcases hmoved hpast with ⟨rfl, hown⟩ | hold
      · left
        rw [hpc]
        exact hown
      · exact .inl hold
  | @leaveTask th' sid other current full hpc =>
      rw [pc_setPc] at hpast
      rcases hmoved hpast with ⟨rfl, hown⟩ | hold
      · left
        rw [hpc]
        exact hown
      · exact .inl hold
  | @leavePlain th' frame full hpc =>
      rw [pc_setPc] at hpast
      rcases hmoved hpast with ⟨_, hown⟩ | hold
      · cases full <;> cases hown
      · exact .inl hold
  | close c =>
      obtain ⟨hpc, _⟩ := s.close_spec c
      rw [hpc] at hpast
      exact .inl hpast
  | _ =>
      rw [pc_setPc] at hpast
      rcases hmoved hpast with ⟨_, hown⟩ | hold
      · cases hown
      · exact .inl hold

theorem rendezvous_step {s next : State} {a : Label} (hs : ∀ c, Rendezvous (s.channels c))
    (h : Step s a next) (c : ChannelId) : Rendezvous (next.channels c) := by
  have hset : ∀ {c' : ChannelId} {ch : Channel Waiter MessageId}, Rendezvous ch →
      Rendezvous (Function.update s.channels c' ch c) := by
    intro c' ch hch
    by_cases hc : c = c'
    · subst hc
      rw [Function.update_self]
      exact hch
    · rw [Function.update_of_ne hc]
      exact hs c
  cases h with
  | @run th sid job _ =>
      obtain ⟨_, _, _, hchannels, _⟩ := s.taskRunEnter_spec th sid job
      rw [hchannels]
      exact hs c
  | @luacTask th sid tid current c' writes _ _ =>
      rcases s.luac_cases th (.task sid tid current) c' writes with ⟨_, heq⟩ | ⟨_, heq | heq⟩
      all_goals
        rw [heq]
        exact hs c
  | @luacPlain th c' writes _ =>
      rcases luac_cases { s with nextFrame := s.nextFrame + 1 } th (.plain s.nextFrame) c'
        writes with ⟨_, heq⟩ | ⟨_, heq | heq⟩
      all_goals
        rw [heq]
        exact hs c
  | @locked th f c' op ch full calls _ hsection =>
      exact hset (lockedSection_kept (hs c') hsection).rendezvous
  | @callback th f full i rest _ =>
      obtain ⟨_, _, hchannels, _⟩ := s.invoke_spec th f full i rest
      rw [hchannels]
      exact hs c
  | close c' =>
      obtain ⟨_, hchannels, _⟩ := s.close_spec c'
      rw [hchannels]
      exact hset (channelClose_rendezvous (hs c'))
  | _ => exact hs c

theorem own_step {s next : State} {a : Label} (hs : ∀ th, (s.pc th).Own) (h : Step s a next)
    (hguard : s.WakeupKept a) (th : ThreadId) : (next.pc th).Own := by
  have hmoved : ∀ {th' : ThreadId} {p : Pc}, p.Own → (Function.update s.pc th' p th).Own := by
    intro th' p hp
    by_cases hth : th = th'
    · subst hth
      rw [Function.update_self]
      exact hp
    · rw [Function.update_of_ne hth]
      exact hs th
  have hsame : ∀ {th' : ThreadId} {p q : Pc}, s.pc th' = q → (q.Own → p.Own) →
      (Function.update s.pc th' p th).Own := by
    intro th' p q hq himp
    have hbefore := hs th'
    rw [hq] at hbefore
    exact hmoved (himp hbefore)
  cases h with
  | newTask | gcTask | queueTask | queueMessage | refuse => exact hs th
  | @run th' sid job _ =>
      obtain ⟨p, hp, hpc, _⟩ := s.taskRunEnter_spec th' sid job
      rw [hpc]
      rcases hp with rfl | rfl <;> exact hmoved trivial
  | @luacTask th' sid tid current c writes hpc hkey =>
      rcases s.luac_cases th' (.task sid tid current) c writes with
        ⟨_, heq⟩ | ⟨hopen, hcase⟩
      · rw [heq]
        exact hs th
      · have hown : current = tid := by
          simp only [WakeupKept, hpc] at hguard
          have hsame : (s.threads th').taskKey = some tid := hguard hopen
          rw [hkey] at hsame
          exact Option.some.inj hsame
        rcases hcase with heq | heq
        all_goals
          rw [heq, pc_setPc]
          exact hmoved hown
  | @luacPlain th' c writes _ =>
      rcases luac_cases { s with nextFrame := s.nextFrame + 1 } th' (.plain s.nextFrame) c
        writes with ⟨_, heq⟩ | ⟨_, heq | heq⟩
      · rw [heq]
        exact hs th
      all_goals
        rw [heq, pc_setPc]
        exact hmoved trivial
  | @callback th' f full i rest hpc =>
      obtain ⟨p, hpc', _, _, hcases⟩ := s.invoke_spec th' f full i rest
      rw [hpc']
      rcases hcases with ⟨_, _, _, _, rfl⟩ | ⟨rfl, _⟩ <;> exact hsame hpc fun h => h
  | testClosed hpc _ | test hpc _ | locked hpc _ | queue hpc | leaveTask hpc =>
      rw [pc_setPc]
      exact hsame hpc fun h => h
  | @leavePlain th' frame full _ =>
      rw [pc_setPc]
      cases full <;> exact hmoved trivial
  | close c =>
      obtain ⟨hpc, _⟩ := s.close_spec c
      rw [hpc]
      exact hs th
  | _ =>
      rw [pc_setPc]
      exact hmoved trivial

/-- A call that is past its locked section has its own wake-up in the channel or in hand. -/
theorem Woken.locked_step {s next : State} {th : ThreadId} (hs : s.Woken)
    (h : Step s (.locked th) next) (hguard : s.WakeupKept (.locked th)) {sid : SessionId}
    {tid current : TaskId} {c : ChannelId} {op : Operation}
    (hpc : s.pc th = .locking (.task sid tid current) c op) (other : SessionId) :
    next.Wakeable tid other := by
  cases h with
  | @locked _ f c' op' ch full calls hpc' hsection =>
      rw [hpc] at hpc'
      cases hpc'
      have hkept := lockedSection_kept (hs.rendezvous c) hsection
      have hown : current = tid := by
        have h := hs.own th
        rw [hpc] at h
        exact h
      subst hown
      have htold : Told (.task current) calls →
          ((s.setChannel c ch).setPc th
            (.calling (.task sid current current) full calls)).Wakeable current other := by
        intro h
        right
        right
        exact ⟨th, by simpa [Pc.Wakes] using h⟩
      by_cases hopen : (s.channels c).status = .channelOpen
      · rcases hkept.caller with hholds | h
        · left
          refine ⟨c, ?_, ?_⟩
          · simpa [hkept.status] using hopen
          · simpa [CallFrame.waiter] using hholds
        · exact htold h
      · simp only [WakeupKept, hpc, Pc.FindsOpen] at hguard
        exact htold (hkept.told (hguard.resolve_left hopen))

theorem Woken.step {s next : State} {a : Label} (hs : s.Woken) (hguard : s.WakeupKept a)
    (hstep : s.step a = some next) : next.Woken := by
  have h := step_cases hstep
  have hmove : AnyMove s.view next.view :=
    anyMove_of_step hstep
  refine ⟨hs.exclusive.move hmove, rendezvous_step hs.rendezvous h, own_step hs.own h hguard, ?_⟩
  intro tid t' ht' hsleeps
  rcases hsleeps with hasleep | ⟨th, hpast⟩
  · obtain ⟨t, ht, hsid, hbefore, hnot⟩ := asleep_step h ht' hasleep
    rw [← hsid]
    exact hs.wakeable_step h hguard ht hbefore hnot (hs.woken tid t ht hbefore)
  · rcases past_step h hpast with hold | ⟨sid, current, c, op, rfl, hpc⟩ |
      ⟨sid, current, c, op, rfl, hpc, hclosed⟩
    · obtain ⟨sid, hstage⟩ := Pc.stage_of_past hold
      have howned := hs.exclusive.inside th sid tid hstage
      have hsession : (s.view.stage th).session = some sid := congrArg Stage.session hstage
      rcases hmove.keepsOwners.2 tid t' ht' with ⟨t, ht, hsid⟩ | ⟨hle, _⟩
      · rw [← hsid]
        have hbefore : s.Sleeps tid t := .inr ⟨th, hold⟩
        apply hs.wakeable_step h hguard ht hbefore _ (hs.woken tid t ht hbefore)
        -- the task is being run, so no other thread has popped a job of it
        rintro th' sid' job _ hpopped rfl
        have hstage' : s.view.stage th' = .popped sid' (some job) := congrArg Pc.stage hpopped
        have hsession' : (s.view.stage th').session = some sid' :=
          congrArg Stage.session hstage'
        have heq := hs.exclusive.eq_of_owned hsession hsession' ht howned
          (hs.exclusive.popped th' sid' job hstage')
        rw [heq, hpopped] at hold
        cases hold
      · exact absurd howned.1 (Nat.not_lt.mpr hle)
    · exact hs.locked_step h hguard hpc t'.sid
    · simp only [WakeupKept, hpc, Pc.FindsOpen] at hguard
      rw [hguard] at hclosed
      cases hclosed

theorem woken_start (size : ChannelId → Int) : (start size).Woken where
  exclusive := View.exclusive_start size
  rendezvous c := channelNew_rendezvous (size c)
  own _ := trivial
  woken _ _ ht := by cases ht

theorem Woken.nobodyForgotten {s : State} (hs : s.Woken) : s.NobodyForgotten := by
  intro tid t ht hsusp hchannel hnone
  rcases hs.woken tid t ht (.inl ⟨hsusp, hchannel⟩) with hpark | hjob | ⟨th, hwakes⟩
  · exact .inl hpark
  · exact .inr hjob
  · exact absurd hwakes (hnone th)

/-- In every run that keeps its wake-ups, no task is left asleep in a channel. -/
theorem nobodyForgotten_throughout (size : ChannelId → Int) (steps : List Label)
    (hkept : Respects State.step State.WakeupKept (start size) steps) :
    Throughout State.step State.NobodyForgotten (start size) steps :=
  throughout_of_respects (fun _ _ _ hs hguard hstep => Woken.step hs hguard hstep)
    (fun _ hs => hs.nobodyForgotten) (woken_start size) hkept

/-- Tasks 1 and 2 pass a message over channel 0 and both wake up. -/
theorem nobodyForgotten_two_tasks :
    let steps : List Label := [.newTask 0, .newTask 1, .queueTask 1 true, .queueTask 2 true,
      .take 0, .enter 0, .taskRun 0, .luac 0 0 false, .test 0, .locked 0, .take 1, .enter 1,
      .taskRun 1, .luac 1 0 true, .test 1, .locked 1, .callback 1, .queue 1, .callback 1, .queue 1,
      .leave 1, .leave 0, .yielded 1 .yield, .yielded 0 .yield, .finish 0, .finish 1]
    Respects State.step State.WakeupKept (start fun _ => 1) steps ∧
      Throughout State.step State.NobodyForgotten (start fun _ => 1) steps := by
  intro steps
  have hkept : Respects State.step State.WakeupKept (start fun _ => 1) steps := by decide
  exact ⟨hkept, nobodyForgotten_throughout (fun _ => 1) steps hkept⟩

/-- A task reads an empty channel and sleeps; the channel is closed. -/
theorem nobodyForgotten_fails :
    ¬ ∀ (size : ChannelId → Int) (steps : List Label) (final : State),
      (∀ tid, Label.gcTask tid ∉ steps) → run State.step (start size) steps = some final →
        final.NobodyForgotten := by
  intro hall
  have hrun : ∃ final, run State.step (start fun _ => 1)
      [.newTask 0, .queueTask 1 true, .take 0, .enter 0, .taskRun 0, .luac 0 0 false, .test 0,
        .locked 0, .leave 0, .yielded 0 .yield, .finish 0, .close 0] = some final ∧
      final.sched.tasks 1 = some ⟨0, 1, .suspended, true⟩ ∧
      (final.sched.sessions 0).tasks = [] ∧ (∀ th, final.pc th = .idle) ∧
      ∀ c, (final.channels c).readers = [] ∧ (final.channels c).writers = [] := by
    refine ⟨_, rfl, rfl, rfl, ?_, ?_⟩
    · intro th
      cases th <;> rfl
    · intro c
      cases c <;> exact ⟨rfl, rfl⟩
  obtain ⟨final, hfinal, htask, hqueue, hidle, hempty⟩ := hrun
  have hforgotten := hall (fun _ => 1) _ final (by simp) hfinal 1 _ htask rfl rfl
  have hnone : ∀ th, ¬ (final.pc th).Wakes 1 := by
    intro th h
    rw [hidle th] at h
    exact h
  rcases hforgotten hnone with ⟨c, _, hmem | ⟨w, hmem, _⟩⟩ | ⟨job, hmem, _⟩
  · simp [(hempty c).1] at hmem
  · simp [(hempty c).2] at hmem
  · simp [hqueue] at hmem

end State

end Casting.Runtime
