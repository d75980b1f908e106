import Casting.Runtime.Leaks

/-!
# What the writer's callback destroys

The `write` case of `task_callback` destroys the message that the task has written, though it
belongs to the reader.  That does no harm when the reader has been called back before and was no
task, for `session_callback` has decoded the message by then.  It is so when tasks write to
channels without room, and what they write is read outside any task.
-/

namespace Casting.Runtime

open Transition Custody

/-- The messages that the `write` case of `task_callback` is still to be called with. -/
def taskWrites (calls : List Callback) : List MessageId :=
  calls.filterMap fun i =>
    match i.cb, i.event with
    | .task _, .write => i.message
    | _, _ => none

/-- `channel_write` finds no room for what a task writes, and no task that can be resumed is
called back with a message that a task has written. -/
def Pc.ReadOutside (s : State) : Pc → Prop
  | .locking (.task _ _ _) c (.write _) => (s.channels c).bufSize ≤ (s.channels c).messages.length
  | .calling _ _ (⟨.task tid, _, .read⟩ :: rest) =>
      s.sched.taskResumable tid = true → taskWrites rest = []
  | _ => True

instance (s : State) (p : Pc) : Decidable (p.ReadOutside s) := by
  rcases p with _ | _ | _ | _ | _ | ⟨⟨⟩ | ⟨⟩, _, ⟨⟩ | ⟨⟩⟩ |
    ⟨_, _, _ | ⟨⟨⟨⟩ | ⟨⟩, _, ⟨⟩ | ⟨⟩ | ⟨⟩⟩, _⟩⟩ | _ | _ | _ | _ <;>
    unfold Pc.ReadOutside <;> infer_instance

/-- The message that the next callback, or the one under way, is to destroy. -/
def Pc.due : Pc → Option MessageId
  | .calling _ _ (⟨.task _, m, .write⟩ :: _) => m
  | .queueing _ _ _ release _ => release
  | _ => none

/-- A call back to a task that has written is the last one, and comes after that to the reader of
the same message. -/
inductive ReadFirst : List Callback → Prop
  | free {calls : List Callback} (h : taskWrites calls = []) : ReadFirst calls
  | follows (cb : Waiter) (tid : TaskId) (m : MessageId) :
      ReadFirst [⟨cb, some m, .read⟩, ⟨.task tid, some m, .write⟩]
  | last (tid : TaskId) (m : MessageId) : ReadFirst [⟨.task tid, some m, .write⟩]

def Pc.ReadFirst : Pc → Prop
  | .calling _ _ calls => Runtime.ReadFirst calls
  | .queueing _ _ _ _ calls => taskWrites calls = []
  | _ => True

namespace State

def ReadOutside (s : State) : Label → Prop
  | .locked th | .callback th => (s.pc th).ReadOutside s
  | _ => True

instance decidableReadOutside (s : State) : (a : Label) → Decidable (s.ReadOutside a)
  | .locked th | .callback th => inferInstanceAs (Decidable ((s.pc th).ReadOutside s))
  | .newTask _ | .gcTask _ | .queueTask _ _ | .refuse _ | .take _ | .enter _ | .taskRun _
  | .luac _ _ _ | .test _ | .queue _ | .leave _ | .wake _ | .yielded _ _ | .ended _ _
  | .finish _ | .close _ => .isTrue trivial

/-- What a thread is to destroy nobody owns, nobody has destroyed, and no other thread will. -/
structure Released (s : State) : Prop where
  ordered : ∀ th, (s.pc th).ReadFirst
  free : ∀ th, ∀ m ∈ (s.pc th).due, (∀ p, m ∉ s.held p) ∧ (s.store.records m).destroys = 0
  once : ∀ th th', ∀ m ∈ (s.pc th).due, m ∈ (s.pc th').due → th = th'

variable {s next : State} {a : Label} {m : MessageId}

theorem due_of_releases (h : s.releases a = some m) :
    ∃ th, (a = .callback th ∨ a = .queue th) ∧ m ∈ (s.pc th).due := by
  cases a with
  | callback th =>
      simp only [releases] at h
      split at h
      · rename_i hpc
        split at h
        · cases h
        · exact ⟨th, .inl rfl, by simp [hpc, Pc.due, h]⟩
      · cases h
  | queue th =>
      simp only [releases] at h
      split at h
      · rename_i hpc
        exact ⟨th, .inr rfl, by simp [hpc, Pc.due, h]⟩
      · cases h
  | _ => cases h

theorem Released.kept (hs : s.Released) (a : Label) : s.ReleaseKept a := by
  intro m hm
  obtain ⟨th, _, hth⟩ := due_of_releases hm
  exact hs.free th m hth

theorem owed_of_due {p : Pc} (hm : m ∈ p.due) : m ∈ p.owed := by
  unfold Pc.due at hm
  split at hm
  · simp_all [Pc.owed, releasing]
  · simp_all [Pc.owed]
  · cases hm

/-! ### The record of a message -/

/-- Only the owner of a message and the writer's callback destroy it. -/
theorem records_step (hm : m < s.store.next) (hheld : ∀ p, m ∉ s.held p)
    (hreleases : s.releases a ≠ some m) (hstep : s.step a = some next) :
    next.store.records m = s.store.records m := by
  have hnew : s.store.msgNew.2.records m = s.store.records m :=
    records_msgNew_of_ne (Nat.ne_of_lt hm)
  have hluac : ∀ (s' : State) th f c writes, s'.store = s.store →
      (s'.luac th f c writes).store.records m = s.store.records m := by
    intro s' th f c writes hstore
    rcases s'.luac_cases th f c writes with ⟨_, heq⟩ | ⟨_, heq | heq⟩ <;> rw [heq]
    · rw [hstore]
    · exact congrArg (fun st => st.records m) hstore
    · change s'.store.msgNew.2.records m = s.store.records m
      rw [hstore, hnew]
  have hdestroy : ∀ (st : MessageStore) (gone : Option MessageId), gone ≠ some m →
      (st.msgDestroy gone).records m = st.records m := by
    intro st gone hne
    cases gone with
    | none => rfl
    | some gone => exact records_msgDestroy_of_ne fun heq => hne (by rw [heq])
  cases step_cases hstep with
  | queueMessage | refuse => exact hnew
  | @run th sid job hpc =>
      obtain ⟨p, _, _, _, _, hstore⟩ := s.taskRunEnter_spec th sid job
      rw [hstore]
      split
      · rfl
      · refine hdestroy _ _ fun hjob => hheld (.thread th) ?_
        simp [held, hpc, Pc.held, hjob]
  | luacTask c writes _ _ => exact hluac s _ _ c writes rfl
  | luacPlain c writes _ =>
      exact hluac { s with nextFrame := s.nextFrame + 1 } _ _ c writes rfl
  | @callback th f full i rest hpc =>
      obtain ⟨cb, message, event⟩ := i
      cases cb with
      | session frame => cases event <;> rfl
      | task tid =>
          cases hres : s.sched.taskResumable tid <;> cases event <;> simp only [invoke, hres]
          case false.write =>
            have hne : message ≠ some m := by
              simpa [releases, hpc, hres] using hreleases
            exact (hdestroy _ _ hne).trans hnew
          case true.write => exact hnew
          all_goals rfl
  | @queue th f full job release rest hpc =>
      exact hdestroy _ _ (by simpa [releases, hpc] using hreleases)
  | close c =>
      rw [(s.close_spec c).2.2.2]
      have hnot : m ∉ (channelClose (s.channels c)).2.1 := by
        unfold channelClose
        split
        · exact hheld (.buffer c)
        · exact List.not_mem_nil
      generalize (channelClose (s.channels c)).2.1 = released at hnot
      generalize s.store = st
      induction released generalizing st with
      | nil => rfl
      | cons gone released ih =>
          rw [List.mem_cons, not_or] at hnot
          exact (ih hnot.2 _).trans (records_msgDestroy_of_ne hnot.1)
  | _ => rfl

theorem Released.free_step (hs : s.Released) (howner : s.SingleOwner)
    (hstep : s.step a = some next) {th : ThreadId} (hm : m ∈ (s.pc th).due)
    (hreleases : s.releases a ≠ some m) :
    (∀ p, m ∉ next.held p) ∧ (next.store.records m).destroys = 0 := by
  obtain ⟨hheld, hzero⟩ := hs.free th m hm
  have hlt : m < s.store.next := (howner.owed th m (owed_of_due hm)).1
  constructor
  · intro p hp
    rcases known_step howner.rendezvous hstep hp with hnew | ⟨q, hq⟩
    · exact absurd hlt (Nat.not_lt.mpr hnew)
    · exact hheld q hq
  · rw [records_step hlt hheld hreleases hstep, hzero]

/-! ### One step -/

theorem Released.still (hs : s.Released) (howner : s.SingleOwner) (hstep : s.step a = some next)
    (hpc : next.pc = s.pc) (hreleases : s.releases a = none) : next.Released where
  ordered := by
    rw [hpc]
    exact hs.ordered
  free th m hm := by
    rw [hpc] at hm
    exact hs.free_step howner hstep hm (by simp [hreleases])
  once := by
    rw [hpc]
    exact hs.once

theorem Released.advance {th : ThreadId} {p : Pc} (hs : s.Released) (howner : s.SingleOwner)
    (hstep : s.step a = some next) (hpc : next.pc = Function.update s.pc th p)
    (hreleases : ∀ m, s.releases a = some m → m ∈ (s.pc th).due) (hordered : p.ReadFirst)
    (hdue : ∀ m ∈ p.due, (m ∈ (s.pc th).due ∧ s.releases a ≠ some m) ∨
      ((∃ place, m ∈ s.held place) ∧ (∀ place, m ∉ next.held place) ∧
        (next.store.records m).destroys = 0)) : next.Released := by
  have hself : next.pc th = p := by rw [hpc, Function.update_self]
  have hothers : ∀ other, other ≠ th → next.pc other = s.pc other := fun other hother => by
    rw [hpc, Function.update_of_ne hother]
  have happart : ∀ other, other ≠ th → ∀ m ∈ (s.pc other).due, m ∉ p.due := by
    intro other hother m hm hm'
    rcases hdue m hm' with ⟨hmine, _⟩ | ⟨⟨place, hplace⟩, _⟩
    · exact hother (hs.once other th m hm hmine)
    · exact (hs.free other m hm).1 place hplace
  constructor
  · intro other
    by_cases hother : other = th
    · rw [hother, hself]
      exact hordered
    · rw [hothers other hother]
      exact hs.ordered other
  · intro other m hm
    by_cases hother : other = th
    · rw [hother, hself] at hm
      rcases hdue m hm with ⟨hmine, hne⟩ | ⟨_, hfree⟩
      · exact hs.free_step howner hstep hmine hne
      · exact hfree
    · rw [hothers other hother] at hm
      refine hs.free_step howner hstep hm fun hm' => ?_
      exact hother (hs.once other th m hm (hreleases m hm'))
  · intro other other' m hm hm'
    by_cases hother : other = th <;> by_cases hother' : other' = th
    · rw [hother, hother']
    · rw [hother, hself] at hm
      rw [hothers other' hother'] at hm'
      exact absurd hm (happart other' hother' m hm')
    · rw [hother', hself] at hm'
      rw [hothers other hother] at hm
      exact absurd hm' (happart other hother m hm)
    · rw [hothers other hother] at hm
      rw [hothers other' hother'] at hm'
      exact hs.once other other' m hm hm'

theorem Released.quiet {th : ThreadId} {p : Pc} (hs : s.Released) (howner : s.SingleOwner)
    (hstep : s.step a = some next) (hpc : next.pc = Function.update s.pc th p)
    (hreleases : ∀ m, s.releases a = some m → m ∈ (s.pc th).due) (hordered : p.ReadFirst)
    (hdue : p.due = none) : next.Released :=
  hs.advance howner hstep hpc hreleases hordered fun m hm => by
    rw [hdue] at hm
    cases hm

theorem due_of_taskWrites {f : CallFrame} {full : Bool} {calls : List Callback}
    (h : taskWrites calls = []) : (Pc.calling f full calls).due = none := by
  rcases calls with _ | ⟨⟨⟨tid⟩ | ⟨frame⟩, message, ⟨⟩ | ⟨⟩ | ⟨⟩⟩, rest⟩
  case cons.task.write => cases message <;> simp_all [taskWrites, Pc.due]
  all_goals rfl

theorem handed_cases (r w : Waiter) (m : MessageId) :
    taskWrites [⟨r, some m, .read⟩, ⟨w, some m, .write⟩] = [] ∨
      ∃ tid, w = .task tid := by
  cases w with
  | task tid => exact .inr ⟨tid, rfl⟩
  | session frame =>
      left
      cases r <;> rfl

/-- The calls of a locked section that finds no room for a task. -/
theorem section_ordered {ch ch' : Channel Waiter MessageId} {w : Waiter} {op : Operation}
    {full : Bool} {calls : List Callback} (hc : Rendezvous ch)
    (hroom : ∀ tid m, w = .task tid → op = .write m → ch.bufSize ≤ ch.messages.length)
    (h : lockedSection ch w op = some (ch', full, calls)) :
    taskWrites calls = [] ∨
      ∃ cb tid m, calls = [⟨cb, some m, .read⟩, ⟨.task tid, some m, .write⟩] := by
  have hhanded : ∀ r w' m, calls = [⟨r, some m, .read⟩, ⟨w', some m, .write⟩] →
      taskWrites calls = [] ∨
        ∃ cb tid m, calls = [⟨cb, some m, .read⟩, ⟨.task tid, some m, .write⟩] := by
    intro r w' m heq
    rw [heq]
    rcases handed_cases r w' m with hnone | ⟨tid, rfl⟩
    · exact .inl hnone
    · exact .inr ⟨r, tid, m, rfl⟩
  cases op with
  | write message =>
      have hplain : ch.messages.length < ch.bufSize → ∃ frame, w = .session frame := by
        intro hlt
        cases w with
        | task tid => exact absurd hlt (Nat.not_lt.mpr (hroom tid message rfl rfl))
        | session frame => exact ⟨frame, rfl⟩
      simp only [lockedSection] at h
      rcases channelWriteLocked_cases hc message w with
        ⟨hr, hlt, heq⟩ | ⟨hr, hfull, heq⟩ | ⟨r, rest, hr, hmessages, hw, hpos, heq⟩ |
        ⟨r, rest, hr, hmessages, hw, hzero, heq⟩
      all_goals
        rw [heq] at h
        simp [channelWriteCallbacks, wroteInvocation] at h
        obtain ⟨rfl, _, rfl⟩ := h
      · obtain ⟨frame, rfl⟩ := hplain hlt
        exact .inl rfl
      · exact .inl rfl
      · obtain ⟨frame, rfl⟩ := hplain (by rw [hmessages]; exact hpos)
        left
        cases r.cb <;> rfl
      · exact hhanded _ _ message rfl
  | read =>
      simp only [lockedSection] at h
      rcases channelReadLocked_cases ch w with ⟨_, _, heq⟩ | ⟨_, heq⟩
      · rw [heq] at h
        simp [channelReadCallbacks] at h
        obtain ⟨rfl, _, rfl⟩ := h
        exact .inl rfl
      · rw [heq] at h
        simp only [channelReadCallbacks, if_true, Option.map_map, Option.map_eq_some_iff,
          Function.comp_apply, Prod.mk.injEq] at h
        obtain ⟨got, _, rfl, _, rfl⟩ := h
        revert hhanded
        cases ch.writers.head? with
        | none =>
            intro _
            left
            cases w <;> rfl
        | some first => exact fun hhanded => hhanded w first.cb got rfl

theorem Released.locked {th : ThreadId} {f : CallFrame} {c : ChannelId} {op : Operation}
    {ch : Channel Waiter MessageId} {full : Bool} {calls : List Callback} (hs : s.Released)
    (howner : s.SingleOwner) (hguard : s.ReadOutside (.locked th))
    (hpc : s.pc th = .locking f c op)
    (hsection : lockedSection (s.channels c) f.waiter op = some (ch, full, calls))
    (hstep : s.step (.locked th) = some ((s.setChannel c ch).setPc th (.calling f full calls))) :
    ((s.setChannel c ch).setPc th (.calling f full calls)).Released := by
  have hroom : ∀ tid m, f.waiter = .task tid → op = .write m →
      (s.channels c).bufSize ≤ (s.channels c).messages.length := by
    intro tid m hf hop
    subst hop
    cases f with
    | plain frame => cases hf
    | task sid tid current => simpa [ReadOutside, hpc, Pc.ReadOutside] using hguard
  refine hs.quiet howner hstep (pc_setPc _ _ _) (fun m hm => by cases hm) ?_ ?_
  · rcases section_ordered (howner.rendezvous c) hroom hsection with hnone | ⟨cb, tid, m, rfl⟩
    · exact .free hnone
    · exact .follows cb tid m
  · rcases section_ordered (howner.rendezvous c) hroom hsection with hnone | ⟨cb, tid, m, rfl⟩
    · exact due_of_taskWrites hnone
    · cases cb <;> rfl

theorem Released.handed {th : ThreadId} {f : CallFrame} {full : Bool} {cb : Waiter} {tid : TaskId}
    (hs : s.Released) (howner : s.SingleOwner)
    (hpc : s.pc th = .calling f full [⟨cb, some m, .read⟩, ⟨.task tid, some m, .write⟩])
    (hguard : s.ReadOutside (.callback th)) (hstep : s.step (.callback th) = some next) :
    next.Released := by
  have hmem : m ∈ s.held (.thread th) := by
    simp [held, hpc, Pc.held, handing]
  have hdropped : m ∈ s.drops (.callback th) ∧
      next.pc = Function.update s.pc th (.calling f full [⟨.task tid, some m, .write⟩]) ∧
      next.store = s.store := by
    cases cb with
    | session frame =>
        simp only [State.step, hpc, invoke, Option.some.injEq] at hstep
        subst hstep
        exact ⟨by simp [drops, hpc], pc_setPc _ _ _, rfl⟩
    | task reader =>
        have hres : s.sched.taskResumable reader = false := by
          by_contra hres
          simp [ReadOutside, hpc, Pc.ReadOutside, taskWrites] at hguard
          exact hres hguard
        simp only [State.step, hpc, invoke, hres, Option.some.injEq] at hstep
        subst hstep
        exact ⟨by simp [drops, hpc, hres], pc_setPc _ _ _, rfl⟩
  obtain ⟨hdrops, hpc', hstore⟩ := hdropped
  have hreleases : ∀ m, s.releases (.callback th) = some m → m ∈ (s.pc th).due := by
    intro m' hm'
    simp [releases, hpc] at hm'
  refine hs.advance howner hstep hpc' hreleases (.last tid m) fun m' hm' => ?_
  cases hm'
  refine .inr ⟨⟨.thread th, hmem⟩, (dropped_step howner hstep hdrops).2, ?_⟩
  rw [hstore, (howner.counted _ m hmem).2]

theorem taskWrites_cons {i : Callback} {rest : List Callback} (h : taskWrites (i :: rest) = []) :
    taskWrites [i] = [] ∧ taskWrites rest = [] := by
  rw [← List.append_eq_nil_iff, ← h]
  exact List.filterMap_append.symm

theorem due_invoke (s : State) (th : ThreadId) (f : CallFrame) (full : Bool) {i : Callback}
    {rest : List Callback} (hi : taskWrites [i] = []) (hrest : taskWrites rest = []) :
    ((s.invoke th f full i rest).pc th).due = none := by
  obtain ⟨cb, message, event⟩ := i
  cases cb with
  | session frame => cases event <;> simp [invoke, due_of_taskWrites hrest]
  | task tid =>
      cases hres : s.sched.taskResumable tid <;> cases event
      case true.read => simp [invoke, hres, Pc.due]
      case true.write =>
        cases message with
        | none => simp [invoke, hres, Pc.due]
        | some m => cases hi
      all_goals simp [invoke, hres, due_of_taskWrites hrest]

theorem Released.callback {th : ThreadId} {f : CallFrame} {full : Bool} {i : Callback}
    {rest : List Callback} (hs : s.Released) (howner : s.SingleOwner)
    (hpc : s.pc th = .calling f full (i :: rest)) (hguard : s.ReadOutside (.callback th))
    (hstep : s.step (.callback th) = some (s.invoke th f full i rest)) :
    (s.invoke th f full i rest).Released := by
  have hordered := hs.ordered th
  have hreleases : ∀ m, s.releases (.callback th) = some m → m ∈ (s.pc th).due := by
    intro m hm
    obtain ⟨th', hth' | hth', hdue⟩ := due_of_releases hm <;> cases hth'
    exact hdue
  rw [hpc] at hordered
  generalize hcalls : i :: rest = calls at hordered
  cases hordered with
  | follows cb tid m =>
      cases hcalls
      exact hs.handed howner hpc hguard hstep
  | last tid m =>
      cases hcalls
      have hmine : m ∈ (s.pc th).due := by
        rw [hpc]
        rfl
      by_cases hres : s.sched.taskResumable tid = true
      · refine hs.advance howner hstep (p := .queueing f full
          ⟨tid, some s.store.msgNew.1⟩ (some m) []) ?_ hreleases rfl ?_
        · simp only [invoke, hres, if_true]
          exact pc_setPc _ _ _
        · intro m' hm'
          cases hm'
          exact .inl ⟨hmine, by simp [releases, hpc, hres]⟩
      · refine hs.quiet howner hstep (p := .calling f full []) ?_ hreleases (.free rfl) rfl
        simp only [invoke, if_neg hres]
        exact pc_setPc _ _ _
  | free h =>
      subst hcalls
      obtain ⟨hnone, hrest⟩ := taskWrites_cons h
      obtain ⟨p, hpc', _, _, hp⟩ := s.invoke_spec th f full i rest
      rcases hp with ⟨tid, m, release, _, rfl⟩ | ⟨rfl, _⟩
      · refine hs.quiet howner hstep hpc' hreleases hrest ?_
        have hself :
            (s.invoke th f full i rest).pc th = .queueing f full ⟨tid, m⟩ release rest := by
          rw [hpc', Function.update_self]
        have hdue := due_invoke s th f full hnone hrest
        rwa [hself] at hdue
      · exact hs.quiet howner hstep hpc' hreleases (.free hrest) (due_of_taskWrites hrest)

theorem Released.queue {th : ThreadId} {f : CallFrame} {full : Bool} {job : Job}
    {release : Option MessageId} {rest : List Callback} (hs : s.Released)
    (howner : s.SingleOwner) (hpc : s.pc th = .queueing f full job release rest)
    (hpc' : next.pc = Function.update s.pc th (.calling f full rest))
    (hstep : s.step (.queue th) = some next) : next.Released := by
  have hrest : taskWrites rest = [] := by
    have hordered := hs.ordered th
    rwa [hpc] at hordered
  refine hs.quiet howner hstep hpc' ?_ (.free hrest) (due_of_taskWrites hrest)
  intro m hm
  simpa [releases, hpc, Pc.due] using hm

theorem Released.luac {s' : State} {th : ThreadId} {f : CallFrame} {c : ChannelId} {writes : Bool}
    (hs : s.Released) (howner : s.SingleOwner) (hpc : s'.pc = s.pc)
    (hstep : s.step (.luac th c writes) = some (s'.luac th f c writes)) :
    (s'.luac th f c writes).Released := by
  have hnothing : ∀ m, s.releases (.luac th c writes) = some m → m ∈ (s.pc th).due :=
    fun m hm => by cases hm
  rcases s'.luac_cases th f c writes with ⟨_, heq⟩ | ⟨_, heq | heq⟩
  · rw [heq] at hstep ⊢
    exact hs.still howner hstep hpc rfl
  · rw [heq] at hstep ⊢
    exact hs.quiet howner hstep (p := .testing f c .read) (by rw [pc_setPc, hpc]) hnothing trivial
      rfl
  · rw [heq] at hstep ⊢
    refine hs.quiet howner hstep (p := .testing f c (.write s'.store.msgNew.1)) ?_ hnothing
      trivial rfl
    rw [pc_setPc, ← hpc]
    rfl

theorem Released.step (hs : s.Released) (howner : s.SingleOwner) (hguard : s.ReadOutside a)
    (hstep : s.step a = some next) : next.Released := by
  have hgo : ∀ {th : ThreadId} {p : Pc}, (∀ th, a ≠ .callback th) → (∀ th, a ≠ .queue th) →
      next.pc = Function.update s.pc th p → p.ReadFirst → p.due = none → next.Released := by
    intro th p hcallback hqueue hpc hordered hdue
    refine hs.quiet howner hstep hpc ?_ hordered hdue
    intro m hm
    obtain ⟨th', ha | ha, _⟩ := due_of_releases hm
    · exact absurd ha (hcallback th')
    · exact absurd ha (hqueue th')
  cases step_cases hstep with
  | newTask | gcTask | queueTask | queueMessage | refuse => exact hs.still howner hstep rfl rfl
  | close c => exact hs.still howner hstep (s.close_spec c).1 rfl
  | luacTask c writes _ _ => exact hs.luac howner rfl hstep
  | luacPlain c writes _ => exact hs.luac howner rfl hstep
  | @run th sid job hpc =>
      obtain ⟨p, hp, hpc', _⟩ := s.taskRunEnter_spec th sid job
      rcases hp with rfl | rfl <;> exact hgo (by simp) (by simp) hpc' trivial rfl
  | testClosed _ _ => exact hgo (by simp) (by simp) (pc_setPc _ _ _) (.free rfl) rfl
  | locked hpc hsection => exact hs.locked howner hguard hpc hsection hstep
  | callback hpc => exact hs.callback howner hpc hguard hstep
  | queue hpc => exact hs.queue howner hpc (pc_setPc _ _ _) hstep
  | @leavePlain th frame full hpc =>
      cases full <;> exact hgo (by simp) (by simp) (pc_setPc _ _ _) trivial rfl
  | _ => exact hgo (by simp) (by simp) (pc_setPc _ _ _) trivial rfl

theorem released_start (size : ChannelId → Int) : (start size).Released where
  ordered _ := trivial
  free _ _ hm := by cases hm
  once _ _ _ hm := by cases hm

/-- A run in which tasks write only where there is no room, and what they write is read outside any
task, destroys no message that is on its way. -/
theorem respects_releaseKept {size : ChannelId → Int} {steps : List Label}
    (hread : Respects State.step ReadOutside (start size) steps) :
    Respects State.step ReleaseKept (start size) steps :=
  hread.mono_of_invariant (I := fun s => s.SingleOwner ∧ s.Released)
    (fun _ a _ hs hguard hstep => ⟨hs.1.step (hs.2.kept a) hstep, hs.2.step hs.1 hguard hstep⟩)
    (fun _ a hs _ => hs.2.kept a) ⟨singleOwner_start size, released_start size⟩

/-- In every run in which tasks write only where there is no room, and what they write is read
outside any task, no message is freed while it is in a channel or in a job. -/
theorem ownershipKept_throughout (size : ChannelId → Int) (steps : List Label)
    (hread : Respects State.step ReadOutside (start size) steps) :
    Throughout State.step OwnershipKept (start size) steps :=
  throughout_of_respects (I := SingleOwner) (fun _ _ _ hs hguard hstep => hs.step hguard hstep)
    (fun _ hs => hs.kept) (singleOwner_start size) (respects_releaseKept hread)

/-- A task waits to write; a program outside any task reads, and the task's callback destroys the
message. -/
theorem ownershipKept_read_outside :
    let steps : List Label := [.newTask 0, .queueTask 1 true, .take 0, .enter 0, .taskRun 0,
      .luac 0 0 true, .test 0, .locked 0, .leave 0, .yielded 0 .yield, .finish 0,
      .luac 1 0 false, .test 1, .locked 1, .callback 1, .callback 1, .queue 1, .leave 1,
      .take 0, .enter 0, .taskRun 0]
    (run State.step (start fun _ => 0) steps).map (fun s => (s.store.records 1).destroys) =
        some 1 ∧
      Throughout State.step OwnershipKept (start fun _ => 0) steps := by
  intro steps
  exact ⟨by decide, ownershipKept_throughout (fun _ => 0) steps (by decide)⟩

/-- A task writes to a channel with room for one message; its own `write` callback frees the
message that is now in the buffer. -/
theorem ownershipKept_fails :
    ¬ ∀ (size : ChannelId → Int) (steps : List Label) (final : State),
      run State.step (start size) steps = some final → final.OwnershipKept := by
  intro hall
  have hrun : ∃ final, run State.step (start fun _ => 1)
      [.newTask 0, .queueTask 1 true, .take 0, .enter 0, .taskRun 0, .luac 0 0 true, .test 0,
        .locked 0, .callback 0, .queue 0] = some final ∧
      (final.channels 0).messages = [1] ∧ (final.store.records 1).refCount = 0 :=
    ⟨_, rfl, rfl, rfl⟩
  obtain ⟨final, hfinal, hbuffer, hcount⟩ := hrun
  have hkept := (hall _ _ final hfinal).buffered 0 1 (by rw [hbuffer]; exact List.mem_cons_self)
  rw [hcount] at hkept
  exact absurd hkept (by decide)

end State

end Casting.Runtime
