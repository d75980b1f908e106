import Casting.Runtime.Transit

/-!
# Messages that nobody destroys

A message that is made is destroyed later, or it is dropped: its last owner forgets it without
`msg_destroy`.  `drops` lists the places in the source where that happens.  In a step a message
that is on its way stays so, or is destroyed or dropped.
-/

namespace Casting.Runtime

open Transition Custody

namespace State

/-- The messages whose owner forgets them in the step. -/
def drops (s : State) : Label → List MessageId
  -- `task_resume` and `session_queue_task` leave a message alone that they cannot queue
  | .queueTask tid withMessage =>
      if withMessage ∧ (s.sched.tasks tid).isNone then [s.store.msgNew.1] else []
  | .refuse _ => [s.store.msgNew.1]
  | .queue th =>
      match s.pc th with
      | .queueing _ _ job _ _ =>
          if (s.sched.tasks job.tid).isNone then job.message.toList else []
      | _ => []
  -- so does `task_run` for a task that is gone or has ended
  | .taskRun th =>
      match s.pc th with
      | .popped _ (some job) =>
          if (s.sched.taskRunEnter job).1 = .resumed then [] else job.message.toList
      | _ => []
  -- `luac_write` does not look at `ERR_CLOSED`
  | .test th =>
      match s.pc th with
      | .testing _ c op => if (s.channels c).status = .channelClosed then op.messages else []
      | _ => []
  -- `channel_read` takes a buffered message and a parked writer, and hands over the former
  | .locked th =>
      match s.pc th with
      | .locking _ c .read =>
          if (s.channels c).messages = [] then []
          else ((s.channels c).writers.head?.map Writer.message).toList
      | _ => []
  | .callback th =>
      match s.pc th with
      | .calling _ _ (⟨.task tid, m, .read⟩ :: _) =>
          if s.sched.taskResumable tid then [] else m.toList
      | .calling _ _ (⟨.task tid, _, .write⟩ :: _) =>
          if s.sched.taskResumable tid then [] else [s.store.msgNew.1]
      -- `session_callback` decodes the message and keeps it
      | .calling _ _ (⟨.session _, m, .read⟩ :: _) => m.toList
      | _ => []
  -- `rel_writer` passes the message to a callback that ignores it
  | .close c =>
      if (s.channels c).status = .channelOpen then (s.channels c).writers.map Writer.message
      else []
  | _ => []

variable {s next : State} {a : Label} {m : MessageId}

/-! ### The message store -/

theorem store_step {P : MessageStore → Prop} (hnew : ∀ st, P st → P st.msgNew.2)
    (hdestroy : ∀ st m, P st → P (st.msgDestroy m)) (hs : P s.store)
    (hstep : s.step a = some next) : P next.store := by
  have hluac : ∀ (s : State) th f c writes, P s.store → P (s.luac th f c writes).store := by
    intro s th f c writes hs
    rcases s.luac_cases th f c writes with ⟨_, heq⟩ | ⟨_, heq | heq⟩
    · rwa [heq]
    · rwa [heq]
    · rw [heq]
      exact hnew _ hs
  cases step_cases hstep with
  | queueMessage | refuse => exact hnew _ hs
  | @run th sid job hpc =>
      obtain ⟨p, _, _, _, _, hstore⟩ := s.taskRunEnter_spec th sid job
      rw [hstore]
      split
      · exact hs
      · exact hdestroy _ _ hs
  | luacTask c writes _ _ => exact hluac s _ _ c writes hs
  | luacPlain c writes _ => exact hluac { s with nextFrame := s.nextFrame + 1 } _ _ c writes hs
  | @callback th f full i rest hpc =>
      obtain ⟨cb, message, event⟩ := i
      cases cb with
      | session frame => cases event <;> exact hs
      | task tid =>
          cases hres : s.sched.taskResumable tid <;> cases event <;> simp only [invoke, hres]
          · exact hs
          · exact hdestroy _ _ (hnew _ hs)
          · exact hs
          · exact hs
          · exact hnew _ hs
          · exact hs
  | queue _ => exact hdestroy _ _ hs
  | close c =>
      rw [(s.close_spec c).2.2.2]
      generalize (channelClose (s.channels c)).2.1 = released
      have hall : ∀ (ms : List MessageId) st, P st →
          P (ms.foldl (fun st m => st.msgDestroy (some m)) st) := by
        intro ms
        induction ms with
        | nil => exact fun st hst => hst
        | cons m ms ih => exact fun st hst => ih _ (hdestroy st (some m) hst)
      exact hall released _ hs
  | _ => exact hs

theorem records_msgNew_self (st : MessageStore) : st.msgNew.2.records st.next = ⟨1, 1, 0⟩ :=
  Function.update_self _ _ _

theorem records_msgNew_of_ne {st : MessageStore} (hne : m ≠ st.next) :
    st.msgNew.2.records m = st.records m :=
  Function.update_of_ne hne _ _

theorem records_msgDestroy_self (st : MessageStore) (m : MessageId) :
    (st.msgDestroy (some m)).records m =
      ⟨(st.records m).refCount - 1, (st.records m).taken, (st.records m).destroys + 1⟩ :=
  Function.update_self _ _ _

theorem records_msgDestroy_of_ne {st : MessageStore} {gone : MessageId} (hne : m ≠ gone) :
    (st.msgDestroy (some gone)).records m = st.records m :=
  Function.update_of_ne hne _ _

/-- Nobody takes references but `msg_new`, and each `msg_destroy` gives one back. -/
def Even (st : MessageStore) : Prop :=
  ∀ m < st.next, (st.records m).taken = 1 ∧
    (st.records m).refCount + (st.records m).destroys = 1

theorem even_msgNew {st : MessageStore} (h : Even st) : Even st.msgNew.2 := by
  intro m hm
  by_cases heq : m = st.next
  · rw [heq, records_msgNew_self]
    exact ⟨rfl, rfl⟩
  · rw [records_msgNew_of_ne heq]
    exact h m (Nat.lt_of_le_of_ne (Nat.lt_succ_iff.mp hm) heq)

theorem even_msgDestroy {st : MessageStore} (m : Option MessageId) (h : Even st) :
    Even (st.msgDestroy m) := by
  cases m with
  | none => exact h
  | some gone =>
      intro m hm
      obtain ⟨htaken, hcount⟩ := h m hm
      by_cases heq : m = gone
      · subst heq
        rw [records_msgDestroy_self]
        exact ⟨htaken, by push_cast; omega⟩
      · rw [records_msgDestroy_of_ne heq]
        exact ⟨htaken, hcount⟩

theorem even_step (hs : Even s.store) (hstep : s.step a = some next) : Even next.store :=
  store_step (fun _ h => even_msgNew h) (fun _ m h => even_msgDestroy m h) hs hstep

theorem destroys_step (hm : m < s.store.next) (hstep : s.step a = some next) :
    (s.store.records m).destroys ≤ (next.store.records m).destroys := by
  have hgrow : m < next.store.next ∧
      (s.store.records m).destroys ≤ (next.store.records m).destroys := by
    refine store_step (P := fun st => m < st.next ∧
      (s.store.records m).destroys ≤ (st.records m).destroys) ?_ ?_ ⟨hm, Nat.le_refl _⟩ hstep
    · intro st ⟨hlt, hle⟩
      refine ⟨Nat.lt_succ_of_lt hlt, ?_⟩
      rwa [records_msgNew_of_ne (Nat.ne_of_lt hlt)]
    · intro st gone ⟨hlt, hle⟩
      refine ⟨by rwa [next_msgDestroy], ?_⟩
      cases gone with
      | none => exact hle
      | some gone =>
          by_cases heq : m = gone
          · subst heq
            rw [records_msgDestroy_self]
            exact Nat.le_succ_of_le hle
          · rwa [records_msgDestroy_of_ne heq]
  exact hgrow.2

/-! ### Where a message goes -/

/-- The message is on its way after the step, has been destroyed, or was dropped in the step. -/
def Placed (s : State) (a : Label) (next : State) (m : MessageId) : Prop :=
  (∃ p, m ∈ next.held p) ∨ 1 ≤ (next.store.records m).destroys ∨ m ∈ s.drops a

theorem placed_of_pc (th : ThreadId) (hm : m ∈ (next.pc th).held) : Placed s a next m :=
  .inl ⟨.thread th, hm⟩

theorem placed_of_jobs (sid : SessionId) (hm : m ∈ (next.sched.sessions sid).messages) :
    Placed s a next m :=
  .inl ⟨.jobs sid, hm⟩

theorem placed_of_channel {c : ChannelId}
    (hm : m ∈ (next.channels c).messages ++ (next.channels c).writers.map Writer.message) :
    Placed s a next m := by
  rcases List.mem_append.mp hm with hbuffer | hwriters
  · exact .inl ⟨.buffer c, hbuffer⟩
  · exact .inl ⟨.writers c, hwriters⟩

theorem placed_of_held {place : Place} (hm : m ∈ s.held place)
    (hthreads : ∀ th, ∀ m ∈ (s.pc th).held, Placed s a next m)
    (hchannels : ∀ c, ∀ m ∈ (s.channels c).messages ++ (s.channels c).writers.map Writer.message,
      Placed s a next m)
    (hsessions : ∀ sid, ∀ m ∈ (s.sched.sessions sid).messages, Placed s a next m) :
    Placed s a next m := by
  cases place with
  | buffer c => exact hchannels c m (List.mem_append_left _ hm)
  | writers c => exact hchannels c m (List.mem_append_right _ hm)
  | jobs sid => exact hsessions sid m hm
  | thread th => exact hthreads th m hm

theorem placed_threads {th : ThreadId} {p : Pc} (hpc : next.pc = Function.update s.pc th p)
    (hp : ∀ m ∈ (s.pc th).held, Placed s a next m) (other : ThreadId) :
    ∀ m ∈ (s.pc other).held, Placed s a next m := by
  intro m hm
  by_cases hother : other = th
  · subst hother
    exact hp m hm
  · apply placed_of_pc other
    rwa [hpc, Function.update_of_ne hother]

theorem placed_channels (hchannels : next.channels = s.channels) (c : ChannelId) :
    ∀ m ∈ (s.channels c).messages ++ (s.channels c).writers.map Writer.message,
      Placed s a next m := by
  rw [← hchannels]
  exact fun m hm => placed_of_channel hm

theorem placed_sessions (hsessions : ∀ sid, (s.sched.sessions sid).messages ⊆
    (next.sched.sessions sid).messages) (sid : SessionId) :
    ∀ m ∈ (s.sched.sessions sid).messages, Placed s a next m :=
  fun _ hm => placed_of_jobs sid (hsessions sid hm)

theorem placed_of_move {th : ThreadId} {p : Pc} {place : Place} (hm : m ∈ s.held place)
    (hpc : next.pc = Function.update s.pc th p)
    (hp : ∀ m ∈ (s.pc th).held, Placed s a next m) (hchannels : next.channels = s.channels)
    (hsessions : ∀ sid, (s.sched.sessions sid).messages ⊆ (next.sched.sessions sid).messages) :
    Placed s a next m :=
  placed_of_held hm (placed_threads hpc hp) (placed_channels hchannels) (placed_sessions hsessions)

theorem messages_queueTask (sc : Scheduler) (job : Job) :
    (∀ sid, (sc.sessions sid).messages ⊆ ((sc.sessionQueueTask job).sessions sid).messages) ∧
      (sc.tasks job.tid ≠ none → ∀ m ∈ job.message,
        ∃ sid, m ∈ ((sc.sessionQueueTask job).sessions sid).messages) := by
  rcases sc.sessionQueueTask_cases job with ⟨hnone, heq⟩ | ⟨t, htask, _, _, hsessions, _⟩
  · rw [heq]
    exact ⟨fun _ => List.Subset.refl _, fun hsome => absurd hnone hsome⟩
  · constructor
    · intro sid
      rw [hsessions]
      by_cases hsid : sid = t.sid
      · subst hsid
        rw [Function.update_self]
        simp [Session.messages]
      · rw [Function.update_of_ne hsid]
        exact List.Subset.refl _
    · intro _ m hm
      refine ⟨t.sid, ?_⟩
      rw [hsessions, Function.update_self]
      simp [Session.messages, Option.mem_def.mp hm]

theorem placed_luac {s' : State} {th : ThreadId} {f : CallFrame} {c : ChannelId} {writes : Bool}
    {place : Place} (hm : m ∈ s.held place) (hnothing : (s.pc th).held = [])
    (hpc : s'.pc = s.pc) (hchannels : s'.channels = s.channels) (hsched : s'.sched = s.sched) :
    Placed s a (s'.luac th f c writes) m := by
  have hempty : ∀ m ∈ (s.pc th).held, Placed s a (s'.luac th f c writes) m := by
    rw [hnothing]
    exact List.forall_mem_nil _
  have hsessions : ∀ s'' : State, s''.sched = s'.sched → ∀ sid,
      (s.sched.sessions sid).messages ⊆ (s''.sched.sessions sid).messages := by
    intro s'' heq sid
    rw [heq, hsched]
    exact List.Subset.refl _
  rcases s'.luac_cases th f c writes with ⟨_, heq⟩ | ⟨_, heq | heq⟩
  · refine .inl ⟨place, ?_⟩
    rw [heq]
    cases place <;> simpa only [held, hpc, hchannels, hsched] using hm
  · refine placed_of_move hm (p := .testing f c .read) ?_ hempty ?_ (hsessions _ ?_)
    all_goals rw [heq]
    · rw [pc_setPc, hpc]
    · exact hchannels
    · rfl
  · refine placed_of_move hm (p := .testing f c (.write s'.store.msgNew.1)) ?_ hempty ?_
      (hsessions _ ?_)
    all_goals rw [heq]
    · rw [pc_setPc, ← hpc]
      rfl
    · exact hchannels
    · rfl

theorem readSection_cases {ch ch' : Channel Waiter MessageId} {w : Waiter} {full : Bool}
    {calls : List Callback} (h : lockedSection ch w .read = some (ch', full, calls)) :
    (ch.messages = [] ∧ ch.writers = [] ∧ handing calls = [] ∧ ch'.messages = [] ∧
      ch'.writers = []) ∨
    (∃ first rest, ch.messages = first :: rest ∧ handing calls = [first] ∧ ch'.messages = rest ∧
      ch'.writers = ch.writers.tail) ∨
    ∃ first rest, ch.messages = [] ∧ ch.writers = first :: rest ∧
      handing calls = [first.message] ∧ ch'.messages = [] ∧ ch'.writers = rest := by
  simp only [lockedSection] at h
  rcases channelReadLocked_cases ch w with ⟨hmessages, hw, heq⟩ | ⟨hne, heq⟩
  · rw [heq] at h
    simp [channelReadCallbacks] at h
    obtain ⟨rfl, _, rfl⟩ := h
    exact .inl ⟨hmessages, hw, rfl, hmessages, hw⟩
  · rw [heq] at h
    simp only [channelReadCallbacks, if_true, Option.map_map, Option.map_eq_some_iff,
      Function.comp_apply, Prod.mk.injEq] at h
    obtain ⟨got, hgot, rfl, _, rfl⟩ := h
    have hhanding : handing (⟨w, some got, .read⟩ ::
        wroteInvocation ch.writers.head? fun _ => got) = [got] := by
      cases ch.writers.head? <;> simp [handing, wroteInvocation]
    rw [hhanding]
    right
    cases hmessages : ch.messages with
    | cons first rest =>
        rw [hmessages] at hgot
        cases hgot
        exact .inl ⟨got, rest, rfl, rfl, rfl, rfl⟩
    | nil =>
        cases hw : ch.writers with
        | nil => exact absurd hne (by simp [hmessages, hw])
        | cons first rest =>
            simp [hmessages, hw] at hgot
            exact .inr ⟨first, rest, rfl, rfl, by rw [hgot], rfl, rfl⟩

/-- What a locked section takes it hands over or leaves in the channel, but for the writer that a
read overtakes. -/
theorem section_keeps {ch ch' : Channel Waiter MessageId} {w : Waiter} {op : Operation}
    {full : Bool} {calls : List Callback} (hc : Rendezvous ch)
    (h : lockedSection ch w op = some (ch', full, calls)) :
    ∀ m ∈ op.messages ++ (ch.messages ++ ch.writers.map Writer.message),
      m ∈ handing calls ++ (ch'.messages ++ ch'.writers.map Writer.message) ∨
        op = .read ∧ ch.messages ≠ [] ∧ m ∈ (ch.writers.head?.map Writer.message).toList := by
  intro m hm
  cases op with
  | write message =>
      left
      simp only [lockedSection] at h
      rcases channelWriteLocked_cases hc message w with
        ⟨hr, hroom, heq⟩ | ⟨hr, hfull, heq⟩ | ⟨r, rest, hr, hmessages, hw, hpos, heq⟩ |
        ⟨r, rest, hr, hmessages, hw, hzero, heq⟩
      all_goals
        rw [heq] at h
        simp [channelWriteCallbacks, wroteInvocation] at h
        obtain ⟨rfl, _, rfl⟩ := h
      · simp [Operation.messages] at hm
        simp [handing]
        grind
      · simp [Operation.messages] at hm
        simp [handing]
        grind
      · simpa [Operation.messages, hmessages, hw, handing] using hm
      · simpa [Operation.messages, hmessages, hw, handing] using hm
  | read =>
      change m ∈ ch.messages ++ ch.writers.map Writer.message at hm
      rcases readSection_cases h with ⟨hmessages, hw, _⟩ |
        ⟨first, rest, hmessages, hhanding, hmessages', hw'⟩ |
        ⟨first, rest, hmessages, hw, hhanding, hmessages', hw'⟩
      · simp [hmessages, hw] at hm
      · rw [hhanding, hmessages', hw']
        rw [hmessages] at hm ⊢
        cases hw : ch.writers with
        | nil =>
            rw [hw] at hm
            exact .inl hm
        | cons overtaken others =>
            simp [hw] at hm
            simp
            grind
      · rw [hhanding, hmessages', hw']
        rw [hmessages, hw] at hm
        exact .inl hm

theorem placed_enter {th : ThreadId} {sid : SessionId} {sched : Scheduler} {job : Option Job}
    {place : Place} (hm : m ∈ s.held place) (hpc : s.pc th = .entered sid)
    (henter : s.sched.sessionRunEnter sid = some (sched, job)) :
    Placed s a ({ s with sched := sched }.setPc th (.popped sid job)) m := by
  obtain ⟨_, hjob, rfl⟩ := Scheduler.sessionRunEnter_eq_some.mp henter
  refine placed_of_held hm (placed_threads (pc_setPc _ _ _) ?_) (placed_channels rfl) ?_
  · rw [hpc]
    exact List.forall_mem_nil _
  · intro other m hm
    by_cases hother : other = sid
    · subst hother
      obtain ⟨j, hj, hmessage⟩ := List.mem_filterMap.mp hm
      have hpop : job = some j ∨ j ∈ (queuePop (s.sched.sessions other).tasks).2 := by
        rw [hjob]
        cases htasks : (s.sched.sessions other).tasks with
        | nil => simp [htasks] at hj
        | cons first rest => simpa [htasks, eq_comm] using hj
      rcases hpop with rfl | hrest
      · apply placed_of_pc th
        rw [pc_setPc, Function.update_self]
        simp [Pc.held, hmessage]
      · apply placed_of_jobs other
        simp only [sched_setPc, Scheduler.setSession, Function.update_self]
        exact List.mem_filterMap.mpr ⟨j, hrest, hmessage⟩
    · apply placed_of_jobs other
      simpa only [sched_setPc, Scheduler.setSession, Function.update_of_ne hother] using hm

theorem placed_run {th : ThreadId} {sid : SessionId} {job : Job} {place : Place}
    (hm : m ∈ s.held place) (hpc : s.pc th = .popped sid (some job)) :
    Placed s (.taskRun th) (s.taskRunEnter th sid job) m := by
  obtain ⟨p, _, hpc', hchannels, hsched, _⟩ := s.taskRunEnter_spec th sid job
  have hsame : ∀ r, s.sched.taskRunEnter job = r → r.2.sessions = s.sched.sessions :=
    fun r hr => (Scheduler.sessions_taskRunEnter hr).1
  have hsessions : ∀ other, (s.sched.sessions other).messages ⊆
      ((s.taskRunEnter th sid job).sched.sessions other).messages := by
    intro other
    rw [hsched, hsame _ rfl]
    exact List.Subset.refl _
  refine placed_of_move hm hpc' ?_ hchannels hsessions
  intro m hm
  have hmessage : job.message = some m := by simpa [hpc, Pc.held] using hm
  by_cases hentry : (s.sched.taskRunEnter job).1 = .resumed
  · right
    left
    cases hrun : s.sched.taskRunEnter job with
    | mk entry sched =>
        rw [hrun] at hentry
        cases hentry
        simp [taskRunEnter, hrun, hmessage, records_msgDestroy_self]
  · right
    right
    simp [drops, hpc, hentry, hmessage]

theorem placed_locked {th : ThreadId} {f : CallFrame} {c : ChannelId} {op : Operation}
    {ch : Channel Waiter MessageId} {full : Bool} {calls : List Callback} {place : Place}
    (hm : m ∈ s.held place) (hrendezvous : Rendezvous (s.channels c))
    (hpc : s.pc th = .locking f c op)
    (hsection : lockedSection (s.channels c) f.waiter op = some (ch, full, calls)) :
    Placed s (.locked th) ((s.setChannel c ch).setPc th (.calling f full calls)) m := by
  have hkeeps : ∀ m ∈ op.messages ++
      ((s.channels c).messages ++ (s.channels c).writers.map Writer.message),
      Placed s (.locked th) ((s.setChannel c ch).setPc th (.calling f full calls)) m := by
    intro m hm
    rcases section_keeps hrendezvous hsection m hm with hkept | ⟨rfl, hne, hovertaken⟩
    · rcases List.mem_append.mp hkept with hcalls | hchannel
      · apply placed_of_pc th
        rwa [pc_setPc, Function.update_self]
      · apply placed_of_channel (c := c)
        rwa [channels_setPc, channels_setChannel, Function.update_self]
    · right
      right
      simpa only [drops, hpc, if_neg hne] using hovertaken
  refine placed_of_held hm (placed_threads (pc_setPc _ _ _) ?_) ?_ ?_
  · rw [hpc]
    exact fun m hm => hkeeps m (List.mem_append_left _ hm)
  · intro other m hm
    by_cases hother : other = c
    · subst hother
      exact hkeeps m (List.mem_append_right _ hm)
    · apply placed_of_channel (c := other)
      rwa [channels_setPc, channels_setChannel, Function.update_of_ne hother]
  · exact placed_sessions fun _ => List.Subset.refl _

theorem mem_handing_cons {i : Callback} {rest : List Callback} :
    m ∈ handing (i :: rest) ↔ (i.event = .read ∧ i.message = some m) ∨ m ∈ handing rest := by
  simp only [handing, List.mem_filterMap, List.mem_cons, exists_eq_or_imp]
  rw [ite_eq_iff]
  simp

theorem placed_invoke {th : ThreadId} {f : CallFrame} {full : Bool} {i : Callback}
    {rest : List Callback} {place : Place} (hm : m ∈ s.held place)
    (hpc : s.pc th = .calling f full (i :: rest)) :
    Placed s (.callback th) (s.invoke th f full i rest) m := by
  obtain ⟨p, hpc', hchannels, hsched, hp⟩ := s.invoke_spec th f full i rest
  have hrest : ∀ m ∈ handing rest, m ∈ p.held := by
    intro m hm
    rcases hp with ⟨tid, message, release, _, rfl⟩ | ⟨rfl, _⟩
    · exact List.mem_append_right _ hm
    · exact hm
  refine placed_of_move hm hpc' ?_ hchannels ?_
  · rw [hpc]
    intro m hm
    rcases mem_handing_cons.mp hm with ⟨hevent, hmessage⟩ | hm
    · obtain ⟨cb, message, event⟩ := i
      subst hevent hmessage
      cases cb with
      | session frame => exact .inr (.inr (by simp [drops, hpc]))
      | task tid =>
          by_cases hres : s.sched.taskResumable tid = true
          · apply placed_of_pc th
            simp [invoke, hres, Pc.held]
          · exact .inr (.inr (by simp [drops, hpc, hres]))
    · apply placed_of_pc th
      rw [hpc', Function.update_self]
      exact hrest m hm
  · intro sid
    rw [hsched]
    exact List.Subset.refl _

theorem placed_queue {th : ThreadId} {f : CallFrame} {full : Bool} {job : Job}
    {release : Option MessageId} {rest : List Callback} {place : Place} (hm : m ∈ s.held place)
    (hpc : s.pc th = .queueing f full job release rest) :
    Placed s (.queue th) ({ s with
      sched := s.sched.sessionQueueTask job
      store := s.store.msgDestroy release }.setPc th (.calling f full rest)) m := by
  obtain ⟨hkept, hqueued⟩ := messages_queueTask s.sched job
  refine placed_of_move hm (pc_setPc _ _ _) ?_ rfl hkept
  rw [hpc]
  intro m hm
  rcases List.mem_append.mp hm with hmessage | hrest
  · by_cases htask : s.sched.tasks job.tid = none
    · right
      right
      simpa [drops, hpc, htask] using hmessage
    · obtain ⟨sid, hsid⟩ := hqueued htask m (by simpa using hmessage)
      exact placed_of_jobs sid hsid
  · apply placed_of_pc th
    rwa [pc_setPc, Function.update_self]

theorem placed_close (hs : s.SingleOwner) {place : Place} (hm : m ∈ s.held place)
    (c : ChannelId) : Placed s (.close c) (s.close c) m := by
  obtain ⟨hpc, hchannels, hsched, hstore⟩ := s.close_spec c
  refine placed_of_held hm ?_ ?_ (placed_sessions fun sid => by rw [hsched]; exact fun _ h => h)
  · intro th m hm
    apply placed_of_pc th
    rwa [hpc]
  · intro other m hm
    by_cases hother : other = c
    · subst hother
      by_cases hopen : (s.channels other).status = .channelOpen
      · rcases List.mem_append.mp hm with hbuffer | hwriters
        · right
          left
          have hreleased : (channelClose (s.channels other)).2.1 = (s.channels other).messages := by
            simp [channelClose, hopen, queueClear]
          have hcleared := StoreStep.clear (hs.apart.nodup (.buffer other))
            fun m hm => (hs.counted (.buffer other) m hm).1
          rw [hstore, hreleased]
          exact le_of_le_of_eq (Nat.le_add_left 1 _) (hcleared.destroyed m hbuffer).2.2.symm
        · right
          right
          rwa [drops, if_pos hopen]
      · apply placed_of_channel (c := other)
        rw [hchannels, Function.update_self, channelClose, if_neg hopen]
        exact hm
    · apply placed_of_channel (c := other)
      rwa [hchannels, Function.update_of_ne hother]

/-- What is on its way stays so in a step, or is destroyed or dropped. -/
theorem placed_step (hs : s.SingleOwner) (hstep : s.step a = some next) {place : Place}
    (hm : m ∈ s.held place) : Placed s a next m := by
  have hsame : next.pc = s.pc → next.channels = s.channels →
      (∀ sid, (s.sched.sessions sid).messages ⊆ (next.sched.sessions sid).messages) →
        Placed s a next m := by
    intro hpc hchannels hsessions
    refine placed_of_held hm ?_ (placed_channels hchannels) (placed_sessions hsessions)
    intro th m hm
    apply placed_of_pc th
    rwa [hpc]
  -- a thread goes on that has no message
  have hgo : ∀ {th : ThreadId} {p : Pc}, (s.pc th).held = [] →
      next.pc = Function.update s.pc th p → next.channels = s.channels →
      (∀ sid, (s.sched.sessions sid).messages ⊆ (next.sched.sessions sid).messages) →
        Placed s a next m := by
    intro th p hnothing hpc hchannels hsessions
    refine placed_of_move hm hpc ?_ hchannels hsessions
    rw [hnothing]
    exact List.forall_mem_nil _
  have hsessions : ∀ {sched : Scheduler}, sched.sessions = s.sched.sessions →
      ∀ sid, (s.sched.sessions sid).messages ⊆ (sched.sessions sid).messages := by
    intro sched heq sid
    rw [heq]
    exact List.Subset.refl _
  cases step_cases hstep with
  | newTask sid => exact .inl ⟨place, hm⟩
  | gcTask tid => exact hsame rfl rfl (hsessions (s.sched.sessions_taskFree tid).1)
  | queueTask tid => exact hsame rfl rfl (messages_queueTask s.sched _).1
  | queueMessage tid => exact hsame rfl rfl (messages_queueTask s.sched _).1
  | refuse _ => exact .inl ⟨place, hm⟩
  | take hpc _ | enterBusy hpc _ | runNone hpc | leaveTask hpc | wake hpc =>
      exact hgo (by rw [hpc]; rfl) (pc_setPc _ _ _) rfl fun _ => List.Subset.refl _
  | enter hpc henter => exact placed_enter hm hpc henter
  | run hpc => exact placed_run hm hpc
  | luacTask c writes hpc _ => exact placed_luac hm (by rw [hpc]; rfl) rfl rfl rfl
  | luacPlain c writes hpc => exact placed_luac hm (by rw [hpc]; rfl) rfl rfl rfl
  | testClosed hpc hclosed =>
      refine placed_of_move hm (pc_setPc _ _ _) ?_ rfl fun _ => List.Subset.refl _
      rw [hpc]
      intro m hm
      right
      right
      simp only [drops, hpc, if_pos hclosed]
      exact hm
  | @test th f c op hpc _ =>
      refine placed_of_move hm (pc_setPc _ _ _) ?_ rfl fun _ => List.Subset.refl _
      rw [hpc]
      intro m hm
      apply placed_of_pc th
      rwa [pc_setPc, Function.update_self]
  | @locked _ _ c _ _ _ _ hpc hsection => exact placed_locked hm (hs.rendezvous c) hpc hsection
  | callback hpc => exact placed_invoke hm hpc
  | queue hpc => exact placed_queue hm hpc
  | @leavePlain th frame full hpc =>
      exact hgo (by rw [hpc]; rfl) (pc_setPc _ _ _) rfl fun _ => List.Subset.refl _
  | @yielded th sid tid current rc hpc _ =>
      exact hgo (by rw [hpc]; rfl) (pc_setPc _ _ _) rfl
        (hsessions (s.sched.sessions_taskRunLeave tid rc true).1)
  | @ended th sid tid rc hpc =>
      exact hgo (by rw [hpc]; rfl) (pc_setPc _ _ _) rfl
        (hsessions (s.sched.sessions_taskRunLeave tid rc false).1)
  | @finish th sid hpc =>
      refine hgo (by rw [hpc]; rfl) (pc_setPc _ _ _) rfl fun other => ?_
      simp only [sched_setPc, Session.messages, (s.sched.sessionRunLeave_session sid other).1]
      exact List.Subset.refl _
  | close c => exact placed_close hs hm c

theorem placed_new (hstep : s.step a = some next) (hnew : s.store.next < next.store.next) :
    Placed s a next s.store.next := by
  have hmade := next_step hstep
  cases a with
  | luac th c writes =>
      by_cases hwrites : writes = true ∧ (s.channels c).status ≠ .channelClosed
      · obtain ⟨rfl, hopen⟩ := hwrites
        apply placed_of_pc th
        simp only [step] at hstep
        split at hstep
        all_goals
          cases hstep
        · simp [luac, hopen, Pc.held, Operation.messages, MessageStore.msgNew]
        · simp [luac, hopen, Pc.held, Operation.messages, MessageStore.msgNew]
      · rw [makes, if_neg hwrites] at hmade
        exact absurd hmade (Nat.ne_of_gt hnew)
  | queueTask tid withMessage =>
      cases withMessage with
      | false => exact absurd hmade (Nat.ne_of_gt hnew)
      | true =>
          cases hstep
          by_cases htask : s.sched.tasks tid = none
          · right
            right
            simp [drops, htask, MessageStore.msgNew]
          · obtain ⟨sid, hsid⟩ := (messages_queueTask s.sched ⟨tid, some s.store.msgNew.1⟩).2 htask
              s.store.msgNew.1 rfl
            exact placed_of_jobs sid hsid
  | refuse tid => exact .inr (.inr (List.mem_singleton.mpr rfl))
  | callback th =>
      simp only [step] at hstep
      split at hstep
      · rename_i f full i rest hpc
        cases hstep
        obtain ⟨cb, message, event⟩ := i
        cases cb with
        | session frame => exact absurd hmade (by simp [makes, hpc]; exact Nat.ne_of_gt hnew)
        | task tid =>
            cases event with
            | write =>
                by_cases hres : s.sched.taskResumable tid = true
                · apply placed_of_pc th
                  simp [invoke, hres, Pc.held, MessageStore.msgNew]
                · right
                  right
                  simp [drops, hpc, hres, MessageStore.msgNew]
            | _ => exact absurd hmade (by simp [makes, hpc]; exact Nat.ne_of_gt hnew)
      · cases hstep
  | _ => exact absurd hmade (Nat.ne_of_gt hnew)

/-! ### Dropped messages -/

theorem gone_of_thread (hs : s.SingleOwner) (th : ThreadId) {p : Pc}
    (hm : m ∈ (s.pc th).held) (hpc : next.pc = Function.update s.pc th p) (hp : m ∉ p.held)
    (hchannels : next.channels = s.channels)
    (hsessions : ∀ sid, (next.sched.sessions sid).messages = (s.sched.sessions sid).messages)
    (place : Place) : m ∉ next.held place := by
  intro hheld
  by_cases hplace : place = .thread th
  · subst hplace
    simp only [held, hpc, Function.update_self] at hheld
    exact hp hheld
  · rw [held_of_pc hpc hchannels hsessions place (by simpa using hplace)] at hheld
    exact hplace (hs.apart.apart place (.thread th) m hheld hm)

theorem gone_of_new (hs : s.SingleOwner) (hsub : ∀ place, next.held place ⊆ s.held place)
    (place : Place) : s.store.next ∉ next.held place := by
  intro hheld
  exact absurd (hs.counted place _ (hsub place hheld)).1 (Nat.lt_irrefl _)

theorem gone_of_run (hs : s.SingleOwner) {th : ThreadId} {sid : SessionId} {job : Job}
    (hpc : s.pc th = .popped sid (some job)) (hm : m ∈ job.message) (place : Place) :
    m ∉ (s.taskRunEnter th sid job).held place := by
  obtain ⟨p, hp, hpc', hchannels, hsched, _⟩ := s.taskRunEnter_spec th sid job
  have hsame : ∀ r, s.sched.taskRunEnter job = r → r.2.sessions = s.sched.sessions :=
    fun r hr => (Scheduler.sessions_taskRunEnter hr).1
  refine gone_of_thread hs th ?_ hpc' ?_ hchannels (fun sid => ?_) place
  · rw [hpc]
    simpa [Pc.held] using hm
  · rcases hp with rfl | rfl <;> exact List.not_mem_nil
  · rw [hsched, hsame _ rfl]

theorem gone_of_locked (hs : s.SingleOwner) {th : ThreadId} {f : CallFrame} {c : ChannelId}
    {ch : Channel Waiter MessageId} {full : Bool} {calls : List Callback}
    (hpc : s.pc th = .locking f c .read)
    (hsection : lockedSection (s.channels c) f.waiter .read = some (ch, full, calls))
    (hne : (s.channels c).messages ≠ [])
    (hm : m ∈ ((s.channels c).writers.head?.map Writer.message).toList) (place : Place) :
    m ∉ ((s.setChannel c ch).setPc th (.calling f full calls)).held place := by
  have hparked : m ∈ s.held (.writers c) := by
    cases hwriters : (s.channels c).writers with
    | nil => simp [hwriters] at hm
    | cons first rest =>
        rw [hwriters] at hm
        simp only [held, hwriters, List.map_cons]
        rw [show m = first.message by simpa using hm]
        exact List.mem_cons_self
  have hbuffered : m ∉ (s.channels c).messages := fun hbuffer => by
    have hplace := hs.apart.apart (.buffer c) (.writers c) m hbuffer hparked
    cases hplace
  have hnodup := hs.apart.nodup (.writers c)
  -- the buffered message is handed over, the rest of both queues stays
  have hsplit : m ∉ handing calls ∧ m ∉ ch.messages ∧ m ∉ ch.writers.map Writer.message := by
    rcases readSection_cases hsection with ⟨hmessages, _⟩ |
      ⟨first, rest, hmessages, hhanding, hmessages', hw'⟩ | ⟨first, rest, hmessages, _⟩
    · exact absurd hmessages hne
    · rw [hhanding, hmessages', hw']
      rw [hmessages] at hbuffered
      refine ⟨fun hfirst => hbuffered (List.mem_cons.mpr (.inl (List.mem_singleton.mp hfirst))),
        fun hrest => hbuffered (List.mem_cons_of_mem first hrest), fun htail => ?_⟩
      cases hwriters : (s.channels c).writers with
      | nil => simp [hwriters] at hm
      | cons overtaken others =>
          simp only [held, hwriters, List.map_cons, List.nodup_cons] at hnodup
          rw [hwriters] at hm htail
          rw [show m = overtaken.message by simpa using hm] at htail
          exact hnodup.1 htail
    · exact absurd hmessages hne
  intro hheld
  cases place with
  | buffer other =>
      by_cases hother : other = c
      · subst hother
        simp only [held, channels_setPc, channels_setChannel, Function.update_self] at hheld
        exact hsplit.2.1 hheld
      · simp only [held, channels_setPc, channels_setChannel, Function.update_of_ne hother] at hheld
        have hplace := hs.apart.apart (.buffer other) (.writers c) m hheld hparked
        cases hplace
  | writers other =>
      by_cases hother : other = c
      · subst hother
        simp only [held, channels_setPc, channels_setChannel, Function.update_self] at hheld
        exact hsplit.2.2 hheld
      · simp only [held, channels_setPc, channels_setChannel, Function.update_of_ne hother] at hheld
        have hplace := hs.apart.apart (.writers other) (.writers c) m hheld hparked
        cases hplace
        exact hother rfl
  | jobs sid =>
      have hplace := hs.apart.apart (.jobs sid) (.writers c) m hheld hparked
      cases hplace
  | thread other =>
      by_cases hother : other = th
      · subst hother
        simp only [held, pc_setPc, Function.update_self] at hheld
        exact hsplit.1 hheld
      · simp only [held, pc_setPc, Function.update_of_ne hother] at hheld
        have hplace := hs.apart.apart (.thread other) (.writers c) m hheld hparked
        cases hplace

theorem gone_of_close (hs : s.SingleOwner) {c : ChannelId}
    (hopen : (s.channels c).status = .channelOpen)
    (hm : m ∈ (s.channels c).writers.map Writer.message) (place : Place) :
    m ∉ (s.close c).held place := by
  obtain ⟨hpc, hchannels, hsched, _⟩ := s.close_spec c
  have hparked : m ∈ s.held (.writers c) := hm
  have hempty : (channelClose (s.channels c)).1.messages = [] ∧
      (channelClose (s.channels c)).1.writers = [] := by
    simp [channelClose, hopen, queueClear]
  intro hheld
  by_cases hplace : place = .writers c
  · subst hplace
    simp [held, hchannels, hempty.2] at hheld
  · refine hplace (hs.apart.apart place (.writers c) m ?_ hparked)
    cases place with
    | buffer other | writers other =>
        by_cases hother : other = c
        · subst hother
          first
            | exact absurd rfl hplace
            | simp [held, hchannels, hempty.1] at hheld
        · simpa only [held, hchannels, Function.update_of_ne hother] using hheld
    | jobs sid => simpa only [held, hsched] using hheld
    | thread th => simpa only [held, hpc] using hheld

theorem gone_of_callback (hs : s.SingleOwner) {th : ThreadId} {f : CallFrame} {full : Bool}
    {cb : Waiter} {rest : List Callback}
    (hpc : s.pc th = .calling f full (⟨cb, some m, .read⟩ :: rest))
    (hpc' : next.pc = Function.update s.pc th (.calling f full rest))
    (hchannels : next.channels = s.channels)
    (hsessions : ∀ sid, (next.sched.sessions sid).messages = (s.sched.sessions sid).messages) :
    m ∈ s.held (.thread th) ∧ ∀ place, m ∉ next.held place := by
  have hthread : s.held (.thread th) = m :: handing rest := by
    simp [held, hpc, Pc.held, handing]
  have hmem : m ∈ s.held (.thread th) := by
    rw [hthread]
    exact List.mem_cons_self
  have hnodup := hs.apart.nodup (.thread th)
  rw [hthread] at hnodup
  exact ⟨hmem, gone_of_thread hs th hmem hpc' (List.nodup_cons.mp hnodup).1 hchannels hsessions⟩

theorem dropped_step (hs : s.SingleOwner) (hstep : s.step a = some next) (hm : m ∈ s.drops a) :
    m < next.store.next ∧ ∀ place, m ∉ next.held place := by
  have hle : s.store.next ≤ next.store.next := by
    rw [next_step hstep]
    exact Nat.le_add_right _ _
  have hold : ∀ place, m ∈ s.held place → m < next.store.next := fun place hplace =>
    Nat.lt_of_lt_of_le (hs.counted place m hplace).1 hle
  cases a with
  | queueTask tid withMessage =>
      simp only [drops] at hm
      split at hm
      · rename_i hnew
        obtain ⟨rfl, htask⟩ := hnew
        cases List.mem_singleton.mp hm
        cases hstep
        have hnone : s.sched.tasks tid = none := by simpa using htask
        refine ⟨Nat.lt_succ_self _, gone_of_new hs fun place => ?_⟩
        cases place with
        | jobs sid => simp [held, Scheduler.sessionQueueTask, hnone]
        | _ => exact List.Subset.refl _
      · cases hm
  | refuse tid =>
      cases List.mem_singleton.mp hm
      simp only [step] at hstep
      split at hstep <;> cases hstep
      exact ⟨Nat.lt_succ_self _, gone_of_new hs fun _ => List.Subset.refl _⟩
  | queue th =>
      simp only [drops] at hm
      split at hm
      · rename_i f full job release rest hpc
        split at hm
        · rename_i htask
          simp only [step, hpc, Option.some.injEq] at hstep
          have hnone : s.sched.tasks job.tid = none := by simpa using htask
          have hthread : s.held (.thread th) = job.message.toList ++ handing rest := by
            simp [held, hpc, Pc.held]
          have hmem : m ∈ s.held (.thread th) := by
            rw [hthread]
            exact List.mem_append_left _ hm
          have hnodup := hs.apart.nodup (.thread th)
          rw [hthread] at hnodup
          refine ⟨hold _ hmem, ?_⟩
          subst hstep
          refine gone_of_thread hs th hmem (pc_setPc _ _ _) ?_ rfl fun sid => ?_
          · exact fun hrest => (List.nodup_append.mp hnodup).2.2 m hm m hrest rfl
          · simp [Scheduler.sessionQueueTask, hnone]
        · cases hm
      · cases hm
  | taskRun th =>
      simp only [drops] at hm
      split at hm
      · rename_i sid job hpc
        split at hm
        · cases hm
        · simp only [step, hpc, Option.some.injEq] at hstep
          have hmessage : m ∈ job.message := by simpa using hm
          have hmem : m ∈ s.held (.thread th) := by
            simpa [held, hpc, Pc.held] using hmessage
          refine ⟨hold _ hmem, ?_⟩
          subst hstep
          exact gone_of_run hs hpc hmessage
      · cases hm
  | test th =>
      simp only [drops] at hm
      split at hm
      · rename_i f c op hpc
        split at hm
        · rename_i hclosed
          simp only [step, hpc, if_pos hclosed, Option.some.injEq] at hstep
          have hmem : m ∈ (s.pc th).held := by
            rw [hpc]
            exact hm
          refine ⟨hold (.thread th) hmem, ?_⟩
          subst hstep
          exact gone_of_thread hs th hmem (pc_setPc _ _ _) List.not_mem_nil rfl fun _ => rfl
        · cases hm
      · cases hm
  | locked th =>
      simp only [drops] at hm
      split at hm
      · rename_i f c hpc
        split at hm
        · cases hm
        · rename_i hne
          simp only [step, hpc] at hstep
          obtain ⟨⟨ch, full, calls⟩, hsection, rfl⟩ := Option.map_eq_some_iff.mp hstep
          have hmem : m ∈ s.held (.writers c) := by
            cases hwriters : (s.channels c).writers with
            | nil => simp [hwriters] at hm
            | cons first rest => simp_all [held]
          exact ⟨hold _ hmem, gone_of_locked hs hpc hsection hne hm⟩
      · cases hm
  | callback th =>
      simp only [step] at hstep
      split at hstep
      · rename_i f full i rest hpc
        cases hstep
        simp only [drops, hpc] at hm
        obtain ⟨cb, message, event⟩ := i
        cases cb with
        | session frame =>
            cases event with
            | read =>
                have hmessage : message = some m := by simpa using hm
                subst hmessage
                obtain ⟨hmem, hgone⟩ := gone_of_callback hs hpc
                  (pc_setPc (s.sessionCallback frame (some m)) _ _) rfl fun _ => rfl
                exact ⟨hold _ hmem, hgone⟩
            | _ => cases hm
        | task tid =>
            by_cases hres : s.sched.taskResumable tid = true
            · cases event <;> simp [hres] at hm
            · cases event with
              | read =>
                  have hmessage : message = some m := by simpa [hres] using hm
                  subst hmessage
                  obtain ⟨hmem, hgone⟩ := gone_of_callback hs hpc (pc_setPc s _ _) rfl fun _ => rfl
                  refine ⟨hold _ hmem, ?_⟩
                  simpa only [invoke, if_neg hres] using hgone
              | write =>
                  simp only [if_neg hres] at hm
                  cases List.mem_singleton.mp hm
                  simp only [invoke, if_neg hres]
                  refine ⟨?_, gone_of_new hs fun place => ?_⟩
                  · simp [next_msgDestroy, MessageStore.msgNew]
                  · cases place with
                    | thread other =>
                        by_cases hother : other = th
                        · subst hother
                          simp [held, hpc, Pc.held]
                          exact (handing_sublist _ rest).subset
                        · simp only [held, pc_setPc, Function.update_of_ne hother]
                          exact List.Subset.refl _
                    | _ => exact List.Subset.refl _
              | closed => cases hm
      · cases hstep
  | close c =>
      simp only [drops] at hm
      split at hm
      · rename_i hopen
        cases hstep
        exact ⟨hold (.writers c) hm, gone_of_close hs hopen hm⟩
      · cases hm
  | _ => cases hm

end State

end Casting.Runtime
