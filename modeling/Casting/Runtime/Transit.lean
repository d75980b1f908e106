import Casting.Runtime.Ownership

/-!
# Messages on their way

Which steps make a message and which decode one.  A message that is on its way in a state was so
before the step or is new, and one that has been decoded is on its way no more.
-/

namespace Casting.Runtime

open Transition Custody

/-- What a new message is made of: the arguments of a call, or the `true` of the `write` case of
`task_callback`. -/
inductive Origin
  | values
  | written
  deriving DecidableEq, Repr

namespace State

/-- The message that the step makes is the next one of the store. -/
def makes (s : State) : Label → Option Origin
  | .luac _ c writes =>
      if writes ∧ (s.channels c).status ≠ .channelClosed then some .values else none
  | .queueTask _ withMessage => if withMessage then some .values else none
  | .refuse _ => some .values
  | .callback th =>
      match s.pc th with
      | .calling _ _ (⟨.task _, _, .write⟩ :: _) => some .written
      | _ => none
  | _ => none

/-- The message that `task_run` or `session_callback` decodes in the step. -/
def decodes (s : State) : Label → Option MessageId
  | .taskRun th =>
      match s.pc th with
      | .popped _ (some job) =>
          match s.sched.taskRunEnter job with
          | (.resumed, _) => job.message
          | _ => none
      | _ => none
  | .callback th =>
      match s.pc th with
      | .calling _ _ (⟨.session _, m, .read⟩ :: _) => m
      | _ => none
  | _ => none

variable {s next : State} {a : Label}

theorem makes_eq_none_or_decodes_eq_none (s : State) (a : Label) :
    s.makes a = none ∨ s.decodes a = none := by
  cases a with
  | callback th =>
      simp only [makes, decodes]
      cases s.pc th with
      | calling f full calls =>
          rcases calls with _ | ⟨⟨cb, m, event⟩, rest⟩
          · exact .inl rfl
          · cases cb with
            | task tid => exact .inr rfl
            | session frame => exact .inl rfl
      | _ => exact .inl rfl
  | luac | queueTask | refuse => exact .inr rfl
  | _ => exact .inl rfl

/-! ### New messages -/

theorem next_msgDestroy (st : MessageStore) (m : Option MessageId) :
    (st.msgDestroy m).next = st.next := by
  cases m <;> rfl

theorem next_foldl_msgDestroy (st : MessageStore) (ms : List MessageId) :
    (ms.foldl (fun st m => st.msgDestroy (some m)) st).next = st.next := by
  induction ms generalizing st with
  | nil => rfl
  | cons m ms ih =>
      rw [List.foldl_cons, ih]
      exact next_msgDestroy st (some m)

theorem next_luac (s : State) (th : ThreadId) (f : CallFrame) (c : ChannelId) (writes : Bool) :
    (s.luac th f c writes).store.next =
      s.store.next + (s.makes (.luac th c writes)).toList.length := by
  cases hstatus : (s.channels c).status with
  | channelClosed => simp [luac, makes, hstatus]
  | channelOpen => cases writes <;> simp [luac, makes, hstatus, MessageStore.msgNew]

theorem next_invoke (s : State) (th : ThreadId) (f : CallFrame) (full : Bool) (i : Callback)
    (rest : List Callback) (hpc : s.pc th = .calling f full (i :: rest)) :
    (s.invoke th f full i rest).store.next =
      s.store.next + (s.makes (.callback th)).toList.length := by
  obtain ⟨cb, m, event⟩ := i
  cases cb with
  | session frame => cases event <;> simp [invoke, makes, hpc]
  | task tid =>
      cases hres : s.sched.taskResumable tid <;> cases event <;>
        simp [invoke, makes, hpc, hres, MessageStore.msgNew, next_msgDestroy]

theorem next_step (hstep : s.step a = some next) :
    next.store.next = s.store.next + (s.makes a).toList.length := by
  cases step_cases hstep with
  | @run th sid job hpc =>
      obtain ⟨p, _, _, _, _, hstore⟩ := s.taskRunEnter_spec th sid job
      rw [hstore]
      split
      · rfl
      · exact next_msgDestroy _ _
  | luacTask c writes _ _ => exact next_luac s _ _ c writes
  | luacPlain c writes _ =>
      exact next_luac { s with nextFrame := s.nextFrame + 1 } _ _ c writes
  | callback hpc => exact next_invoke s _ _ _ _ _ hpc
  | queue _ => exact next_msgDestroy _ _
  | close c =>
      rw [(s.close_spec c).2.2.2]
      exact next_foldl_msgDestroy _ _
  | _ => rfl

/-! ### Messages on their way -/

/-- The message is new in the next state, or is on its way in this one. -/
def Known (s : State) (m : MessageId) : Prop := s.store.next ≤ m ∨ ∃ p, m ∈ s.held p

variable {m : MessageId}

theorem known_of_pc (th : ThreadId) (hm : m ∈ (s.pc th).held) : s.Known m :=
  .inr ⟨.thread th, hm⟩

theorem known_of_channel {c : ChannelId}
    (hm : m ∈ (s.channels c).messages ++ (s.channels c).writers.map Writer.message) :
    s.Known m := by
  rcases List.mem_append.mp hm with hbuffer | hwriters
  · exact .inr ⟨.buffer c, hbuffer⟩
  · exact .inr ⟨.writers c, hwriters⟩

theorem known_of_jobs {sid : SessionId} (hm : m ∈ (s.sched.sessions sid).messages) : s.Known m :=
  .inr ⟨.jobs sid, hm⟩

theorem known_of_held {place : Place} (hm : m ∈ next.held place)
    (hthreads : ∀ th, ∀ m ∈ (next.pc th).held, s.Known m)
    (hchannels : ∀ c, ∀ m ∈ (next.channels c).messages ++
      (next.channels c).writers.map Writer.message, s.Known m)
    (hsessions : ∀ sid, ∀ m ∈ (next.sched.sessions sid).messages, s.Known m) : s.Known m := by
  cases place with
  | buffer c => exact hchannels c m (List.mem_append_left _ hm)
  | writers c => exact hchannels c m (List.mem_append_right _ hm)
  | jobs sid => exact hsessions sid m hm
  | thread th => exact hthreads th m hm

theorem known_of_update {th : ThreadId} {p : Pc} (hpc : next.pc = Function.update s.pc th p)
    (hp : ∀ m ∈ p.held, s.Known m) (other : ThreadId) :
    ∀ m ∈ (next.pc other).held, s.Known m := by
  intro m hm
  rw [hpc] at hm
  by_cases hother : other = th
  · rw [hother, Function.update_self] at hm
    exact hp m hm
  · rw [Function.update_of_ne hother] at hm
    exact known_of_pc other hm

theorem known_of_move {th : ThreadId} {p : Pc} {place : Place} (hm : m ∈ next.held place)
    (hpc : next.pc = Function.update s.pc th p) (hp : ∀ m ∈ p.held, s.Known m)
    (hchannels : next.channels = s.channels)
    (hsessions : ∀ sid, ∀ m ∈ (next.sched.sessions sid).messages, s.Known m) : s.Known m := by
  refine known_of_held hm (known_of_update hpc hp) ?_ hsessions
  rw [hchannels]
  exact fun c m hm => known_of_channel hm

theorem known_of_sessions (hsessions : next.sched.sessions = s.sched.sessions) (sid : SessionId) :
    ∀ m ∈ (next.sched.sessions sid).messages, s.Known m := by
  rw [hsessions]
  exact fun m hm => known_of_jobs hm

theorem known_sessionQueueTask (sc : Scheduler) (job : Job) (hsc : sc.sessions = s.sched.sessions)
    (hjob : ∀ m ∈ job.message, s.Known m) (sid : SessionId) :
    ∀ m ∈ ((sc.sessionQueueTask job).sessions sid).messages, s.Known m := by
  intro m hm
  rcases messages_sessionQueueTask sc job with hsame | ⟨target, hself, hothers⟩
  · rw [hsame, hsc] at hm
    exact known_of_jobs hm
  · by_cases hsid : sid = target
    · rw [hsid, hself, hsc] at hm
      rcases List.mem_append.mp hm with hold | hnew
      · exact known_of_jobs hold
      · exact hjob m (by simpa using hnew)
    · rw [hothers sid hsid, hsc] at hm
      exact known_of_jobs hm

theorem known_luac {th : ThreadId} {f : CallFrame} {c : ChannelId} {writes : Bool} {place : Place}
    (hm : m ∈ (s.luac th f c writes).held place) : s.Known m := by
  rcases s.luac_cases th f c writes with ⟨_, heq⟩ | ⟨_, heq | heq⟩
  · rw [heq] at hm
    exact .inr ⟨place, hm⟩
  · rw [heq] at hm
    refine known_of_move hm (pc_setPc _ _ _) ?_ rfl (known_of_sessions rfl)
    intro m hm
    cases hm
  · rw [heq] at hm
    refine known_of_move hm (pc_setPc _ _ _) ?_ rfl (known_of_sessions rfl)
    intro m hm
    rw [List.mem_singleton.mp hm]
    exact .inl (Nat.le_refl _)

theorem known_locked {th : ThreadId} {f : CallFrame} {c : ChannelId} {op : Operation}
    {ch : Channel Waiter MessageId} {full : Bool} {calls : List Callback}
    (hrendezvous : Rendezvous (s.channels c)) (hpc : s.pc th = .locking f c op)
    (hsection : lockedSection (s.channels c) f.waiter op = some (ch, full, calls)) {place : Place}
    (hm : m ∈ ((s.setChannel c ch).setPc th (.calling f full calls)).held place) : s.Known m := by
  have hmoves : SectionMoves (s.channels c) ch op calls := by
    cases op with
    | write m => exact writeSection_moves hrendezvous hsection
    | read => exact readSection_moves hsection
  have hknown : ∀ m ∈ handing calls ++ (ch.messages ++ ch.writers.map Writer.message),
      s.Known m := by
    intro m hm
    rcases List.mem_append.mp (hmoves.moved.subset hm) with hop | hch
    · apply known_of_pc th
      rw [hpc]
      exact hop
    · exact known_of_channel hch
  refine known_of_held hm (known_of_update (pc_setPc _ _ _) ?_) ?_ (known_of_sessions rfl)
  · exact fun m hm => hknown m (List.mem_append_left _ hm)
  · intro other m hm
    by_cases hother : other = c
    · rw [hother] at hm
      simp only [channels_setPc, channels_setChannel, Function.update_self] at hm
      exact hknown m (List.mem_append_right _ hm)
    · simp only [channels_setPc, channels_setChannel, Function.update_of_ne hother] at hm
      exact known_of_channel hm

theorem known_invoke {th : ThreadId} {f : CallFrame} {full : Bool} {i : Callback}
    {rest : List Callback} (hpc : s.pc th = .calling f full (i :: rest)) {place : Place}
    (hm : m ∈ (s.invoke th f full i rest).held place) : s.Known m := by
  have hhanding : ∀ m ∈ handing (i :: rest), s.Known m := by
    intro m hm
    apply known_of_pc th
    rw [hpc]
    exact hm
  have hrest : ∀ m ∈ handing rest, s.Known m := fun m hm =>
    hhanding m ((handing_sublist i rest).subset hm)
  -- a callback that is over leaves the others to be made
  have hover : ∀ s' : State, s'.pc = s.pc → s'.channels = s.channels → s'.sched = s.sched →
      m ∈ (s'.setPc th (.calling f full rest)).held place → s.Known m := by
    intro s' hpc' hchannels hsched hm
    have hmove : (s'.setPc th (.calling f full rest)).pc =
        Function.update s.pc th (.calling f full rest) := by
      rw [pc_setPc, hpc']
    refine known_of_move hm hmove hrest hchannels (known_of_sessions ?_)
    rw [sched_setPc, hsched]
  obtain ⟨cb, message, event⟩ := i
  cases cb with
  | session frame => cases event <;> exact hover (s.sessionCallback frame _) rfl rfl rfl hm
  | task tid =>
      cases hres : s.sched.taskResumable tid with
      | false =>
          cases event <;> simp only [invoke, hres, Bool.false_eq_true, if_false] at hm
          · exact hover s rfl rfl rfl hm
          · exact hover { s with store := _ } rfl rfl rfl hm
          · exact hover s rfl rfl rfl hm
      | true =>
          cases event <;> simp only [invoke, hres, if_true] at hm
          · refine known_of_move hm (pc_setPc _ _ _) ?_ rfl (known_of_sessions rfl)
            intro m hm
            apply hhanding m
            cases message <;> simpa [handing, Pc.held] using hm
          · refine known_of_move hm (pc_setPc _ _ _) ?_ rfl (known_of_sessions rfl)
            intro m hm
            rcases List.mem_append.mp hm with hnew | hm
            · rw [show m = s.store.msgNew.1 by simpa using hnew]
              exact .inl (Nat.le_refl _)
            · exact hrest m hm
          · exact hover s rfl rfl rfl hm

theorem known_enter {th : ThreadId} {sid : SessionId} {sched : Scheduler} {job : Option Job}
    (henter : s.sched.sessionRunEnter sid = some (sched, job)) {place : Place}
    (hm : m ∈ ({ s with sched := sched }.setPc th (.popped sid job)).held place) :
    s.Known m := by
  obtain ⟨_, hjob, rfl⟩ := Scheduler.sessionRunEnter_eq_some.mp henter
  have hqueue : ∀ j, j ∈ job ∨ j ∈ (queuePop (s.sched.sessions sid).tasks).2 →
      j ∈ (s.sched.sessions sid).tasks := by
    intro j hj
    rw [hjob] at hj
    cases htasks : (s.sched.sessions sid).tasks with
    | nil => simp [htasks] at hj
    | cons first rest => simpa [htasks, eq_comm] using hj
  refine known_of_move hm (pc_setPc _ _ _) ?_ rfl ?_
  · intro m hm
    cases job with
    | none => cases hm
    | some job =>
        have hmessage : job.message = some m := by simpa [Pc.held] using hm
        exact known_of_jobs (List.mem_filterMap.mpr ⟨job, hqueue job (.inl rfl), hmessage⟩)
  · intro other m hm
    by_cases hother : other = sid
    · simp only [sched_setPc, Scheduler.setSession, hother, Function.update_self] at hm
      obtain ⟨j, hj, hmessage⟩ := List.mem_filterMap.mp hm
      exact known_of_jobs (List.mem_filterMap.mpr ⟨j, hqueue j (.inr hj), hmessage⟩)
    · simp only [sched_setPc, Scheduler.setSession, Function.update_of_ne hother] at hm
      exact known_of_jobs hm

theorem known_taskRunEnter {th : ThreadId} {sid : SessionId} {job : Job} {place : Place}
    (hm : m ∈ (s.taskRunEnter th sid job).held place) : s.Known m := by
  obtain ⟨p, hp, hpc, hchannels, hsched, _⟩ := s.taskRunEnter_spec th sid job
  have hsame : ∀ r, s.sched.taskRunEnter job = r → r.2.sessions = s.sched.sessions :=
    fun r hr => (Scheduler.sessions_taskRunEnter hr).1
  refine known_of_move hm hpc ?_ hchannels (known_of_sessions (by rw [hsched, hsame _ rfl]))
  rcases hp with rfl | rfl <;> exact fun m hm => by cases hm

/-- Whatever is on its way after a step was so before, or is new. -/
theorem known_step (hs : ∀ c, Rendezvous (s.channels c)) (hstep : s.step a = some next)
    {place : Place} (hm : m ∈ next.held place) : s.Known m := by
  have hthreads : ∀ th, ∀ m ∈ (s.pc th).held, s.Known m := fun th m hm => known_of_pc th hm
  have hchannels : ∀ c, ∀ m ∈ (s.channels c).messages ++
      (s.channels c).writers.map Writer.message, s.Known m := fun c m hm => known_of_channel hm
  have hnothing : ∀ p : Pc, p.held = [] → ∀ m ∈ p.held, s.Known m := by
    intro p hp m hm
    rw [hp] at hm
    cases hm
  -- a thread goes on and takes nothing with it
  have hgo : ∀ {s' : State} {th : ThreadId} {p : Pc}, m ∈ (s'.setPc th p).held place →
      s'.pc = s.pc → s'.channels = s.channels → s'.sched.sessions = s.sched.sessions →
        (∀ m ∈ p.held, s.Known m) → s.Known m := by
    intro s' th p hm hpc' hchannels' hsessions hp
    have hmove : (s'.setPc th p).pc = Function.update s.pc th p := by
      rw [pc_setPc, hpc']
    exact known_of_move hm hmove hp hchannels' (known_of_sessions hsessions)
  cases step_cases hstep with
  | newTask sid => exact .inr ⟨place, hm⟩
  | gcTask tid =>
      exact known_of_held hm hthreads hchannels
        (known_of_sessions (s.sched.sessions_taskFree tid).1)
  | queueTask tid =>
      refine known_of_held hm hthreads hchannels (known_sessionQueueTask s.sched _ rfl ?_)
      exact fun m hm => by cases hm
  | queueMessage tid =>
      refine known_of_held hm hthreads hchannels (known_sessionQueueTask s.sched _ rfl ?_)
      intro m hm
      cases hm
      exact .inl (Nat.le_refl _)
  | refuse _ => exact .inr ⟨place, hm⟩
  | take _ _ => exact hgo hm rfl rfl rfl (hnothing _ rfl)
  | enterBusy _ _ => exact hgo hm rfl rfl rfl (hnothing _ rfl)
  | enter _ henter => exact known_enter henter hm
  | runNone _ => exact hgo hm rfl rfl rfl (hnothing _ rfl)
  | run _ => exact known_taskRunEnter hm
  | luacTask c writes _ _ => exact known_luac hm
  | luacPlain c writes _ => exact @known_luac { s with nextFrame := s.nextFrame + 1 } _ _ _ _ _ _ hm
  | testClosed _ _ => exact hgo hm rfl rfl rfl (hnothing _ rfl)
  | @test th _ _ _ hpc _ =>
      refine hgo hm rfl rfl rfl ?_
      intro m hm
      apply known_of_pc th
      rw [hpc]
      exact hm
  | @locked _ _ c _ _ _ _ hpc hsection => exact known_locked (hs c) hpc hsection hm
  | callback hpc => exact known_invoke hpc hm
  | @queue th f full job release rest hpc =>
      have hjob : ∀ m ∈ job.message.toList ++ handing rest, s.Known m := by
        intro m hm
        apply known_of_pc th
        rw [hpc]
        exact hm
      refine known_of_move hm (pc_setPc _ _ _) ?_ rfl ?_
      · exact fun m hm => hjob m (List.mem_append_right _ hm)
      · refine known_sessionQueueTask s.sched job rfl ?_
        exact fun m hm => hjob m (List.mem_append_left _ (by simpa using hm))
  | leaveTask _ => exact hgo hm rfl rfl rfl (hnothing _ rfl)
  | @leavePlain _ _ full _ => cases full <;> exact hgo hm rfl rfl rfl (hnothing _ rfl)
  | wake _ => exact hgo hm rfl rfl rfl (hnothing _ rfl)
  | @yielded _ _ tid _ rc _ _ =>
      exact hgo hm rfl rfl (s.sched.sessions_taskRunLeave tid rc true).1 (hnothing _ rfl)
  | @ended _ _ tid rc _ =>
      exact hgo hm rfl rfl (s.sched.sessions_taskRunLeave tid rc false).1 (hnothing _ rfl)
  | @finish th sid _ =>
      refine known_of_move hm (pc_setPc _ _ _) (hnothing _ rfl) rfl ?_
      intro other m hm
      simp only [sched_setPc, Session.messages,
        (s.sched.sessionRunLeave_session sid other).1] at hm
      exact known_of_jobs hm
  | close c =>
      obtain ⟨hpc, hchannels', hsched, _⟩ := s.close_spec c
      refine known_of_held hm ?_ ?_ (known_of_sessions (by rw [hsched]))
      · rw [hpc]
        exact hthreads
      · rw [hchannels']
        intro other m hm
        by_cases hother : other = c
        · rw [hother, Function.update_self] at hm
          apply hchannels c m
          unfold channelClose at hm
          split at hm
          · cases hm
          · exact hm
        · rw [Function.update_of_ne hother] at hm
          exact hchannels other m hm

/-! ### Decoded messages -/

theorem mem_held_of_decodes (h : s.decodes a = some m) : ∃ th, m ∈ (s.pc th).held := by
  cases a with
  | taskRun th =>
      simp only [decodes] at h
      split at h
      · rename_i sid job hpc
        split at h
        · refine ⟨th, ?_⟩
          rw [hpc]
          simp [Pc.held, h]
        · cases h
      · cases h
  | callback th =>
      simp only [decodes] at h
      split at h
      · rename_i f full frame message rest hpc
        refine ⟨th, ?_⟩
        rw [hpc]
        simp [Pc.held, handing, h]
      · cases h
  | _ => cases h

theorem not_held_of_decodes (hs : s.SingleOwner) (hguard : s.ReleaseKept a)
    (hstep : s.step a = some next) (h : s.decodes a = some m) (place : Place) :
    m ∉ next.held place := by
  intro hm
  have hnext := hs.step hguard hstep
  cases a with
  | taskRun th =>
      simp only [decodes] at h
      split at h
      · rename_i sid job hpc
        split at h
        · rename_i sched hentry
          -- `task_run` destroys what it has decoded
          simp only [step, hpc, Option.some.injEq] at hstep
          have hrecord := (hnext.counted place m hm).2
          rw [← hstep] at hrecord
          simp [taskRunEnter, hentry, h, MessageStore.msgDestroy] at hrecord
        · cases h
      · cases h
  | callback th =>
      simp only [decodes] at h
      split at h
      · rename_i f full frame message rest hpc
        subst h
        have hheld : s.held (.thread th) = m :: handing rest := by
          simp [held, hpc, Pc.held, handing]
        have hfirst : m ∈ s.held (.thread th) := by
          rw [hheld]
          exact List.mem_cons_self
        simp only [step, hpc, Option.some.injEq] at hstep
        rw [← hstep] at hm
        by_cases hplace : place = .thread th
        · have hnodup := hs.apart.nodup (.thread th)
          rw [hheld, List.nodup_cons] at hnodup
          apply hnodup.1
          simpa [hplace, held, invoke, Pc.held] using hm
        · have hsame : m ∈ s.held place := by
            cases place with
            | thread other =>
                have hother : other ≠ th := fun heq => hplace (by rw [heq])
                simpa [held, invoke, hother] using hm
            | _ => exact hm
          exact hplace (hs.apart.apart place (.thread th) m hsame hfirst)
      · cases h
  | _ => cases h

/-- The messages were made, each is counted once, and none is on its way. -/
structure Past (s : State) (ms : List MessageId) : Prop where
  nodup : ms.Nodup
  made : ∀ m ∈ ms, m < s.store.next
  gone : ∀ m ∈ ms, ∀ place, m ∉ s.held place

/-- No message is decoded twice. -/
theorem Past.step {ms : List MessageId} (hpast : s.Past ms) (hs : s.SingleOwner)
    (hguard : s.ReleaseKept a) (hstep : s.step a = some next) :
    next.Past (ms ++ (s.decodes a).toList) := by
  have hnext : s.store.next ≤ next.store.next := by
    rw [next_step hstep]
    exact Nat.le_add_right _ _
  have hheld : ∀ m ∈ (s.decodes a).toList, ∃ place, m ∈ s.held place := by
    intro m hm
    obtain ⟨th, hth⟩ := mem_held_of_decodes (Option.mem_toList.mp hm)
    exact ⟨.thread th, hth⟩
  have hold : ∀ m ∈ ms ++ (s.decodes a).toList, m < s.store.next := by
    intro m hm
    rcases List.mem_append.mp hm with hm | hm
    · exact hpast.made m hm
    · obtain ⟨place, hplace⟩ := hheld m hm
      exact (hs.counted place m hplace).1
  constructor
  · refine List.nodup_append.mpr ⟨hpast.nodup, ?_, ?_⟩
    · cases s.decodes a <;> simp
    · rintro m hm m' hm' rfl
      obtain ⟨place, hplace⟩ := hheld m hm'
      exact hpast.gone m hm place hplace
  · exact fun m hm => Nat.lt_of_lt_of_le (hold m hm) hnext
  · intro m hm place hplace
    rcases List.mem_append.mp hm with hm' | hm'
    · rcases known_step hs.rendezvous hstep hplace with hnew | ⟨q, hq⟩
      · exact absurd (hold m hm) (Nat.not_lt.mpr hnew)
      · exact hpast.gone m hm' q hq
    · exact not_held_of_decodes hs hguard hstep (Option.mem_toList.mp hm') place hplace

end State

end Casting.Runtime
