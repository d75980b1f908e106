import Casting.Framework.Custody
import Casting.Runtime.Wakeups

/-!
# Ownership of messages

`msg_new` gives a message one reference and nobody calls `msg_ref`, so a message has one owner
at a time: the call that writes it, a channel, the callback or the job that takes it to the
reader, or `task_run`, which destroys it.  The `write` case of `task_callback` destroys the
message as well, whoever owns it by then.
-/

namespace Casting.Runtime

open Transition Custody

inductive Place
  | buffer (c : ChannelId)
  | writers (c : ChannelId)
  | jobs (sid : SessionId)
  | thread (th : ThreadId)
  deriving DecidableEq, Repr

def Operation.messages : Operation → List MessageId
  | .write m => [m]
  | .read => []

def Session.messages (s : Session) : List MessageId := s.tasks.filterMap Job.message

/-- The messages that callbacks still to be made hand over. -/
def handing (calls : List Callback) : List MessageId :=
  calls.filterMap fun i => if i.event = .read then i.message else none

/-- The messages that callbacks still to be made may destroy. -/
def releasing (calls : List Callback) : List MessageId :=
  calls.filterMap fun i => if i.event = .write then i.message else none

def Pc.held : Pc → List MessageId
  | .popped _ (some job) => job.message.toList
  | .testing _ _ op | .locking _ _ op => op.messages
  | .calling _ _ calls => handing calls
  | .queueing _ _ job _ calls => job.message.toList ++ handing calls
  | _ => []

def Pc.owed : Pc → List MessageId
  | .calling _ _ calls => releasing calls
  | .queueing _ _ _ release calls => release.toList ++ releasing calls
  | _ => []

namespace State

def held (s : State) : Place → List MessageId
  | .buffer c => (s.channels c).messages
  | .writers c => (s.channels c).writers.map Writer.message
  | .jobs sid => (s.sched.sessions sid).messages
  | .thread th => (s.pc th).held

/-- A message has a reference left while it is in a buffer, in a parked writer, in a queued job
or in a popped job that `task_run` has not decoded; and no message is destroyed more often than
references were taken. -/
structure OwnershipKept (s : State) : Prop where
  buffered : ∀ c, ∀ m ∈ (s.channels c).messages, 1 ≤ (s.store.records m).refCount
  parked : ∀ c, ∀ w ∈ (s.channels c).writers, 1 ≤ (s.store.records w.message).refCount
  queued : ∀ sid, ∀ job ∈ (s.sched.sessions sid).tasks, ∀ m, job.message = some m →
    1 ≤ (s.store.records m).refCount
  popped : ∀ th sid job m, s.pc th = .popped sid (some job) → job.message = some m →
    1 ≤ (s.store.records m).refCount
  balanced : ∀ m, (s.store.records m).destroys ≤ (s.store.records m).taken

/-- The message that the `write` case of `task_callback` destroys in the step. -/
def releases (s : State) : Label → Option MessageId
  | .callback th =>
      match s.pc th with
      | .calling _ _ (⟨.task tid, m, .write⟩ :: _) =>
          if s.sched.taskResumable tid then none else m
      | _ => none
  | .queue th =>
      match s.pc th with
      | .queueing _ _ _ release _ => release
      | _ => none
  | _ => none

/-- The `write` case of `task_callback` does not destroy a message that is in a channel, a
callback or a job, or that was destroyed before. -/
def ReleaseKept (s : State) (a : Label) : Prop :=
  ∀ m, s.releases a = some m → (∀ p, m ∉ s.held p) ∧ (s.store.records m).destroys = 0

end State

/-! ### The message store -/

/-- A store after `msg_new` made the messages `fresh` and `msg_destroy` was called on `spent`. -/
structure StoreStep (st st' : MessageStore) (fresh spent : List MessageId) : Prop where
  next : st.next ≤ st'.next
  ids : ∀ m, m ∈ fresh ↔ st.next ≤ m ∧ m < st'.next
  made : ∀ m ∈ fresh, st'.records m = ⟨1, 1, 0⟩
  same : ∀ m, m ∉ fresh → m ∉ spent → st'.records m = st.records m
  destroyed : ∀ m ∈ spent, m < st.next ∧ (st'.records m).taken = (st.records m).taken ∧
    (st'.records m).destroys = (st.records m).destroys + 1

namespace StoreStep

theorem refl (st : MessageStore) : StoreStep st st [] [] where
  next := Nat.le_refl _
  ids m := by simp
  made m h := by cases h
  same _ _ _ := rfl
  destroyed m h := by cases h

theorem msgNew (st : MessageStore) : StoreStep st st.msgNew.2 [st.msgNew.1] [] where
  next := Nat.le_succ _
  ids m := by
    simp only [MessageStore.msgNew, List.mem_singleton, Nat.lt_succ_iff]
    exact ⟨fun h => by simp [h], fun h => Nat.le_antisymm h.2 h.1⟩
  made m h := by
    rw [List.mem_singleton.mp h]
    exact Function.update_self _ _ _
  same m h _ := Function.update_of_ne (fun heq => h (List.mem_singleton.mpr heq)) _ _
  destroyed m h := by cases h

theorem msgDestroy {st : MessageStore} {m : Option MessageId}
    (h : ∀ x ∈ m, x < st.next) : StoreStep st (st.msgDestroy m) [] m.toList := by
  cases m with
  | none => exact refl st
  | some m =>
      constructor
      · exact Nat.le_refl _
      · simp [MessageStore.msgDestroy]
      · intro x hx
        cases hx
      · intro x _ hx
        exact Function.update_of_ne (fun heq => hx (by simp [heq])) _ _
      · intro x hx
        have heq : x = m := by simpa using hx
        subst heq
        refine ⟨h x rfl, ?_, ?_⟩ <;> simp [MessageStore.msgDestroy]

theorem trans {st₁ st₂ st₃ : MessageStore} {fresh spent spent' : List MessageId}
    (h : StoreStep st₁ st₂ fresh spent) (h' : StoreStep st₂ st₃ [] spent')
    (hlt : ∀ m ∈ spent', m < st₁.next) (hdisj : ∀ m ∈ spent', m ∉ spent) :
    StoreStep st₁ st₃ fresh (spent ++ spent') := by
  have hnext : st₂.next = st₃.next := by
    by_contra hne
    have hlt' : st₂.next < st₃.next := Nat.lt_of_le_of_ne h'.next hne
    have hmem := (h'.ids st₂.next).mpr ⟨Nat.le_refl _, hlt'⟩
    cases hmem
  have hold : ∀ m, m ∈ fresh → m ∉ spent' := by
    intro m hm hm'
    have hge := ((h.ids m).mp hm).1
    exact absurd (hlt m hm') (Nat.not_lt.mpr hge)
  constructor
  · rw [← hnext]
    exact h.next
  · rw [← hnext]
    exact h.ids
  · intro m hm
    rw [h'.same m (by simp) (hold m hm)]
    exact h.made m hm
  · intro m hm hm'
    rw [List.mem_append, not_or] at hm'
    rw [h'.same m (by simp) hm'.2, h.same m hm hm'.1]
  · intro m hm
    by_cases hm' : m ∈ spent'
    · obtain ⟨_, htaken, hdestroys⟩ := h'.destroyed m hm'
      have hkeep : st₂.records m = st₁.records m :=
        h.same m (fun hf => hold m hf hm') (hdisj m hm')
      rw [hkeep] at htaken hdestroys
      exact ⟨hlt m hm', htaken, hdestroys⟩
    · have hspent : m ∈ spent := (List.mem_append.mp hm).resolve_right hm'
      rw [h'.same m (by simp) hm']
      exact h.destroyed m hspent

theorem clear {st : MessageStore} {ms : List MessageId} (hnodup : ms.Nodup)
    (hlt : ∀ m ∈ ms, m < st.next) :
    StoreStep st (ms.foldl (fun st m => st.msgDestroy (some m)) st) [] ms := by
  induction ms generalizing st with
  | nil => exact refl st
  | cons m ms ih =>
      obtain ⟨hm, hms⟩ := List.nodup_cons.mp hnodup
      have hfirst : StoreStep st (st.msgDestroy (some m)) [] [m] :=
        msgDestroy (m := some m) (by simpa using hlt m List.mem_cons_self)
      have hrest : StoreStep (st.msgDestroy (some m)) _ [] ms :=
        ih hms (fun x hx => hlt x (List.mem_cons_of_mem m hx))
      apply hfirst.trans hrest
      · exact fun x hx => hlt x (List.mem_cons_of_mem m hx)
      · intro x hx hx'
        rw [List.mem_singleton.mp hx'] at hx
        exact hm hx

end StoreStep

namespace State

/-! ### Every message has one owner -/

structure SingleOwner (s : State) : Prop where
  rendezvous : ∀ c, Rendezvous (s.channels c)
  apart : Disjointly s.held
  counted : ∀ p, ∀ m ∈ s.held p, m < s.store.next ∧ s.store.records m = ⟨1, 1, 0⟩
  owed : ∀ th, ∀ m ∈ (s.pc th).owed, m < s.store.next ∧ 1 ≤ (s.store.records m).taken
  balanced : ∀ m, (s.store.records m).destroys ≤ (s.store.records m).taken

theorem SingleOwner.kept {s : State} (hs : s.SingleOwner) : s.OwnershipKept := by
  have hpos : ∀ p, ∀ m ∈ s.held p, 1 ≤ (s.store.records m).refCount := by
    intro p m hm
    have hrecord := (hs.counted p m hm).2
    simp [hrecord]
  refine ⟨fun c => hpos (.buffer c), ?_, ?_, ?_, hs.balanced⟩
  · exact fun c w hw => hpos (.writers c) w.message (List.mem_map_of_mem hw)
  · exact fun sid job hjob m hm =>
      hpos (.jobs sid) m (List.mem_filterMap.mpr ⟨job, hjob, hm⟩)
  · intro th sid job m hpc hm
    apply hpos (.thread th) m
    simp [held, hpc, Pc.held, hm]

/-- Messages change hands, are made and are destroyed; what is destroyed was given up by its
owner, or had none and was not destroyed before. -/
theorem SingleOwner.handover {s next : State} (hs : s.SingleOwner)
    (fresh spent gone : List MessageId) (places : List Place)
    (hrendezvous : ∀ c, Rendezvous (next.channels c))
    (hstore : StoreStep s.store next.store fresh spent)
    (hmoved : Handover s.held next.held fresh gone places) (hfresh : fresh.Nodup)
    (hspent : ∀ m ∈ spent, (m ∈ gone ∧ ∃ p, m ∈ s.held p) ∨
      ((∀ p, m ∉ s.held p) ∧ (s.store.records m).destroys = 0 ∧
        1 ≤ (s.store.records m).taken))
    (howed : ∀ th, ∀ m ∈ (next.pc th).owed,
      (∃ th', m ∈ (s.pc th').owed) ∨ ∃ p, m ∈ s.held p) : next.SingleOwner := by
  have hnew : ∀ m ∈ fresh, ∀ p, m ∉ s.held p := by
    intro m hm p hp
    exact absurd (hs.counted p m hp).1 (Nat.not_lt.mpr ((hstore.ids m).mp hm).1)
  have hold : ∀ m, m < s.store.next → m ∉ fresh := by
    intro m hlt hm
    exact absurd hlt (Nat.not_lt.mpr ((hstore.ids m).mp hm).1)
  have hbefore : ∀ m ∈ spent, (s.store.records m).destroys = 0 ∧
      1 ≤ (s.store.records m).taken := by
    intro m hm
    rcases hspent m hm with ⟨_, p, hp⟩ | ⟨_, hzero, htaken⟩
    · rw [(hs.counted p m hp).2]
      exact ⟨rfl, Nat.le_refl 1⟩
    · exact ⟨hzero, htaken⟩
  constructor
  · exact hrendezvous
  · exact hmoved.disjointly hs.apart hfresh hnew
  · intro p m hm
    rcases hmoved.mem hm with hmem | ⟨q, hq⟩
    · exact ⟨((hstore.ids m).mp hmem).2, hstore.made m hmem⟩
    · obtain ⟨hlt, hrecord⟩ := hs.counted q m hq
      have hkeep : m ∉ spent := by
        intro hm'
        rcases hspent m hm' with ⟨hgone, _⟩ | ⟨hnone, _⟩
        · exact hmoved.not_mem_of_gone hs.apart hfresh hnew hgone p hm
        · exact hnone q hq
      refine ⟨Nat.lt_of_lt_of_le hlt hstore.next, ?_⟩
      rw [hstore.same m (hold m hlt) hkeep, hrecord]
  · intro th m hm
    have hknown : m < s.store.next ∧ 1 ≤ (s.store.records m).taken := by
      rcases howed th m hm with ⟨th', hm'⟩ | ⟨p, hp⟩
      · exact hs.owed th' m hm'
      · obtain ⟨hlt, hrecord⟩ := hs.counted p m hp
        rw [hrecord]
        exact ⟨hlt, Nat.le_refl 1⟩
    refine ⟨Nat.lt_of_lt_of_le hknown.1 hstore.next, ?_⟩
    by_cases hm' : m ∈ spent
    · rw [(hstore.destroyed m hm').2.1]
      exact hknown.2
    · rw [hstore.same m (hold m hknown.1) hm']
      exact hknown.2
  · intro m
    by_cases hm : m ∈ spent
    · obtain ⟨_, htaken, hdestroys⟩ := hstore.destroyed m hm
      rw [htaken, hdestroys, (hbefore m hm).1]
      exact (hbefore m hm).2
    · by_cases hm' : m ∈ fresh
      · rw [hstore.made m hm']
        exact Nat.zero_le 1
      · rw [hstore.same m hm' hm]
        exact hs.balanced m

theorem held_of_pc {s next : State} {th : ThreadId} {p : Pc}
    (hpc : next.pc = Function.update s.pc th p) (hchannels : next.channels = s.channels)
    (hsessions : ∀ sid, (next.sched.sessions sid).messages = (s.sched.sessions sid).messages)
    (place : Place) (hplace : place ∉ [Place.thread th]) : next.held place = s.held place := by
  cases place with
  | buffer c | writers c => simp only [held, hchannels]
  | jobs sid => simp only [held, hsessions]
  | thread other =>
      have hother : other ≠ th := by simpa using hplace
      simp only [held, hpc, Function.update_of_ne hother]

theorem owed_of_pc {s next : State} {th : ThreadId} {p : Pc}
    (hpc : next.pc = Function.update s.pc th p)
    (hp : ∀ m ∈ p.owed, (∃ th', m ∈ (s.pc th').owed) ∨ ∃ place, m ∈ s.held place)
    (other : ThreadId) :
    ∀ m ∈ (next.pc other).owed, (∃ th', m ∈ (s.pc th').owed) ∨ ∃ place, m ∈ s.held place := by
  intro m hm
  by_cases hother : other = th
  · rw [hpc, hother, Function.update_self] at hm
    exact hp m hm
  · rw [hpc, Function.update_of_ne hother] at hm
    exact .inl ⟨other, hm⟩

theorem SingleOwner.advance {s next : State} {th : ThreadId} {p : Pc} (hs : s.SingleOwner)
    (fresh spent gone : List MessageId) (hpc : next.pc = Function.update s.pc th p)
    (hchannels : next.channels = s.channels)
    (hsessions : ∀ sid, (next.sched.sessions sid).messages = (s.sched.sessions sid).messages)
    (hstore : StoreStep s.store next.store fresh spent) (hfresh : fresh.Nodup)
    (hmoved : (gone ++ p.held).Subperm (fresh ++ (s.pc th).held))
    (hspent : ∀ m ∈ spent, (m ∈ gone ∧ ∃ place, m ∈ s.held place) ∨
      ((∀ place, m ∉ s.held place) ∧ (s.store.records m).destroys = 0 ∧
        1 ≤ (s.store.records m).taken))
    (howed : ∀ m ∈ p.owed, (∃ th', m ∈ (s.pc th').owed) ∨ ∃ place, m ∈ s.held place) :
    next.SingleOwner := by
  have hself : (next.pc th).held = p.held := by
    rw [hpc, Function.update_self]
  apply hs.handover fresh spent gone [.thread th]
  · rw [hchannels]
    exact hs.rendezvous
  · exact hstore
  · refine ⟨List.nodup_singleton _, held_of_pc hpc hchannels hsessions, ?_⟩
    simpa [held, hself] using hmoved
  · exact hfresh
  · exact hspent
  · exact owed_of_pc hpc howed

theorem SingleOwner.quiet {s next : State} {th : ThreadId} {p : Pc} (hs : s.SingleOwner)
    (hpc : next.pc = Function.update s.pc th p) (hchannels : next.channels = s.channels)
    (hsessions : ∀ sid, (next.sched.sessions sid).messages = (s.sched.sessions sid).messages)
    (hstore : next.store = s.store) (hheld : p.held = [] ∨ p.held = (s.pc th).held)
    (howed : p.owed = []) :
    next.SingleOwner := by
  apply hs.advance [] [] [] hpc hchannels hsessions
  · rw [hstore]
    exact StoreStep.refl _
  · exact List.nodup_nil
  · rcases hheld with h | h
    · simp [h]
    · simp [h, List.Subperm.refl]
  · intro m hm
    cases hm
  · intro m hm
    rw [howed] at hm
    cases hm

theorem messages_sessionQueueTask (sc : Scheduler) (job : Job) :
    (sc.sessionQueueTask job).sessions = sc.sessions ∨
    ∃ sid, ((sc.sessionQueueTask job).sessions sid).messages =
        (sc.sessions sid).messages ++ job.message.toList ∧
      ∀ other, other ≠ sid → (sc.sessionQueueTask job).sessions other = sc.sessions other := by
  rcases sc.sessionQueueTask_cases job with ⟨_, heq⟩ | ⟨t, _, _, _, hsessions, _⟩
  · left
    rw [heq]
  · right
    refine ⟨t.sid, ?_, ?_⟩
    · rw [hsessions, Function.update_self]
      cases hm : job.message <;> simp [Session.messages, hm]
    · intro other hother
      rw [hsessions, Function.update_of_ne hother]

theorem SingleOwner.queueJob {s : State} {store : MessageStore} (hs : s.SingleOwner) (job : Job)
    (hstore : StoreStep s.store store job.message.toList []) :
    SingleOwner { s with sched := s.sched.sessionQueueTask job, store := store } := by
  have hfresh : job.message.toList.Nodup := by
    cases job.message <;> simp
  have hspent : ∀ m ∈ ([] : List MessageId), (m ∈ ([] : List MessageId) ∧ ∃ p, m ∈ s.held p) ∨
      ((∀ p, m ∉ s.held p) ∧ (s.store.records m).destroys = 0 ∧
        1 ≤ (s.store.records m).taken) := by
    intro m hm
    cases hm
  rcases messages_sessionQueueTask s.sched job with hsame | ⟨sid, hself, hothers⟩
  · apply hs.handover job.message.toList [] [] []
    · exact hs.rendezvous
    · exact hstore
    · refine ⟨List.nodup_nil, ?_, List.nil_subperm⟩
      intro place _
      cases place with
      | jobs other => simp only [State.held, hsame]
      | _ => rfl
    · exact hfresh
    · exact hspent
    · exact fun th m hm => .inl ⟨th, hm⟩
  · apply hs.handover job.message.toList [] [] [.jobs sid]
    · exact hs.rendezvous
    · exact hstore
    · refine ⟨List.nodup_singleton _, ?_, ?_⟩
      · intro place hplace
        cases place with
        | jobs other =>
            have hother : other ≠ sid := by simpa using hplace
            simp only [State.held, hothers other hother]
        | _ => rfl
      · simp only [List.nil_append, List.flatMap_singleton, State.held, hself]
        exact List.perm_append_comm.subperm
    · exact hfresh
    · exact hspent
    · exact fun th m hm => .inl ⟨th, hm⟩

theorem SingleOwner.enter {s : State} {th : ThreadId} {sid : SessionId} {sched : Scheduler}
    {job : Option Job} (hs : s.SingleOwner) (hpc : s.pc th = .entered sid)
    (henter : s.sched.sessionRunEnter sid = some (sched, job)) :
    SingleOwner ({ s with sched := sched }.setPc th (.popped sid job)) := by
  obtain ⟨_, hjob, rfl⟩ := Scheduler.sessionRunEnter_eq_some.mp henter
  apply hs.handover [] [] [] [.jobs sid, .thread th]
  · exact hs.rendezvous
  · exact StoreStep.refl _
  · refine ⟨?_, ?_, ?_⟩
    · simp
    · intro place hplace
      cases place with
      | jobs other =>
          have hother : other ≠ sid := by
            intro heq
            simp [heq] at hplace
          simp [State.held, Scheduler.setSession, hother]
      | thread other =>
          have hother : other ≠ th := by
            intro heq
            simp [heq] at hplace
          simp only [State.held, pc_setPc, Function.update_of_ne hother]
          rfl
      | _ => rfl
    · cases htasks : (s.sched.sessions sid).tasks with
      | nil =>
          simp [State.held, Session.messages, Scheduler.setSession, hjob, htasks, hpc, Pc.held]
      | cons first rest =>
          have hperm : (rest.filterMap Job.message ++ first.message.toList).Subperm
              ((first :: rest).filterMap Job.message) := by
            cases hm : first.message with
            | none => simp [hm, List.Subperm.refl]
            | some m =>
                simp only [List.filterMap_cons, hm, Option.toList_some]
                exact (List.perm_append_singleton m _).subperm
          simpa [State.held, Session.messages, Scheduler.setSession, hjob, htasks, hpc, Pc.held]
            using hperm
  · exact List.nodup_nil
  · intro m hm
    cases hm
  · apply owed_of_pc
    · exact pc_setPc _ th _
    · intro m hm
      cases hm

theorem SingleOwner.run {s : State} {th : ThreadId} {sid : SessionId} {job : Job}
    (hs : s.SingleOwner) (hpc : s.pc th = .popped sid (some job)) :
    (s.taskRunEnter th sid job).SingleOwner := by
  obtain ⟨p, hp, hpc', hchannels, hsched, hstore⟩ := s.taskRunEnter_spec th sid job
  have hsessions : ∀ other, ((s.taskRunEnter th sid job).sched.sessions other).messages =
      (s.sched.sessions other).messages := by
    have hsame : ∀ r, s.sched.taskRunEnter job = r → r.2.sessions = s.sched.sessions :=
      fun r hr => (Scheduler.sessions_taskRunEnter hr).1
    intro other
    rw [hsched, hsame _ rfl]
  have hheld : ∀ m ∈ job.message, m ∈ s.held (.thread th) := by
    intro m hm
    simpa [State.held, hpc, Pc.held] using hm
  rcases hp with rfl | rfl
  · rw [if_pos rfl] at hstore
    exact hs.quiet hpc' hchannels hsessions hstore (.inl rfl) rfl
  · rw [if_neg (by simp)] at hstore
    apply hs.advance [] job.message.toList job.message.toList hpc' hchannels hsessions
    · rw [hstore]
      exact StoreStep.msgDestroy fun m hm => (hs.counted _ m (hheld m hm)).1
    · exact List.nodup_nil
    · simp [Pc.held, hpc, List.Subperm.refl]
    · intro m hm
      exact .inl ⟨hm, .thread th, hheld m (by simpa using hm)⟩
    · intro m hm
      cases hm

/-- The messages of the caller and of the channel are handed over or are in the channel. -/
structure SectionMoves (ch ch' : Channel Waiter MessageId) (op : Operation)
    (calls : List Callback) : Prop where
  moved : (handing calls ++ (ch'.messages ++ ch'.writers.map Writer.message)).Subperm
    (op.messages ++ (ch.messages ++ ch.writers.map Writer.message))
  released : ∀ m ∈ releasing calls,
    m ∈ op.messages ++ (ch.messages ++ ch.writers.map Writer.message)

theorem writeSection_moves {ch ch' : Channel Waiter MessageId} {w : Waiter} {m : MessageId}
    {full : Bool} {calls : List Callback} (hc : Rendezvous ch)
    (h : lockedSection ch w (.write m) = some (ch', full, calls)) :
    SectionMoves ch ch' (.write m) calls := by
  simp only [lockedSection] at h
  rcases channelWriteLocked_cases hc m w with
    ⟨hr, hroom, heq⟩ | ⟨hr, hfull, heq⟩ | ⟨r, rest, hr, hm, hw, hpos, heq⟩ |
    ⟨r, rest, hr, hm, hw, hzero, heq⟩
  all_goals
    rw [heq] at h
    simp [channelWriteCallbacks, wroteInvocation] at h
    obtain ⟨rfl, _, rfl⟩ := h
  · have hperm : ((ch.messages ++ [m]) ++ ch.writers.map Writer.message).Perm
        (m :: (ch.messages ++ ch.writers.map Writer.message)) :=
      (List.perm_append_singleton m ch.messages).append_right _
    constructor
    · simpa [handing, Operation.messages] using hperm.subperm
    · simp [releasing, Operation.messages]
  · have hperm : (ch.messages ++ (ch.writers.map Writer.message ++ [m])).Perm
        (m :: (ch.messages ++ ch.writers.map Writer.message)) := by
      rw [← List.append_assoc]
      exact List.perm_append_singleton m _
    constructor
    · simpa [handing, Operation.messages] using hperm.subperm
    · simp [releasing]
  · constructor
    · simp [handing, Operation.messages, hm, hw, List.Subperm.refl]
    · simp [releasing, Operation.messages]
  · constructor
    · simp [handing, Operation.messages, hm, hw, List.Subperm.refl]
    · simp [releasing, Operation.messages]

theorem readSection_moves {ch ch' : Channel Waiter MessageId} {w : Waiter} {full : Bool}
    {calls : List Callback} (h : lockedSection ch w .read = some (ch', full, calls)) :
    SectionMoves ch ch' .read calls := by
  simp only [lockedSection] at h
  rcases channelReadLocked_cases ch w with ⟨hm, hw, heq⟩ | ⟨hne, heq⟩
  · rw [heq] at h
    simp [channelReadCallbacks] at h
    obtain ⟨rfl, _, rfl⟩ := h
    constructor
    · simp [handing, Operation.messages, List.Subperm.refl]
    · simp [releasing]
  · rw [heq] at h
    simp only [channelReadCallbacks, if_true, Option.map_map, Option.map_eq_some_iff,
      Function.comp_apply, Prod.mk.injEq] at h
    obtain ⟨got, hgot, rfl, _, rfl⟩ := h
    have hhanding : handing (⟨w, some got, .read⟩ ::
        wroteInvocation ch.writers.head? fun _ => got) = [got] := by
      cases ch.writers.head? <;> simp [handing, wroteInvocation]
    have hreleasing : ∀ m ∈ releasing (⟨w, some got, .read⟩ ::
        wroteInvocation ch.writers.head? fun _ => got), m = got := by
      intro m hm
      cases hw : ch.writers.head? <;> simp_all [releasing, wroteInvocation]
    have hmoved : (got :: (ch.messages.tail ++ ch.writers.tail.map Writer.message)).Subperm
        (ch.messages ++ ch.writers.map Writer.message) := by
      cases hmessages : ch.messages with
      | nil =>
          cases hwriters : ch.writers with
          | nil => simp [hmessages, hwriters] at hgot
          | cons first rest =>
              simp [hmessages, hwriters] at hgot
              simp [hgot, List.Subperm.refl]
      | cons first rest =>
          simp [hmessages] at hgot
          subst hgot
          have hsub : (ch.writers.tail.map Writer.message).Sublist
              (ch.writers.map Writer.message) := (List.tail_sublist _).map _
          have hall : ((first :: rest) ++ ch.writers.tail.map Writer.message).Sublist
              ((first :: rest) ++ ch.writers.map Writer.message) :=
            (List.Sublist.refl _).append hsub
          exact hall.subperm
    constructor
    · simpa [hhanding, Operation.messages] using hmoved
    · intro m hm
      rw [hreleasing m hm]
      exact hmoved.subset List.mem_cons_self

theorem SingleOwner.locked {s : State} {th : ThreadId} {f : CallFrame} {c : ChannelId}
    {op : Operation} {ch : Channel Waiter MessageId} {full : Bool} {calls : List Callback}
    (hs : s.SingleOwner) (hpc : s.pc th = .locking f c op)
    (hsection : lockedSection (s.channels c) f.waiter op = some (ch, full, calls)) :
    ((s.setChannel c ch).setPc th (.calling f full calls)).SingleOwner := by
  have hmoves : SectionMoves (s.channels c) ch op calls := by
    cases op with
    | write m => exact writeSection_moves (hs.rendezvous c) hsection
    | read => exact readSection_moves hsection
  apply hs.handover [] [] [] [.thread th, .buffer c, .writers c]
  · intro other
    by_cases hother : other = c
    · subst hother
      simpa using (lockedSection_kept (hs.rendezvous other) hsection).rendezvous
    · simpa [hother] using hs.rendezvous other
  · exact StoreStep.refl _
  · refine ⟨by simp, ?_, ?_⟩
    · intro place hplace
      cases place with
      | buffer other | writers other =>
          have hother : other ≠ c := by
            intro heq
            simp [heq] at hplace
          simp [State.held, hother]
      | jobs sid => rfl
      | thread other =>
          have hother : other ≠ th := by
            intro heq
            simp [heq] at hplace
          simp [State.held, hother]
    · simpa [State.held, hpc, Pc.held] using hmoves.moved
  · exact List.nodup_nil
  · intro m hm
    cases hm
  · apply owed_of_pc
    · exact pc_setPc _ th _
    · intro m hm
      right
      have hmem := hmoves.released m hm
      rcases List.mem_append.mp hmem with hop | hrest
      · exact ⟨.thread th, by simpa [State.held, hpc, Pc.held] using hop⟩
      · rcases List.mem_append.mp hrest with hbuffer | hwriters
        · exact ⟨.buffer c, hbuffer⟩
        · exact ⟨.writers c, hwriters⟩

theorem handing_sublist (i : Callback) (rest : List Callback) :
    (handing rest).Sublist (handing (i :: rest)) :=
  (List.sublist_cons_self i rest).filterMap _

theorem releasing_sublist (i : Callback) (rest : List Callback) :
    (releasing rest).Sublist (releasing (i :: rest)) :=
  (List.sublist_cons_self i rest).filterMap _

/-- What the `write` case destroys has no owner and was not destroyed. -/
theorem SingleOwner.spent {s : State} {a : Label} {th : ThreadId} {release : Option MessageId}
    (hs : s.SingleOwner) (hguard : s.ReleaseKept a)
    (hreleases : ∀ m ∈ release, s.releases a = some m)
    (howed : ∀ m ∈ release, m ∈ (s.pc th).owed) (gone : List MessageId) :
    ∀ m ∈ release.toList, (m ∈ gone ∧ ∃ p, m ∈ s.held p) ∨
      ((∀ p, m ∉ s.held p) ∧ (s.store.records m).destroys = 0 ∧
        1 ≤ (s.store.records m).taken) := by
  intro m hm
  have hmem : m ∈ release := by simpa using hm
  obtain ⟨hnone, hzero⟩ := hguard m (hreleases m hmem)
  exact .inr ⟨hnone, hzero, (hs.owed th m (howed m hmem)).2⟩

theorem SingleOwner.invoke {s : State} {th : ThreadId} {f : CallFrame} {full : Bool}
    {i : Callback} {rest : List Callback} (hs : s.SingleOwner)
    (hguard : s.ReleaseKept (.callback th)) (hpc : s.pc th = .calling f full (i :: rest)) :
    (s.invoke th f full i rest).SingleOwner := by
  have hrest : ∀ m ∈ releasing rest, (∃ th', m ∈ (s.pc th').owed) ∨ ∃ p, m ∈ s.held p := by
    intro m hm
    left
    refine ⟨th, ?_⟩
    rw [hpc]
    exact (releasing_sublist i rest).subset hm
  -- the callback is over and nothing was made or destroyed
  have hover : ∀ s' : State, s'.pc = s.pc → s'.channels = s.channels → s'.sched = s.sched →
      s'.store = s.store → (s'.setPc th (.calling f full rest)).SingleOwner := by
    intro s' hpc' hchannels hsched hstore
    apply hs.advance [] [] []
    · rw [pc_setPc, hpc']
    · exact hchannels
    · rw [sched_setPc, hsched]
      exact fun _ => rfl
    · rw [store_setPc, hstore]
      exact StoreStep.refl _
    · exact List.nodup_nil
    · simpa [hpc, Pc.held] using (handing_sublist i rest).subperm
    · intro m hm
      cases hm
    · exact hrest
  obtain ⟨cb, message, event⟩ := i
  cases cb with
  | session frame =>
      cases event <;> exact hover (s.sessionCallback frame _) rfl rfl rfl rfl
  | task tid =>
      cases event with
      | closed => exact hover s rfl rfl rfl rfl
      | read =>
          by_cases hres : s.sched.taskResumable tid = true
          · simp only [State.invoke, hres, if_true]
            apply hs.advance [] [] [] (pc_setPc _ _ _) rfl (fun _ => rfl) (StoreStep.refl _)
            · exact List.nodup_nil
            · have hsame : message.toList ++ handing rest =
                  handing (⟨.task tid, message, .read⟩ :: rest) := by
                cases message <;> simp [handing]
              simp [hpc, Pc.held, hsame, List.Subperm.refl]
            · intro m hm
              cases hm
            · intro m hm
              exact hrest m (by simpa [Pc.owed] using hm)
          · simp only [State.invoke, hres, if_false, Bool.false_eq_true]
            exact hover s rfl rfl rfl rfl
      | write =>
          have howed : ∀ m ∈ message, m ∈ (s.pc th).owed := by
            intro m hm
            rw [hpc]
            cases hm
            simp [Pc.owed, releasing]
          have hsame : handing (⟨.task tid, message, .write⟩ :: rest) = handing rest := by
            simp [handing]
          by_cases hres : s.sched.taskResumable tid = true
          · simp only [State.invoke, hres, if_true]
            apply hs.advance [s.store.msgNew.1] [] []
            · exact pc_setPc _ _ _
            · rfl
            · exact fun _ => rfl
            · exact StoreStep.msgNew s.store
            · exact List.nodup_singleton _
            · simp [hpc, Pc.held, hsame, List.Subperm.refl]
            · intro m hm
              cases hm
            · intro m hm
              rcases List.mem_append.mp hm with hm | hm
              · exact .inl ⟨th, howed m (by simpa using hm)⟩
              · exact hrest m hm
          · simp only [State.invoke, hres, if_false, Bool.false_eq_true]
            have hreleases : ∀ m ∈ message, s.releases (.callback th) = some m := by
              intro m hm
              cases hm
              simp [State.releases, hpc, hres]
            have hlt : ∀ m ∈ message, m < s.store.next := fun m hm =>
              (hs.owed th m (howed m hm)).1
            apply hs.advance [s.store.msgNew.1] message.toList []
            · exact pc_setPc _ _ _
            · rfl
            · exact fun _ => rfl
            · have hmade := StoreStep.msgNew s.store
              apply hmade.trans (StoreStep.msgDestroy _)
              · exact fun m hm => hlt m (by simpa using hm)
              · exact fun m _ hm => by cases hm
              · exact fun m hm => Nat.lt_of_lt_of_le (hlt m hm) hmade.next
            · exact List.nodup_singleton _
            · have hsub : (handing rest).Sublist (s.store.msgNew.1 :: handing rest) :=
                List.sublist_cons_self _ _
              simpa [hpc, Pc.held, hsame] using hsub.subperm
            · exact hs.spent hguard hreleases howed []
            · exact hrest

theorem SingleOwner.queue {s : State} {th : ThreadId} {f : CallFrame} {full : Bool} {job : Job}
    {release : Option MessageId} {rest : List Callback} (hs : s.SingleOwner)
    (hguard : s.ReleaseKept (.queue th)) (hpc : s.pc th = .queueing f full job release rest) :
    SingleOwner ({ s with
      sched := s.sched.sessionQueueTask job
      store := s.store.msgDestroy release }.setPc th (.calling f full rest)) := by
  have howed : ∀ m ∈ release, m ∈ (s.pc th).owed := by
    intro m hm
    rw [hpc]
    exact List.mem_append_left _ (by simpa using hm)
  have hreleases : ∀ m ∈ release, s.releases (.queue th) = some m := by
    intro m hm
    cases hm
    simp [State.releases, hpc]
  have hstore : StoreStep s.store (s.store.msgDestroy release) [] release.toList :=
    StoreStep.msgDestroy fun m hm => (hs.owed th m (howed m hm)).1
  have hrest : ∀ m ∈ (Pc.calling f full rest).owed,
      (∃ th', m ∈ (s.pc th').owed) ∨ ∃ p, m ∈ s.held p := by
    intro m hm
    refine .inl ⟨th, ?_⟩
    rw [hpc]
    exact List.mem_append_right _ hm
  rcases messages_sessionQueueTask s.sched job with hsame | ⟨sid, hself, hothers⟩
  · apply hs.advance [] release.toList []
    · exact pc_setPc _ _ _
    · rfl
    · intro sid
      rw [sched_setPc, hsame]
    · exact hstore
    · exact List.nodup_nil
    · simpa [hpc, Pc.held] using (List.sublist_append_right _ _).subperm
    · exact hs.spent hguard hreleases howed []
    · exact hrest
  · apply hs.handover [] release.toList [] [.thread th, .jobs sid]
    · exact hs.rendezvous
    · exact hstore
    · refine ⟨by simp, ?_, ?_⟩
      · intro place hplace
        cases place with
        | jobs other =>
            have hother : other ≠ sid := by
              intro heq
              simp [heq] at hplace
            simp only [State.held, sched_setPc, hothers other hother]
        | thread other =>
            have hother : other ≠ th := by
              intro heq
              simp [heq] at hplace
            simp only [State.held, pc_setPc, Function.update_of_ne hother]
            rfl
        | _ => rfl
      · have hperm : (handing rest ++ ((s.sched.sessions sid).messages ++
            job.message.toList)).Perm
            ((job.message.toList ++ handing rest) ++ (s.sched.sessions sid).messages) := by
          rw [← List.append_assoc]
          apply List.perm_append_comm.trans
          rw [← List.append_assoc]
        simpa [State.held, hpc, Pc.held, hself] using hperm.subperm
    · exact List.nodup_nil
    · exact hs.spent hguard hreleases howed []
    · apply owed_of_pc
      · exact pc_setPc _ _ _
      · exact hrest

theorem SingleOwner.close {s : State} (hs : s.SingleOwner) (c : ChannelId) :
    (s.close c).SingleOwner := by
  obtain ⟨hpc, hchannels, hsched, hstore⟩ := s.close_spec c
  by_cases hopen : (s.channels c).status = .channelOpen
  · have hmessages : (channelClose (s.channels c)).2.1 = (s.channels c).messages := by
      simp [channelClose, hopen, queueClear]
    have hempty : (channelClose (s.channels c)).1.messages = [] ∧
        (channelClose (s.channels c)).1.writers = [] := by
      simp [channelClose, hopen, queueClear]
    apply hs.handover [] (s.channels c).messages (s.channels c).messages [.buffer c, .writers c]
    · intro other
      by_cases hother : other = c
      · subst hother
        rw [hchannels, Function.update_self]
        exact channelClose_rendezvous (hs.rendezvous other)
      · rw [hchannels, Function.update_of_ne hother]
        exact hs.rendezvous other
    · rw [hstore, hmessages]
      apply StoreStep.clear
      · exact hs.apart.nodup (.buffer c)
      · exact fun m hm => (hs.counted (.buffer c) m hm).1
    · refine ⟨by simp, ?_, ?_⟩
      · intro place hplace
        cases place with
        | buffer other | writers other =>
            have hother : other ≠ c := by
              intro heq
              simp [heq] at hplace
            simp only [State.held, hchannels, Function.update_of_ne hother]
        | jobs sid => simp only [State.held, hsched]
        | thread th => simp only [State.held, hpc]
      · have hsub : (s.channels c).messages.Sublist
            ((s.channels c).messages ++ (s.channels c).writers.map Writer.message) :=
          List.sublist_append_left _ _
        simpa [State.held, hchannels, hempty.1, hempty.2] using hsub.subperm
    · exact List.nodup_nil
    · exact fun m hm => .inl ⟨hm, .buffer c, hm⟩
    · intro th m hm
      rw [hpc] at hm
      exact .inl ⟨th, hm⟩
  · have hsame : channelClose (s.channels c) = (s.channels c, [], []) := by
      simp [channelClose, hopen]
    rw [hsame] at hchannels hstore
    have hheld : (s.close c).held = s.held := by
      funext place
      cases place <;>
        simp only [State.held, hchannels, hsched, hpc, Function.update_eq_self]
    apply hs.handover [] [] [] []
    · rw [hchannels, Function.update_eq_self]
      exact hs.rendezvous
    · rw [hstore]
      exact StoreStep.refl _
    · rw [hheld]
      exact ⟨List.nodup_nil, fun _ _ => rfl, List.nil_subperm⟩
    · exact List.nodup_nil
    · intro m hm
      cases hm
    · intro th m hm
      rw [hpc] at hm
      exact .inl ⟨th, hm⟩

theorem SingleOwner.luac {s : State} {th : ThreadId} {f : CallFrame} {c : ChannelId}
    {writes : Bool} (hs : s.SingleOwner) : (s.luac th f c writes).SingleOwner := by
  rcases s.luac_cases th f c writes with ⟨_, heq⟩ | ⟨_, heq | heq⟩
  · rw [heq]
    exact hs
  · rw [heq]
    exact hs.quiet (pc_setPc _ _ _) rfl (fun _ => rfl) rfl (.inl rfl) rfl
  · rw [heq]
    apply hs.advance [s.store.msgNew.1] [] []
    · exact pc_setPc _ _ _
    · rfl
    · exact fun _ => rfl
    · exact StoreStep.msgNew s.store
    · exact List.nodup_singleton _
    · simp [Pc.held, Operation.messages]
    · intro m hm
      cases hm
    · intro m hm
      cases hm

theorem SingleOwner.ofSched {s : State} {sched : Scheduler} (hs : s.SingleOwner)
    (hsessions : sched.sessions = s.sched.sessions) : SingleOwner { s with sched := sched } := by
  have hheld : State.held { s with sched := sched } = s.held := by
    funext place
    cases place with
    | jobs sid => simp only [State.held, hsessions]
    | _ => rfl
  refine ⟨hs.rendezvous, ?_, ?_, hs.owed, hs.balanced⟩
  · rw [hheld]
    exact hs.apart
  · rw [hheld]
    exact hs.counted

theorem SingleOwner.refuse {s : State} (hs : s.SingleOwner) :
    SingleOwner { s with store := s.store.msgNew.2 } := by
  apply hs.handover [s.store.msgNew.1] [] [] []
  · exact hs.rendezvous
  · exact StoreStep.msgNew s.store
  · exact ⟨List.nodup_nil, fun _ _ => rfl, List.nil_subperm⟩
  · exact List.nodup_singleton _
  · exact List.forall_mem_nil _
  · exact fun th m hm => .inl ⟨th, hm⟩

theorem SingleOwner.step {s next : State} {a : Label} (hs : s.SingleOwner)
    (hguard : s.ReleaseKept a) (hstep : s.step a = some next) : next.SingleOwner := by
  cases step_cases hstep with
  | newTask sid => exact hs.ofSched rfl
  | gcTask tid => exact hs.ofSched (s.sched.sessions_taskFree tid).1
  | queueTask tid => exact hs.queueJob ⟨tid, none⟩ (StoreStep.refl _)
  | queueMessage tid => exact hs.queueJob _ (StoreStep.msgNew s.store)
  | refuse _ => exact hs.refuse
  | take hpc _ => exact hs.quiet (pc_setPc _ _ _) rfl (fun _ => rfl) rfl (.inl rfl) rfl
  | enterBusy hpc _ => exact hs.quiet (pc_setPc _ _ _) rfl (fun _ => rfl) rfl (.inl rfl) rfl
  | enter hpc henter => exact hs.enter hpc henter
  | runNone hpc => exact hs.quiet (pc_setPc _ _ _) rfl (fun _ => rfl) rfl (.inl rfl) rfl
  | run hpc => exact hs.run hpc
  | luacTask c writes hpc _ => exact hs.luac
  | @luacPlain th c writes hpc =>
      have hframe : SingleOwner { s with nextFrame := s.nextFrame + 1 } :=
        ⟨hs.rendezvous, hs.apart, hs.counted, hs.owed, hs.balanced⟩
      exact hframe.luac
  | testClosed hpc _ => exact hs.quiet (pc_setPc _ _ _) rfl (fun _ => rfl) rfl (.inl rfl) rfl
  | test hpc _ =>
      exact hs.quiet (pc_setPc _ _ _) rfl (fun _ => rfl) rfl (.inr (by rw [hpc]; rfl)) rfl
  | locked hpc hsection => exact hs.locked hpc hsection
  | callback hpc => exact hs.invoke hguard hpc
  | queue hpc => exact hs.queue hguard hpc
  | leaveTask hpc => exact hs.quiet (pc_setPc _ _ _) rfl (fun _ => rfl) rfl (.inl rfl) rfl
  | @leavePlain th frame full hpc =>
      cases full <;> exact hs.quiet (pc_setPc _ _ _) rfl (fun _ => rfl) rfl (.inl rfl) rfl
  | wake hpc => exact hs.quiet (pc_setPc _ _ _) rfl (fun _ => rfl) rfl (.inl rfl) rfl
  | @yielded th sid tid current rc hpc _ =>
      have hsame := (s.sched.sessions_taskRunLeave tid rc true).1
      apply hs.quiet
      · exact pc_setPc _ th _
      · rfl
      · intro other
        rw [sched_setPc, hsame]
      · rfl
      · exact .inl rfl
      · rfl
  | @ended th sid tid rc hpc =>
      have hsame := (s.sched.sessions_taskRunLeave tid rc false).1
      apply hs.quiet
      · exact pc_setPc _ th _
      · rfl
      · intro other
        rw [sched_setPc, hsame]
      · rfl
      · exact .inl rfl
      · rfl
  | @finish th sid hpc =>
      apply hs.quiet
      · exact pc_setPc _ th _
      · rfl
      · intro other
        have hsame := (s.sched.sessionRunLeave_session sid other).1
        simp only [sched_setPc, Session.messages, hsame]
      · rfl
      · exact .inl rfl
      · rfl
  | close c => exact hs.close c

theorem singleOwner_start (size : ChannelId → Int) : (start size).SingleOwner where
  rendezvous c := channelNew_rendezvous (size c)
  apart := by
    constructor
    · intro p
      cases p <;> exact List.nodup_nil
    · intro p q m hm
      cases p <;> cases hm
  counted p m hm := by cases p <;> cases hm
  owed th m hm := by cases hm
  balanced m := Nat.le_refl 0

end State

end Casting.Runtime
