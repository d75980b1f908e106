import Casting.Channel.Operations
import Casting.Framework.Atomicity

/-!
# Channels under the spin lock

The functions of `lc_channel.c` on one channel, for any number of threads and one queue call at a
time: the test of `status` without the lock, the attempts on the lock word and the section under
the lock.  Every history of calls and returns is one in which each section is a single step.
-/

namespace Casting

open Transition Atomicity

/-! ### The spin lock of `lc_thread.c` -/

/-- `atomic_int_cas`. -/
def atomicIntCas (addr o n : ℤ) : ℤ × Bool := if addr = o then (n, true) else (addr, false)

/-- `atomic_int_tas`: the new value, and the old one that is returned. -/
def atomicIntTas (addr n : ℤ) : ℤ × ℤ := (n, addr)

/-- `lc_spin_init`. -/
def lcSpinInit : ℤ := 0

/-- One round of the loop of `lc_spin_lock`; it ends with the round that succeeds. -/
def lcSpinTrylock (s : ℤ) : ℤ × Bool := atomicIntCas s 0 1

def lcSpinUnlock (s : ℤ) : ℤ := (atomicIntTas s 0).1

def lcSpin : LockWord ℤ where
  free := lcSpinInit
  held := 1
  tryLock := lcSpinTrylock
  unlock := lcSpinUnlock
  tryLock_free := rfl
  tryLock_held := rfl
  unlock_held := rfl

variable {κ μ : Type*}

inductive ChannelCall (κ μ : Type*)
  | write (message : μ) (cb : κ)
  | read (cb : κ)
  | close
  | count
  | status
  deriving DecidableEq, Repr

/-- What a call has in its local variables when it is done with the channel. -/
inductive CallLocals (κ μ : Type*)
  | refused
  | wrote (l : WriteLocals κ μ)
  | read (l : ReadLocals κ μ)
  | closed (released : List μ) (invocations : List (Invocation κ μ))
  | counted (count : ℤ)
  | status (status : ChannelStatus)
  deriving DecidableEq, Repr

/-! ### The sections, one queue call at a time -/

def popReader (c : Channel κ μ) : Channel κ μ := { c with readers := (queuePop c.readers).2 }

def popMessage (c : Channel κ μ) : Channel κ μ := { c with messages := (queuePop c.messages).2 }

def popWriter (c : Channel κ μ) : Channel κ μ := { c with writers := (queuePop c.writers).2 }

/-- The second half of `channel_write`, from `queue_pop(c->readers)` on. -/
def serveSection (rc : ReturnCode) : Section (Channel κ μ) (CallLocals κ μ) :=
  .act popReader fun c =>
    match (queuePop c.readers).1 with
    | none => .done (.wrote ⟨rc, none, none, none⟩)
    | some r =>
        .act popMessage fun c =>
          let m := (queuePop c.messages).1
          .act popWriter fun c => .done (.wrote ⟨rc, some r, m, (queuePop c.writers).1⟩)

def writeSection (message : μ) (cb : κ) : Section (Channel κ μ) (CallLocals κ μ) :=
  -- `queue_size(c->messages)` changes nothing
  .act id fun c =>
    if queueSize c.messages < c.bufSize then
      .act (fun c => { c with messages := queuePush c.messages message }) fun _ =>
        serveSection .success
    else
      .act (fun c => { c with writers := queuePush c.writers ⟨cb, message⟩ }) fun _ =>
        serveSection .errFull

def readSection (cb : κ) : Section (Channel κ μ) (CallLocals κ μ) :=
  .act popMessage fun c =>
    let m := (queuePop c.messages).1
    .act popWriter fun c =>
      match m, (queuePop c.writers).1 with
      | none, none =>
          .act (fun c => { c with readers := queuePush c.readers ⟨cb⟩ }) fun _ =>
            .done (.read ⟨.errEmpty, none, none⟩)
      | m, w => .done (.read ⟨.success, m, w⟩)

def closeSection : Section (Channel κ μ) (CallLocals κ μ) :=
  .act id fun c =>
    if c.status = .channelOpen then
      .act (fun c => { c with messages := (queueClear c.messages).1 }) fun c =>
        let released := (queueClear c.messages).2
        .act (fun c => { c with readers := (queueClear c.readers).1 }) fun c =>
          let oldReaders := (queueClear c.readers).2
          .act (fun c => { c with writers := (queueClear c.writers).1 }) fun c =>
            let oldWriters := (queueClear c.writers).2
            .act (fun c => { c with status := .channelClosed }) fun _ =>
              .done (.closed released
                (oldReaders.map (fun r => ⟨r.cb, none, .closed⟩) ++
                  oldWriters.map (fun w => ⟨w.cb, some w.message, .closed⟩)))
    else
      .done (.closed [] [])

def countSection : Section (Channel κ μ) (CallLocals κ μ) :=
  .act id fun c => .done (.counted (queueSize c.messages))

/-- `channel_write` and `channel_read` test the status without the lock, and `luac_status` reads
it without; the others go for the lock at once. -/
def ChannelCall.routine : ChannelCall κ μ →
    Routine (Channel κ μ) ChannelStatus (CallLocals κ μ)
  | .write message cb =>
      ⟨fun status => if status = .channelClosed then some .refused else none,
        writeSection message cb⟩
  | .read cb =>
      ⟨fun status => if status = .channelClosed then some .refused else none, readSection cb⟩
  | .close => ⟨fun _ => none, closeSection⟩
  | .count => ⟨fun _ => none, countSection⟩
  | .status => ⟨fun status => some (.status status), .done .refused⟩

def ChannelCall.locked : ChannelCall κ μ → Channel κ μ → Channel κ μ × CallLocals κ μ
  | .write message cb, c =>
      let (c, l) := channelWriteLocked c message cb
      (c, .wrote l)
  | .read cb, c =>
      let (c, l) := channelReadLocked c cb
      (c, .read l)
  | .close, c =>
      let (c, released, invocations) := channelClose c
      (c, .closed released invocations)
  | .count, c => (c, .counted (queueSize c.messages))
  | .status, c => (c, .refused)

theorem serveSection_exec (rc : ReturnCode) (c : Channel κ μ) :
    (serveSection rc).exec c = ((channelServe c rc).1, .wrote (channelServe c rc).2) := by
  obtain ⟨bufSize, status, messages, readers, writers⟩ := c
  cases readers <;> rfl

theorem writeSection_exec (message : μ) (cb : κ) (c : Channel κ μ) :
    (writeSection message cb).exec c = (ChannelCall.write message cb).locked c := by
  simp only [writeSection, Section.exec, id_eq, ChannelCall.locked, channelWriteLocked,
    channelAccept]
  split <;> simp only [Section.exec, serveSection_exec]

theorem readSection_exec (cb : κ) (c : Channel κ μ) :
    (readSection cb).exec c = (ChannelCall.read cb).locked c := by
  obtain ⟨bufSize, status, messages, readers, writers⟩ := c
  cases messages <;> cases writers <;> rfl

theorem closeSection_exec (c : Channel κ μ) :
    (closeSection.exec c : Channel κ μ × CallLocals κ μ) = ChannelCall.close.locked c := by
  simp only [closeSection, Section.exec, id_eq, ChannelCall.locked, channelClose]
  split <;> rfl

theorem ChannelCall.routine_exec (call : ChannelCall κ μ) (c : Channel κ μ) :
    call.routine.body.exec c = call.locked c := by
  cases call with
  | write message cb => exact writeSection_exec message cb c
  | read cb => exact readSection_exec cb c
  | close => exact closeSection_exec c
  | count => rfl
  | status => rfl

theorem serveSection_late (rc : ReturnCode) :
    (serveSection rc : Section (Channel κ μ) _).Late Channel.status := by
  refine .act (fun _ => rfl) ?_
  intro c
  cases (queuePop c.readers).1 with
  | none => exact .done _
  | some r => exact .act (fun _ => rfl) fun c => .act (fun _ => rfl) fun _ => .done _

/-- `channel_close` writes the status last, the other sections not at all. -/
theorem ChannelCall.routine_late (call : ChannelCall κ μ) :
    call.routine.body.Late Channel.status := by
  cases call with
  | write message cb =>
      refine .act (fun _ => rfl) ?_
      intro c
      change (if _ then _ else _ : Section (Channel κ μ) _).Late Channel.status
      split
      · exact .act (fun _ => rfl) fun _ => serveSection_late .success
      · exact .act (fun _ => rfl) fun _ => serveSection_late .errFull
  | read cb =>
      refine .act (fun _ => rfl) fun c => .act (fun _ => rfl) fun c' => ?_
      split
      · exact .act (fun _ => rfl) fun _ => .done _
      · exact .done _
  | close =>
      refine .act (fun _ => rfl) ?_
      intro c
      change (if _ then _ else _ : Section (Channel κ μ) _).Late Channel.status
      split
      · refine .act (fun _ => rfl) fun c => .act (fun _ => rfl) fun c' => ?_
        exact .act (fun _ => rfl) fun c => .last
      · exact .done _
  | count => exact .act (fun _ => rfl) fun _ => .done _
  | status => exact .done _

/-! ### Any number of threads -/

theorem ChannelCall.locked_rendezvous (call : ChannelCall κ μ) {c : Channel κ μ}
    (hc : Rendezvous c) : Rendezvous (call.locked c).1 := by
  cases call with
  | write message cb => exact channelWriteLocked_rendezvous hc message cb
  | read cb => exact channelReadLocked_rendezvous hc cb
  | close => exact channelClose_rendezvous hc
  | count => exact hc
  | status => exact hc

section Threads

variable [DecidableEq κ] [DecidableEq μ]

/-- A channel shared by threads that go through the code instruction by instruction. -/
abbrev SharedChannel (κ μ : Type*) := Spinning ℤ (ChannelCall κ μ) (Channel κ μ) (CallLocals κ μ)

abbrev AtomicChannel (κ μ : Type*) := Atomic (ChannelCall κ μ) (Channel κ μ) (CallLocals κ μ)

abbrev SharedChannel.step : SharedChannel κ μ → SpinLabel (ChannelCall κ μ) (CallLocals κ μ) →
    Option (SharedChannel κ μ) :=
  Spinning.step lcSpin ChannelCall.routine Channel.status

abbrev AtomicChannel.step : AtomicChannel κ μ →
    AtomicLabel (ChannelCall κ μ) (CallLocals κ μ) → Option (AtomicChannel κ μ) :=
  Atomic.step Channel.status (fun call => call.routine.entry) ChannelCall.locked

def SharedChannel.start (n : ℕ) (size : ℤ) : SharedChannel κ μ :=
  Spinning.start lcSpin n (channelNew size)

def AtomicChannel.start (n : ℕ) (size : ℤ) : AtomicChannel κ μ :=
  Atomic.start n (channelNew size)

theorem AtomicChannel.step_rendezvous {a a' : AtomicChannel κ μ}
    {x : AtomicLabel (ChannelCall κ μ) (CallLocals κ μ)} (ha : Rendezvous a.shared)
    (hstep : a.step x = some a') : Rendezvous a'.shared := by
  cases x with
  | event e =>
      cases e with
      | enter i call =>
          simp only [AtomicChannel.step, Atomic.step] at hstep
          split at hstep
          · split at hstep
            · cases hstep
              exact ha
            · cases hstep
              exact ha
          · cases hstep
      | leave i result =>
          simp only [AtomicChannel.step, Atomic.step] at hstep
          split at hstep
          · split at hstep
            · cases hstep
              exact ha
            · cases hstep
          · cases hstep
  | commit i =>
      simp only [AtomicChannel.step, Atomic.step] at hstep
      split at hstep
      · cases hstep
        exact ChannelCall.locked_rendezvous _ ha
      · cases hstep

/-- Whatever the threads do between each other's instructions, their calls and returns are those
of a run in which every section is one step; one thread at most holds the lock, and while none
does the channel is the one of that run. -/
theorem SharedChannel.linearizable (size : ℤ) (n : ℕ)
    (labels : List (SpinLabel (ChannelCall κ μ) (CallLocals κ μ))) {s : SharedChannel κ μ}
    (hrun : run SharedChannel.step (SharedChannel.start n size) labels = some s) :
    ∃ (steps : List (AtomicLabel (ChannelCall κ μ) (CallLocals κ μ))) (a : AtomicChannel κ μ),
      run AtomicChannel.step (AtomicChannel.start n size) steps = some a ∧
      steps.filterMap AtomicLabel.event? = labels.filterMap SpinLabel.event? ∧
      a.threads = s.threads.map Phase.whole ∧ Rendezvous a.shared ∧
      s.threads.countP Phase.isInside ≤ 1 ∧ s.shared.status = a.shared.status ∧
      (s.word = 0 → s.threads.countP Phase.isInside = 0 ∧ s.shared = a.shared) := by
  obtain ⟨steps, a, hsteps, hevents, hsim⟩ :=
    Simulates.run ChannelCall.routine_late ChannelCall.routine_exec
      (start_simulates n (channelNew size)) hrun
  have hrendezvous : Rendezvous a.shared :=
    (respects_of_forall (p := fun _ => True) (fun _ _ => trivial) _).run_invariant
      (I := fun a : AtomicChannel κ μ => Rendezvous a.shared)
      (fun a x a' ha _ hstep => AtomicChannel.step_rendezvous ha hstep)
      (channelNew_rendezvous size) hsteps
  refine ⟨steps, a, hsteps, hevents, hsim.threads, hrendezvous, hsim.one, hsim.seen, ?_⟩
  intro hfree
  obtain ⟨hshared, hnone⟩ := hsim.of_free hfree
  exact ⟨hnone, hshared⟩

end Threads

/-- A message is written while another thread asks for the lock to close the channel, and the
status is read in the middle of `channel_close`. -/
theorem SharedChannel.linearizable_write_close :
    ∃ (steps : List (AtomicLabel (ChannelCall ℕ ℕ) (CallLocals ℕ ℕ))) (a : AtomicChannel ℕ ℕ),
      run AtomicChannel.step (AtomicChannel.start 2 1) steps = some a ∧
      steps.filterMap AtomicLabel.event? =
        [.enter 0 (.write 5 9), .enter 1 .close, .leave 0 (.wrote ⟨.success, none, none, none⟩),
          .enter 0 .status, .leave 0 (.status .channelOpen), .leave 1 (.closed [5] [])] ∧
      a.shared.status = .channelClosed := by
  obtain ⟨steps, a, hsteps, hevents, _, _, _, hstatus, _⟩ :=
    SharedChannel.linearizable (κ := ℕ) (μ := ℕ) 1 2
      [.event (.enter 0 (.write 5 9)), .attempt 0, .act 0, .event (.enter 1 .close), .attempt 1,
        .act 0, .act 0, .unlock 0, .attempt 1, .act 1, .act 1,
        .event (.leave 0 (.wrote ⟨.success, none, none, none⟩)), .event (.enter 0 .status),
        .event (.leave 0 (.status .channelOpen)), .act 1, .act 1, .act 1, .unlock 1,
        .event (.leave 1 (.closed [5] []))] rfl
  exact ⟨steps, a, hsteps, hevents, hstatus.symm⟩

end Casting
