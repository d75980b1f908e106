import Casting.Error
import Casting.Queue
import Mathlib.Data.Option.Basic

/-!
# Channels

`channel_write`, `channel_read` and `channel_close` of `lc_channel.c` on one channel.  Each
operation is given by the pieces between which other threads can run: the test of `status`
before the lock, the section under the lock, and the callbacks made after the unlock.  A value
of type `κ` stands for a `channel_callback` together with its `data` pointer.
-/

namespace Casting

/-- `channel_status_t`, the event a callback is told about. -/
inductive ChannelEvent
  | read
  | write
  | closed
  deriving DecidableEq, Repr

/-- `channel_status`. -/
inductive ChannelStatus
  | channelOpen
  | channelClosed
  deriving DecidableEq, Repr

/-- `reader_t`. -/
structure Reader (κ : Type*) where
  cb : κ
  deriving DecidableEq, Repr

/-- `writer_t`. -/
structure Writer (κ μ : Type*) where
  cb : κ
  message : μ
  deriving DecidableEq, Repr

/-- `channel_t`. -/
structure Channel (κ μ : Type*) where
  bufSize : Nat
  status : ChannelStatus
  messages : Queue μ
  readers : Queue (Reader κ)
  writers : Queue (Writer κ μ)
  deriving DecidableEq, Repr

/-- One call `cb(m, data, event)` of a callback. -/
structure Invocation (κ μ : Type*) where
  cb : κ
  message : Option μ
  event : ChannelEvent
  deriving DecidableEq, Repr

variable {κ μ : Type*}

/-- `INT_MAX`. -/
def intMax : Nat := 2147483647

/-- `channel_new` of an `int`, so of `size` taken to 32 bits. -/
def channelNew (size : Int) : Channel κ μ where
  bufSize := if (BitVec.ofInt 32 size).toInt < 0 then intMax else (BitVec.ofInt 32 size).toNat
  status := .channelOpen
  messages := queueNew
  readers := queueNew
  writers := queueNew

/-- What the locked section of `channel_write` leaves in the local variables. -/
structure WriteLocals (κ μ : Type*) where
  rc : ReturnCode
  r : Option (Reader κ)
  m : Option μ
  w : Option (Writer κ μ)
  deriving DecidableEq, Repr

/-- The first half of the locked section: the message goes to the buffer, or its writer is
parked. -/
def channelAccept (c : Channel κ μ) (message : μ) (cb : κ) : Channel κ μ × ReturnCode :=
  if queueSize c.messages < c.bufSize then
    ({ c with messages := queuePush c.messages message }, .success)
  else
    ({ c with writers := queuePush c.writers ⟨cb, message⟩ }, .errFull)

/-- The second half: a parked reader, if there is one, is served from both queues. -/
def channelServe (c : Channel κ μ) (rc : ReturnCode) : Channel κ μ × WriteLocals κ μ :=
  match queuePop c.readers with
  | (none, _) => (c, ⟨rc, none, none, none⟩)
  | (some r, readers) =>
      let (m, messages) := queuePop c.messages
      let (w, writers) := queuePop c.writers
      ({ c with readers := readers, messages := messages, writers := writers },
        ⟨rc, some r, m, w⟩)

def channelWriteLocked (c : Channel κ μ) (message : μ) (cb : κ) :
    Channel κ μ × WriteLocals κ μ :=
  let (c, rc) := channelAccept c message cb
  channelServe c rc

/-- The call back to a writer whose message `m` has been taken. -/
def wroteInvocation (w : Option (Writer κ μ)) (m : Writer κ μ → μ) : List (Invocation κ μ) :=
  w.toList.map fun w => ⟨w.cb, some (m w), .write⟩

/-- The callbacks of `channel_write` after the unlock, in order.  `none` is the dereference of
a null `w`, reached with a reader popped but neither a message nor a writer. -/
def channelWriteCallbacks (message : μ) (cb : κ) (l : WriteLocals κ μ) :
    Option (List (Invocation κ μ)) :=
  let own : List (Invocation κ μ) :=
    if l.rc = .success then [⟨cb, some message, .write⟩] else []
  match l.r with
  | none => some own
  | some r =>
      (l.m.or (l.w.map Writer.message)).map fun m =>
        own ++ ⟨r.cb, some m, .read⟩ :: wroteInvocation l.w Writer.message

/-- What the locked section of `channel_read` leaves in the local variables. -/
structure ReadLocals (κ μ : Type*) where
  rc : ReturnCode
  m : Option μ
  w : Option (Writer κ μ)
  deriving DecidableEq, Repr

def channelReadLocked (c : Channel κ μ) (cb : κ) : Channel κ μ × ReadLocals κ μ :=
  let (m, messages) := queuePop c.messages
  let (w, writers) := queuePop c.writers
  let c := { c with messages := messages, writers := writers }
  match m, w with
  | none, none => ({ c with readers := queuePush c.readers ⟨cb⟩ }, ⟨.errEmpty, none, none⟩)
  | m, w => (c, ⟨.success, m, w⟩)

/-- The callbacks of `channel_read` after the unlock.  The writer's callback is passed the
message the reader got, whichever queue that came from. -/
def channelReadCallbacks (cb : κ) (l : ReadLocals κ μ) : Option (List (Invocation κ μ)) :=
  if l.rc = .success then
    (l.m.or (l.w.map Writer.message)).map fun m =>
      ⟨cb, some m, .read⟩ :: wroteInvocation l.w fun _ => m
  else
    some []

/-- A call that ends: the channel it leaves, its return code, and the callbacks it made. -/
structure CallResult (κ μ : Type*) where
  channel : Channel κ μ
  rc : ReturnCode
  invocations : List (Invocation κ μ)
  deriving DecidableEq, Repr

/-- `channel_write` run from start to end with no other thread in between.  A missing argument
is a null pointer. -/
def channelWrite (c : Channel κ μ) (message : Option μ) (cb : Option κ) :
    Option (CallResult κ μ) :=
  match message, cb with
  | some message, some cb =>
      if c.status = .channelClosed then
        some ⟨c, .errClosed, []⟩
      else
        let (c, l) := channelWriteLocked c message cb
        (channelWriteCallbacks message cb l).map fun calls => ⟨c, l.rc, calls⟩
  | _, _ => some ⟨c, .errInval, []⟩

/-- `channel_read` run from start to end with no other thread in between. -/
def channelRead (c : Channel κ μ) (cb : Option κ) : Option (CallResult κ μ) :=
  match cb with
  | some cb =>
      if c.status = .channelClosed then
        some ⟨c, .errClosed, []⟩
      else
        let (c, l) := channelReadLocked c cb
        (channelReadCallbacks cb l).map fun calls => ⟨c, l.rc, calls⟩
  | none => some ⟨c, .errInval, []⟩

/-- `channel_close`: the section under the lock, with the releases `rel_message`, `rel_reader`
and `rel_writer` made by the three `queue_clear` calls.  The first list holds the messages that
`msg_destroy` is called on. -/
def channelClose (c : Channel κ μ) : Channel κ μ × List μ × List (Invocation κ μ) :=
  if c.status = .channelOpen then
    let (messages, released) := queueClear c.messages
    let (readers, oldReaders) := queueClear c.readers
    let (writers, oldWriters) := queueClear c.writers
    ({ c with messages := messages, readers := readers, writers := writers,
              status := .channelClosed },
      released,
      oldReaders.map (fun r => ⟨r.cb, none, .closed⟩) ++
        oldWriters.map (fun w => ⟨w.cb, some w.message, .closed⟩))
  else
    (c, [], [])

theorem channelWrite_of_open {c : Channel κ μ} (hopen : c.status = .channelOpen) (message : μ)
    (cb : κ) :
    channelWrite c (some message) (some cb) =
      (channelWriteCallbacks message cb (channelWriteLocked c message cb).2).map fun calls =>
        ⟨(channelWriteLocked c message cb).1, (channelWriteLocked c message cb).2.rc, calls⟩ :=
  if_neg (by simp [hopen])

theorem channelRead_of_open {c : Channel κ μ} (hopen : c.status = .channelOpen) (cb : κ) :
    channelRead c (some cb) =
      (channelReadCallbacks cb (channelReadLocked c cb).2).map fun calls =>
        ⟨(channelReadLocked c cb).1, (channelReadLocked c cb).2.rc, calls⟩ :=
  if_neg (by simp [hopen])

/-! ### What an operation can do -/

/-- The relation between the three queues that every operation keeps: a reader waits only
while there is nothing to read, and the buffer is never over its size, which is an `int`. -/
structure Rendezvous (c : Channel κ μ) : Prop where
  idle : c.readers = [] ∨ (c.messages = [] ∧ c.writers = [])
  bounded : c.messages.length ≤ c.bufSize
  small : c.bufSize < 2 ^ 31

theorem channelNew_rendezvous (size : Int) : Rendezvous (channelNew size : Channel κ μ) where
  idle := .inl rfl
  bounded := Nat.zero_le _
  small := by
    simp only [channelNew, intMax]
    have htoInt := BitVec.toInt_eq_toNat_cond (BitVec.ofInt 32 size)
    split at htoInt <;> split <;> omega

/-- So the wrapping `int` of `queue_size` is the number of buffered messages. -/
theorem Rendezvous.queueSize_messages {c : Channel κ μ} (hc : Rendezvous c) :
    queueSize c.messages = c.messages.length :=
  queueSize_of_small (Nat.lt_of_le_of_lt hc.bounded hc.small)

theorem channelWriteLocked_cases {c : Channel κ μ} (hc : Rendezvous c) (message : μ) (cb : κ) :
    (c.readers = [] ∧ c.messages.length < c.bufSize ∧
      channelWriteLocked c message cb =
        ({ c with messages := c.messages ++ [message] }, ⟨.success, none, none, none⟩)) ∨
    (c.readers = [] ∧ c.messages.length = c.bufSize ∧
      channelWriteLocked c message cb =
        ({ c with writers := c.writers ++ [⟨cb, message⟩] }, ⟨.errFull, none, none, none⟩)) ∨
    (∃ r rest, c.readers = r :: rest ∧ c.messages = [] ∧ c.writers = [] ∧ 0 < c.bufSize ∧
      channelWriteLocked c message cb =
        ({ c with readers := rest }, ⟨.success, some r, some message, none⟩)) ∨
    (∃ r rest, c.readers = r :: rest ∧ c.messages = [] ∧ c.writers = [] ∧ c.bufSize = 0 ∧
      channelWriteLocked c message cb =
        ({ c with readers := rest }, ⟨.errFull, some r, none, some ⟨cb, message⟩⟩)) := by
  have hsize := hc.queueSize_messages
  obtain ⟨bufSize, status, messages, readers, writers⟩ := c
  obtain ⟨hidle, hbound, -⟩ := hc
  simp only at hidle hbound hsize ⊢
  cases readers with
  | nil =>
      rcases Nat.lt_or_ge messages.length bufSize with hroom | hfull
      · refine .inl ⟨rfl, hroom, ?_⟩
        simp [channelWriteLocked, channelAccept, channelServe, hsize, queuePush, hroom]
      · refine .inr (.inl ⟨rfl, Nat.le_antisymm hbound hfull, ?_⟩)
        simp [channelWriteLocked, channelAccept, channelServe, hsize, queuePush,
          Nat.not_lt.mpr hfull]
  | cons r rest =>
      obtain ⟨rfl, rfl⟩ : messages = [] ∧ writers = [] := by simpa using hidle
      rcases Nat.eq_zero_or_pos bufSize with rfl | hpos
      · refine .inr (.inr (.inr ⟨r, rest, rfl, rfl, rfl, rfl, ?_⟩))
        simp [channelWriteLocked, channelAccept, channelServe, queuePush]
      · refine .inr (.inr (.inl ⟨r, rest, rfl, rfl, rfl, hpos, ?_⟩))
        simp [channelWriteLocked, channelAccept, channelServe, queuePush, hpos]

theorem channelReadLocked_cases (c : Channel κ μ) (cb : κ) :
    (c.messages = [] ∧ c.writers = [] ∧
      channelReadLocked c cb =
        ({ c with readers := c.readers ++ [⟨cb⟩] }, ⟨.errEmpty, none, none⟩)) ∨
    ((c.messages ≠ [] ∨ c.writers ≠ []) ∧
      channelReadLocked c cb =
        ({ c with messages := c.messages.tail, writers := c.writers.tail },
          ⟨.success, c.messages.head?, c.writers.head?⟩)) := by
  obtain ⟨bufSize, status, messages, readers, writers⟩ := c
  cases messages <;> cases writers <;> simp [channelReadLocked, queuePush]

theorem channelWriteLocked_rendezvous {c : Channel κ μ} (hc : Rendezvous c) (message : μ)
    (cb : κ) : Rendezvous (channelWriteLocked c message cb).1 := by
  rcases channelWriteLocked_cases hc message cb with
    ⟨hr, hroom, heq⟩ | ⟨hr, _, heq⟩ | ⟨r, rest, _, hm, hw, _, heq⟩ | ⟨r, rest, _, hm, hw, _, heq⟩
  all_goals rw [heq]
  · exact ⟨.inl hr, by simpa using Nat.succ_le_of_lt hroom, hc.small⟩
  · exact ⟨.inl hr, hc.bounded, hc.small⟩
  · exact ⟨.inr ⟨hm, hw⟩, hc.bounded, hc.small⟩
  · exact ⟨.inr ⟨hm, hw⟩, hc.bounded, hc.small⟩

theorem channelReadLocked_rendezvous {c : Channel κ μ} (hc : Rendezvous c) (cb : κ) :
    Rendezvous (channelReadLocked c cb).1 := by
  rcases channelReadLocked_cases c cb with ⟨hm, hw, heq⟩ | ⟨hne, heq⟩
  · rw [heq]
    exact ⟨.inr ⟨hm, hw⟩, hc.bounded, hc.small⟩
  · rw [heq]
    have hr : c.readers = [] := by
      rcases hc.idle with hr | ⟨hm, hw⟩
      · exact hr
      · exact absurd hne (by simp [hm, hw])
    refine ⟨.inl hr, ?_, hc.small⟩
    have hlen : c.messages.tail.length ≤ c.messages.length := by simp
    exact Nat.le_trans hlen hc.bounded

theorem channelClose_rendezvous {c : Channel κ μ} (hc : Rendezvous c) :
    Rendezvous (channelClose c).1 := by
  unfold channelClose
  split
  · exact ⟨.inl rfl, Nat.zero_le _, hc.small⟩
  · exact hc

@[simp]
theorem channelAccept_status (c : Channel κ μ) (message : μ) (cb : κ) :
    (channelAccept c message cb).1.status = c.status := by
  unfold channelAccept
  split <;> rfl

@[simp]
theorem channelServe_status (c : Channel κ μ) (rc : ReturnCode) :
    (channelServe c rc).1.status = c.status := by
  unfold channelServe
  split <;> rfl

@[simp]
theorem channelWriteLocked_status (c : Channel κ μ) (message : μ) (cb : κ) :
    (channelWriteLocked c message cb).1.status = c.status := by
  simp [channelWriteLocked]

@[simp]
theorem channelReadLocked_status (c : Channel κ μ) (cb : κ) :
    (channelReadLocked c cb).1.status = c.status := by
  rcases channelReadLocked_cases c cb with ⟨_, _, heq⟩ | ⟨_, heq⟩ <;> rw [heq]

end Casting
