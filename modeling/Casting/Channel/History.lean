import Casting.Channel.Operations
import Casting.Framework.Transition

/-!
# Sequences of calls on one channel

Calls of `channel_write` and `channel_read` executed one after another on an open channel, with
the callbacks they made.  The messages passed to `channel_write` are followed through three
places: handed to a read callback, in `messages`, or parked in `writers`.
-/

namespace Casting

open Transition

variable {κ μ : Type*}

/-- A call of `channel_write` or `channel_read` with non-null arguments. -/
inductive Call (κ μ : Type*)
  | write (message : μ) (cb : κ)
  | read (cb : κ)
  deriving DecidableEq, Repr

/-- The channel with the callbacks made so far and the messages passed to `channel_write`. -/
structure History (κ μ : Type*) where
  channel : Channel κ μ
  invocations : List (Invocation κ μ)
  written : List μ
  deriving DecidableEq, Repr

namespace History

/-- The state after `channel_new(size)`. -/
def start (size : Int) : History κ μ := ⟨channelNew size, [], []⟩

def call (h : History κ μ) : Call κ μ → Option (History κ μ)
  | .write message cb =>
      (channelWrite h.channel (some message) (some cb)).map fun res =>
        ⟨res.channel, h.invocations ++ res.invocations, h.written ++ [message]⟩
  | .read cb =>
      (channelRead h.channel (some cb)).map fun res =>
        ⟨res.channel, h.invocations ++ res.invocations, h.written⟩

end History

/-- The message passed to a callback that is told `read`. -/
def Invocation.handedMessage (i : Invocation κ μ) : Option μ :=
  if i.event = .read then i.message else none

def Call.message? : Call κ μ → Option μ
  | .write message _ => some message
  | .read _ => none

/-- The messages that a sequence of calls passes to `channel_write`, in order. -/
def messagesOf (calls : List (Call κ μ)) : List μ := calls.filterMap Call.message?

namespace History

def handed (h : History κ μ) : List μ := h.invocations.filterMap Invocation.handedMessage

def buffered (h : History κ μ) : List μ := h.channel.messages

/-- The message fields of the entries in `writers`. -/
def parked (h : History κ μ) : List μ := h.channel.writers.map Writer.message

/-- What every history of calls on an open channel keeps. -/
structure Kept (h : History κ μ) : Prop where
  isOpen : h.channel.status = .channelOpen
  rendezvous : Rendezvous h.channel

theorem start_kept (size : Int) : Kept (start size : History κ μ) where
  isOpen := rfl
  rendezvous := channelNew_rendezvous size

theorem call_write {h : History κ μ} (hk : Kept h) (message : μ) (cb : κ) :
    ∃ next, h.call (.write message cb) = some next ∧ Kept next ∧
      next.channel.bufSize = h.channel.bufSize ∧ next.written = h.written ++ [message] ∧
      ((h.buffered.length < h.channel.bufSize ∧ next.handed = h.handed ∧
          next.buffered = h.buffered ++ [message] ∧ next.parked = h.parked) ∨
        (h.buffered.length = h.channel.bufSize ∧ next.handed = h.handed ∧
          next.buffered = h.buffered ∧ next.parked = h.parked ++ [message]) ∨
        (h.buffered = [] ∧ h.parked = [] ∧ next.handed = h.handed ++ [message] ∧
          next.buffered = [] ∧ next.parked = [])) := by
  have hopen := hk.isOpen
  have hkept := channelWriteLocked_rendezvous hk.rendezvous message cb
  have hstatus := channelWriteLocked_status h.channel message cb
  rcases channelWriteLocked_cases hk.rendezvous message cb with
    ⟨_, hroom, heq⟩ | ⟨_, hfull, heq⟩ | ⟨r, rest, _, hm, hw, _, heq⟩ |
    ⟨r, rest, _, hm, hw, _, heq⟩
  all_goals
    rw [heq] at hkept hstatus
    rw [call, channelWrite_of_open hopen, heq]
    refine ⟨_, rfl, ⟨hopen, hkept⟩, rfl, rfl, ?_⟩
  · refine .inl ⟨hroom, ?_, rfl, rfl⟩
    simp [handed, Invocation.handedMessage]
  · refine .inr (.inl ⟨hfull, ?_, rfl, ?_⟩)
    · simp [handed]
    · simp [parked]
  · refine .inr (.inr ⟨hm, ?_, ?_, hm, ?_⟩)
    all_goals simp [parked, hw, handed, Invocation.handedMessage, wroteInvocation]
  · refine .inr (.inr ⟨hm, ?_, ?_, hm, ?_⟩)
    all_goals simp [parked, hw, handed, Invocation.handedMessage, wroteInvocation]

/-- A call of `channel_read` returns; it takes the head of each queue and hands over one. -/
theorem call_read {h : History κ μ} (hk : Kept h) (cb : κ) :
    ∃ next, h.call (.read cb) = some next ∧ Kept next ∧
      next.channel.bufSize = h.channel.bufSize ∧ next.written = h.written ∧
      next.buffered = h.buffered.tail ∧ next.parked = h.parked.tail ∧
      next.handed = h.handed ++ (h.buffered ++ h.parked).head?.toList := by
  have hopen := hk.isOpen
  have hkept := channelReadLocked_rendezvous hk.rendezvous cb
  rcases channelReadLocked_cases h.channel cb with ⟨hm, hw, heq⟩ | ⟨hne, heq⟩
  · rw [heq] at hkept
    rw [call, channelRead_of_open hopen, heq]
    refine ⟨_, rfl, ⟨hopen, hkept⟩, rfl, rfl, ?_, ?_, ?_⟩
    all_goals simp [buffered, parked, handed, hm, hw]
  · rw [heq] at hkept
    rw [call, channelRead_of_open hopen, heq]
    cases hm : h.channel.messages with
    | nil =>
        cases hw : h.channel.writers with
        | nil => exact absurd hne (by simp [hm, hw])
        | cons w ws =>
            rw [hm, hw] at hkept
            refine ⟨_, rfl, ⟨hopen, hkept⟩, rfl, rfl, ?_, ?_, ?_⟩
            all_goals
              simp [buffered, parked, handed, hm, hw, Invocation.handedMessage, wroteInvocation]
    | cons m ms =>
        rw [hm] at hkept
        refine ⟨_, rfl, ⟨hopen, hkept⟩, rfl, rfl, ?_, ?_, ?_⟩
        · simp [buffered, hm]
        · simp [parked]
        · cases hw : h.channel.writers <;>
            simp [buffered, handed, hm, Invocation.handedMessage, wroteInvocation]

theorem run_call_total {h : History κ μ} (hk : Kept h) (calls : List (Call κ μ)) :
    ∃ final, run call h calls = some final := by
  refine run_total (I := Kept) ?_ hk calls
  intro h c hk
  cases c with
  | write message cb =>
      obtain ⟨next, hnext, hkept, _⟩ := call_write hk message cb
      exact ⟨next, hnext, hkept⟩
  | read cb =>
      obtain ⟨next, hnext, hkept, _⟩ := call_read hk cb
      exact ⟨next, hnext, hkept⟩

end History

end Casting
