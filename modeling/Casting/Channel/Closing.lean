import Casting.Channel.History

/-!
# Closing a channel under concurrent callers

`channel_write` and `channel_read` test `status` before they take the lock and do not test it
again inside.  Here the two are separate steps of any number of callers, and `channel_close` is
one step.  The callbacks made after the unlock do not touch the channel.
-/

namespace Casting

open Transition

variable {κ μ : Type*}

/-- The locked section of a call that has passed the status test. -/
def Call.lockedSection (c : Channel κ μ) : Call κ μ → Channel κ μ
  | .write message cb => (channelWriteLocked c message cb).1
  | .read cb => (channelReadLocked c cb).1

/-- A channel with the calls that are between their status test and their locked section. -/
structure Callers (κ μ : Type*) where
  channel : Channel κ μ
  tested : List (Call κ μ)
  deriving DecidableEq, Repr

/-- One step of some caller; `locked i` is the locked section of the `i`-th waiting call. -/
inductive CallerStep (κ μ : Type*)
  | test (call : Call κ μ)
  | locked (i : Nat)
  | close
  deriving DecidableEq, Repr

namespace Callers

def start (size : Int) : Callers κ μ := ⟨channelNew size, []⟩

def step (s : Callers κ μ) : CallerStep κ μ → Option (Callers κ μ)
  | .test call =>
      -- a call that finds the channel closed returns `ERR_CLOSED` and goes no further
      if s.channel.status = .channelClosed then some s
      else some { s with tested := s.tested ++ [call] }
  | .locked i =>
      s.tested[i]?.map fun call => ⟨call.lockedSection s.channel, s.tested.eraseIdx i⟩
  | .close => some { s with channel := (channelClose s.channel).1 }

/-- A closed channel has nothing buffered and nobody parked. -/
def ClosedHoldsNothing (s : Callers κ μ) : Prop :=
  s.channel.status = .channelClosed →
    s.channel.messages = [] ∧ s.channel.readers = [] ∧ s.channel.writers = []

/-- The step is not the locked section of a call that was overtaken by `channel_close`. -/
def LockedWhileOpen (s : Callers κ μ) : CallerStep κ μ → Prop
  | .locked _ => s.channel.status = .channelOpen
  | _ => True

instance (s : Callers κ μ) (a : CallerStep κ μ) : Decidable (s.LockedWhileOpen a) :=
  match a with
  | .locked _ => inferInstanceAs (Decidable (s.channel.status = .channelOpen))
  | .test _ => .isTrue trivial
  | .close => .isTrue trivial

theorem lockedSection_status (c : Channel κ μ) (call : Call κ μ) :
    (call.lockedSection c).status = c.status := by
  cases call with
  | write message cb => exact channelWriteLocked_status c message cb
  | read cb => exact channelReadLocked_status c cb

/-- In a channel whose queues are empty every locked section leaves something behind: the
message, the parked writer or the parked reader. -/
theorem lockedSection_leaves {c : Channel κ μ} (hm : c.messages = []) (hr : c.readers = [])
    (hw : c.writers = []) (call : Call κ μ) :
    ¬ ((call.lockedSection c).messages = [] ∧ (call.lockedSection c).readers = [] ∧
      (call.lockedSection c).writers = []) := by
  cases call with
  | write message cb =>
      simp only [Call.lockedSection, channelWriteLocked, channelAccept]
      split <;> simp [channelServe, queuePush, hm, hr, hw]
  | read cb =>
      rcases channelReadLocked_cases c cb with ⟨_, _, heq⟩ | ⟨hne, _⟩
      · simp [Call.lockedSection, heq]
      · simp [hm, hw] at hne

theorem close_holdsNothing (s : Callers κ μ) (hs : s.ClosedHoldsNothing) :
    ClosedHoldsNothing { s with channel := (channelClose s.channel).1 } := by
  by_cases hopen : s.channel.status = .channelOpen
  · intro _
    simp [channelClose, hopen, queueClear]
  · have hsame : (channelClose s.channel).1 = s.channel := by simp [channelClose, hopen]
    rw [hsame]
    exact hs

theorem holdsNothing_step_iff {s next : Callers κ μ} {a : CallerStep κ μ}
    (hs : s.ClosedHoldsNothing) (hstep : s.step a = some next) :
    next.ClosedHoldsNothing ↔ s.LockedWhileOpen a := by
  cases a with
  | test call =>
      have hchannel : next.channel = s.channel := by
        simp only [step] at hstep
        split at hstep <;> cases hstep <;> rfl
      exact iff_of_true (by rw [ClosedHoldsNothing, hchannel]; exact hs) trivial
  | close =>
      cases hstep
      exact iff_of_true (close_holdsNothing s hs) trivial
  | locked i =>
      obtain ⟨call, _, rfl⟩ := Option.map_eq_some_iff.mp hstep
      have hstatus := lockedSection_status s.channel call
      cases hopen : s.channel.status with
      | channelOpen =>
          have hnext : ClosedHoldsNothing ⟨call.lockedSection s.channel, s.tested.eraseIdx i⟩ := by
            intro hclosed
            simp [hstatus, hopen] at hclosed
          exact iff_of_true hnext hopen
      | channelClosed =>
          obtain ⟨hm, hr, hw⟩ := hs hopen
          refine iff_of_false ?_ (by simp [LockedWhileOpen, hopen])
          intro hnext
          exact lockedSection_leaves hm hr hw call (hnext (hstatus.trans hopen))

/-- Under any interleaving of callers, a closed channel is empty in every state reached exactly
if no locked section of `channel_write` or `channel_read` runs after the channel was closed. -/
theorem closedHoldsNothing_throughout_iff (size : Int) (steps : List (CallerStep κ μ)) :
    Throughout step ClosedHoldsNothing (start size) steps ↔
      Respects step LockedWhileOpen (start size) steps := by
  refine throughout_iff_respects (I := fun _ _ => True) ?_ ?_ trivial ?_
  · exact fun _ _ _ _ _ _ _ => trivial
  · exact fun s a _ next _ hs hstep => holdsNothing_step_iff hs hstep
  · intro hclosed
    cases hclosed

/-- A write tests the status, the channel is closed, the write enters its locked section. -/
theorem closedHoldsNothing_fails :
    ¬ ∀ (size : Int) (steps : List (CallerStep Nat Nat)) (final : Callers Nat Nat),
      run step (start size) steps = some final → final.ClosedHoldsNothing := by
  intro hall
  have hempty := hall 1 [.test (.write 7 0), .close, .locked 0] _ rfl rfl
  exact absurd hempty.1 (by decide)

end Callers

end Casting
