import Mathlib.Algebra.Group.Nat.Defs
import Mathlib.Data.List.Basic

/-!
# Queues

The functions of `queue.c` on the sequence of elements the linked chain holds.  Allocation and
the `copy` callback succeed, so `queue_push` always appends; every caller pushes a non-NULL
pointer, so the NULL result of `queue_pop` means that the queue is empty.
-/

namespace Casting

/-- `queue_t`: the elements from `head.next` to `tail`. -/
abbrev Queue (α : Type*) := List α

variable {α : Type*}

def queueNew : Queue α := []

def queuePush (q : Queue α) (p : α) : Queue α := q ++ [p]

def queuePop : Queue α → Option α × Queue α
  | [] => (none, [])
  | p :: q => (some p, q)

/-- `queue_size`: `q->size` is an `int`, which goes round at 2^31 elements. -/
def queueSize (q : Queue α) : Int := (BitVec.ofNat 32 q.length).toInt

/-- `queue_clear`: pop until empty; the popped elements are returned in the order in which
`rel` is called on them. -/
def queueClear (q : Queue α) : Queue α × List α := ([], q)

@[simp]
theorem queuePop_nil : queuePop ([] : Queue α) = (none, []) := rfl

@[simp]
theorem queuePop_cons (p : α) (q : Queue α) : queuePop (p :: q) = (some p, q) := rfl

@[simp]
theorem queueSize_nil : queueSize ([] : Queue α) = 0 := rfl

theorem queueSize_of_small {q : Queue α} (h : q.length < 2 ^ 31) : queueSize q = q.length := by
  have htoNat : (BitVec.ofNat 32 q.length).toNat = q.length := by
    rw [BitVec.toNat_ofNat, Nat.mod_eq_of_lt (by omega)]
  rw [queueSize, BitVec.toInt_eq_toNat_of_lt (by omega), htoNat]

theorem queueSize_eq_zero_iff {q : Queue α} : queueSize q = 0 ↔ 2 ^ 32 ∣ q.length := by
  have hzero : (0 : Int) = (BitVec.ofNat 32 0).toInt := by decide
  rw [queueSize, hzero, BitVec.toInt_inj, ← BitVec.toNat_inj, BitVec.toNat_ofNat,
    BitVec.toNat_ofNat, Nat.zero_mod]
  exact Nat.dvd_iff_mod_eq_zero.symm

end Casting
