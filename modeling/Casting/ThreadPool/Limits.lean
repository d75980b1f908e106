import Casting.ThreadPool.Accounting

/-!
# Changing limits

The thread pool when `lc_threadpool_set_threads` may be called at any time, with any limits, and
`pthread_create` may fail.  Apart from the test for the upper limit, the accesses go on as in a
pool that has had the highest of the limits all the time.
-/

namespace Casting

open Threads Transition

variable {α : Type}

/-- The pool, and the highest limit that it was ever given, zero at least. -/
structure LimitedPool (α : Type) where
  pool : SharedPool α
  highest : Int
  deriving DecidableEq, Repr

inductive LimitedStep (α : Type)
  | pool (a : SharedStep α)
  /-- `pthread_create` fails in the call -/
  | refuse (i : Nat)
  | setThreads (min max : Int)
  deriving DecidableEq, Repr

namespace LimitedPool

def new (min max : Int) : LimitedPool α := ⟨.new min max, Max.max 0 (Max.max min max)⟩

/-- `lc_threadpool_set_threads` is one step.  Only `lc_threadpool_min` and `lc_threadpool_max` read
the limits without the lock; they return what they read. -/
def step (l : LimitedPool α) : LimitedStep α → Option (LimitedPool α)
  | .pool a => (l.pool.step a).map fun pool => { l with pool := pool }
  | .refuse i =>
      match l.pool.submitters[i]? with
      | some .creating => some { l with pool := l.pool.setSubmitter i .unlocking }
      | _ => none
  | .setThreads min max =>
      if l.pool.locked then none
      else some ⟨{ l.pool with minThreads := min, maxThreads := max },
        Max.max l.highest (Max.max min max)⟩

end LimitedPool

namespace SharedPool

variable {tp next : SharedPool α}

def withMax (tp : SharedPool α) (max : Int) : SharedPool α := { tp with maxThreads := max }

theorem lock_withMax (tp : SharedPool α) (max : Int) :
    (tp.withMax max).lock = tp.lock.map fun next => next.withMax max := by
  by_cases hlocked : tp.locked = true <;> simp [lock, withMax, hlocked]

theorem submitterStep_withMax {i : Nat} {s : Submitter α} (hs : ∀ jobs, s ≠ .checkingMax jobs)
    (max : Int) : (tp.withMax max).submitterStep i s =
      (tp.submitterStep i s).map fun next => next.withMax max := by
  cases s with
  | entering job =>
      simp only [submitterStep, lock_withMax, Option.map_map]
      rfl
  | checkingMax jobs => exact absurd rfl (hs jobs)
  | _ => rfl

theorem workerStep_withMax (i : Nat) (w : PoolThread) (max : Int) :
    (tp.withMax max).workerStep i w = (tp.workerStep i w).map fun next => next.withMax max := by
  cases w with
  | waiting =>
      by_cases htoken : 0 < tp.sem <;> simp [workerStep, withMax, htoken, setWorker]
  | timedOut | granted =>
      simp only [workerStep, lock_withMax, Option.map_map]
      rfl
  | popped job => cases job <;> rfl
  | _ => rfl

theorem Accounts.unlock (h : tp.Accounts) {i : Nat} {s : Submitter α}
    (hs : tp.submitters[i]? = some s)
    (hpoint : s = .creating ∨ ∃ jobs, s = .checkingMax jobs) :
    (tp.setSubmitter i .unlocking).Accounts := by
  obtain ⟨hlock, htokens, hthreads, hlimit, horder⟩ := h
  have hc := submitter_counts hs .unlocking
  rcases hpoint with rfl | ⟨jobs, rfl⟩ <;> simp at hc <;> constructor <;>
    simp only [setSubmitter] <;> omega

theorem Accounts.raise (h : tp.Accounts) (max : Int) (hmax : tp.maxThreads ≤ max) :
    (tp.withMax max).Accounts :=
  ⟨h.holder, h.tokens, h.threads, Int.le_trans h.limit hmax, Int.le_trans h.order hmax⟩

/-- Steps of a pool whose limit is below the one that the accounts are kept with. -/
theorem Accounts.step_withMax {max : Int} (h : (tp.withMax max).Accounts)
    (hmax : tp.maxThreads ≤ max) {a : SharedStep α} (hstep : tp.step a = some next) :
    (next.withMax max).Accounts := by
  cases a with
  | arrive job =>
      cases hstep
      exact h.step (a := .arrive job) rfl
  | submitter i =>
      obtain ⟨s, hs, hstep⟩ := Option.bind_eq_some_iff.mp hstep
      by_cases hcheck : ∃ jobs, s = .checkingMax jobs
      · obtain ⟨jobs, rfl⟩ := hcheck
        rw [submitterStep] at hstep
        cases hstep
        split
        · rename_i hmore
          apply h.submitter hs
          have hpoint : (if 1 < jobs ∧ (tp.withMax max).threads < (tp.withMax max).maxThreads then
              Submitter.creating else Submitter.unlocking) = (Submitter.creating : Submitter α) :=
            if_pos ⟨hmore.1, Int.lt_of_lt_of_le hmore.2 hmax⟩
          rw [submitterStep, hpoint]
          rfl
        · exact h.unlock hs (.inr ⟨jobs, rfl⟩)
      · have hsame := @submitterStep_withMax _ tp i s (fun jobs heq => hcheck ⟨jobs, heq⟩) max
        rw [hstep] at hsame
        exact h.submitter hs hsame
  | worker i =>
      obtain ⟨w, hw, hstep⟩ := Option.bind_eq_some_iff.mp hstep
      have hsame := @workerStep_withMax _ tp i w max
      rw [hstep] at hsame
      exact h.worker hw hsame
  | timeOut i =>
      rw [SharedPool.step] at hstep
      split at hstep
      · rename_i hw
        cases hstep
        apply h.step (a := .timeOut i)
        exact if_pos hw
      · cases hstep

theorem Tickets.step_withMax {max : Int} (h : tp.Tickets) (hjobs : (tp.withMax max).Accounts)
    {a : SharedStep α} (hstep : tp.step a = some next) : next.Tickets := by
  have hmoved : (tp.withMax max).Tickets := ⟨h.order, h.once, h.served⟩
  have hback : (next.withMax max).Tickets → next.Tickets := fun h => ⟨h.order, h.once, h.served⟩
  cases a with
  | arrive job =>
      cases hstep
      exact ⟨h.order, h.once, h.served⟩
  | submitter i =>
      obtain ⟨s, _, hstep⟩ := Option.bind_eq_some_iff.mp hstep
      exact h.submitter hstep
  | worker i =>
      obtain ⟨w, hw, hstep⟩ := Option.bind_eq_some_iff.mp hstep
      have hsame := @workerStep_withMax _ tp i w max
      rw [hstep] at hsame
      exact hback (hmoved.worker hjobs hw hsame)
  | timeOut i =>
      rw [SharedPool.step] at hstep
      split at hstep
      · rename_i hw
        cases hstep
        apply hback
        apply hmoved.step hjobs (a := .timeOut i)
        exact if_pos hw
      · cases hstep

theorem maxThreads_submitterStep {i : Nat} {s : Submitter α}
    (hstep : tp.submitterStep i s = some next) : next.maxThreads = tp.maxThreads := by
  cases s with
  | entering job =>
      obtain ⟨_, rfl⟩ := lock_map_eq_some.mp hstep
      rfl
  | returned => cases hstep
  | _ =>
      cases hstep
      rfl

theorem maxThreads_workerStep {i : Nat} {w : PoolThread}
    (hstep : tp.workerStep i w = some next) : next.maxThreads = tp.maxThreads := by
  cases w with
  | waiting =>
      rw [workerStep] at hstep
      split at hstep
      · cases hstep
        rfl
      · cases hstep
  | timedOut | granted =>
      obtain ⟨_, rfl⟩ := lock_map_eq_some.mp hstep
      rfl
  | popped job =>
      cases job <;> cases hstep <;> rfl
  | gone => cases hstep
  | _ =>
      cases hstep
      rfl

theorem maxThreads_step {a : SharedStep α} (hstep : tp.step a = some next) :
    next.maxThreads = tp.maxThreads := by
  cases a with
  | arrive job =>
      cases hstep
      rfl
  | submitter i =>
      obtain ⟨s, _, hstep⟩ := Option.bind_eq_some_iff.mp hstep
      exact maxThreads_submitterStep hstep
  | worker i =>
      obtain ⟨w, _, hstep⟩ := Option.bind_eq_some_iff.mp hstep
      exact maxThreads_workerStep hstep
  | timeOut i =>
      rw [SharedPool.step] at hstep
      split at hstep
      · cases hstep
        rfl
      · cases hstep

end SharedPool

namespace LimitedPool

open SharedPool

variable {l next : LimitedPool α}

/-- The accounts with the highest limit. -/
structure Kept (l : LimitedPool α) : Prop where
  accounts : (l.pool.withMax l.highest).Accounts
  tickets : l.pool.Tickets
  max : l.pool.maxThreads ≤ l.highest

theorem kept_new (min max : Int) : (new min max : LimitedPool α).Kept where
  accounts := by
    refine ⟨rfl, rfl, rfl, ?_, ?_⟩
    · change (0 : Int) + 0 + 0 ≤ Max.max 0 (Max.max min max)
      omega
    · change min ≤ Max.max 0 (Max.max min max)
      omega
  tickets := ⟨rfl, fun _ => rfl, List.not_mem_nil⟩
  max := by
    change max ≤ Max.max 0 (Max.max min max)
    omega

theorem Kept.step (h : l.Kept) {a : LimitedStep α} (hstep : l.step a = some next) :
    next.Kept := by
  cases a with
  | pool a =>
      obtain ⟨pool, hpool, rfl⟩ := Option.map_eq_some_iff.mp hstep
      refine ⟨h.accounts.step_withMax h.max hpool, h.tickets.step_withMax h.accounts hpool, ?_⟩
      change pool.maxThreads ≤ l.highest
      rw [maxThreads_step hpool]
      exact h.max
  | refuse i =>
      simp only [LimitedPool.step] at hstep
      split at hstep
      · rename_i hs
        cases hstep
        exact ⟨h.accounts.unlock hs (.inl rfl), ⟨h.tickets.order, h.tickets.once, h.tickets.served⟩,
          h.max⟩
      · cases hstep
  | setThreads min max =>
      simp only [LimitedPool.step] at hstep
      split at hstep
      · cases hstep
      · cases hstep
        have hraised := h.accounts.raise (Max.max l.highest (Max.max min max))
          (Int.le_max_left _ _)
        refine ⟨⟨hraised.holder, hraised.tokens, hraised.threads, hraised.limit, ?_⟩,
          ⟨h.tickets.order, h.tickets.once, h.tickets.served⟩, ?_⟩
        · change min ≤ Max.max l.highest (Max.max min max)
          omega
        · change max ≤ Max.max l.highest (Max.max min max)
          omega

/-- With the lock free the counters agree, and there were never more threads than the highest
limit; and in every state no thread is without a job that it was granted, jobs are taken in
submission order, and no job is run twice. -/
def Accounted (l : LimitedPool α) : Prop := (l.pool.withMax l.highest).Accounted

/-- The accounts of the pool are right in every interleaving, whatever limits it is given and
whenever no thread can be created. -/
theorem accounted_throughout_limits (min max : Int) (steps : List (LimitedStep α)) :
    Throughout step Accounted (new min max) steps := by
  refine throughout_of_invariant (I := Kept) ?_ ?_ (kept_new min max) steps
  · exact fun l a next h hstep => h.step hstep
  · intro l h
    exact accounted_of_accounts h.accounts
      ⟨h.tickets.order, h.tickets.once, h.tickets.served⟩

end LimitedPool

end Casting
