import Casting.ThreadPool.Sections
import Mathlib.Data.List.Nodup

/-!
# The accounts of the thread pool

The queue, the semaphore and `threads` are changed at different steps, some of them without the
lock.  What is under way between two changes is held by the program points of the calls and the
threads, so the three counters agree whenever the lock is free.
-/

namespace Casting

open Threads Transition

variable {α : Type}

theorem submitter_counts {calls : List (Submitter α)} {i : Nat} {old : Submitter α}
    (h : calls[i]? = some old) (new : Submitter α) :
    (calls.set i new).countP Submitter.holds + old.holds.toNat =
        calls.countP Submitter.holds + new.holds.toNat ∧
      (calls.set i new).countP Submitter.isPosting + old.isPosting.toNat =
        calls.countP Submitter.isPosting + new.isPosting.toNat ∧
      (calls.set i new).countP Submitter.isCreating + old.isCreating.toNat =
        calls.countP Submitter.isCreating + new.isCreating.toNat ∧
      (calls.set i new).countP Submitter.isCounting + old.isCounting.toNat =
        calls.countP Submitter.isCounting + new.isCounting.toNat :=
  ⟨countP_set_add _ h new, countP_set_add _ h new, countP_set_add _ h new,
    countP_set_add _ h new⟩

theorem worker_counts {threads : List PoolThread} {i : Nat} {old : PoolThread}
    (h : threads[i]? = some old) (new : PoolThread) :
    (threads.set i new).countP PoolThread.holds + old.holds.toNat =
        threads.countP PoolThread.holds + new.holds.toNat ∧
      (threads.set i new).countP PoolThread.isGranted + old.isGranted.toNat =
        threads.countP PoolThread.isGranted + new.isGranted.toNat ∧
      (threads.set i new).countP PoolThread.isCounted + old.isCounted.toNat =
        threads.countP PoolThread.isCounted + new.isCounted.toNat :=
  ⟨countP_set_add _ h new, countP_set_add _ h new, countP_set_add _ h new⟩

namespace SharedPool

variable {tp next : SharedPool α}

/-- The counters, with what the calls and threads have under way. -/
structure Accounts (tp : SharedPool α) : Prop where
  holder : tp.submitters.countP Submitter.holds + tp.workers.countP PoolThread.holds =
    tp.locked.toNat
  tokens : tp.sem + tp.workers.countP PoolThread.isGranted +
    tp.submitters.countP Submitter.isPosting = tp.jobs.length
  threads : tp.threads + tp.submitters.countP Submitter.isCounting =
    tp.workers.countP PoolThread.isCounted
  limit : tp.threads + tp.submitters.countP Submitter.isCreating +
    tp.submitters.countP Submitter.isCounting ≤ tp.maxThreads
  order : tp.minThreads ≤ tp.maxThreads

/-- A call that holds the lock is the only one to create a thread. -/
theorem Accounts.creating_eq_zero (h : tp.Accounts) {i : Nat} {s : Submitter α}
    (hs : tp.submitters[i]? = some s) (hholds : s.holds = true)
    (hcreating : s.isCreating = false) (hcounting : s.isCounting = false) :
    tp.submitters.countP Submitter.isCreating = 0 ∧
      tp.submitters.countP Submitter.isCounting = 0 := by
  have hlock := h.holder
  have hone : tp.submitters.countP Submitter.holds ≤ 1 := by
    have := Bool.toNat_le tp.locked
    omega
  refine ⟨countP_eq_zero_of_le_one hs hcreating hholds ?_ hone,
    countP_eq_zero_of_le_one hs hcounting hholds ?_ hone⟩
  · intro point hpoint
    cases point <;> first | rfl | cases hpoint
  · intro point hpoint
    cases point <;> first | rfl | cases hpoint

theorem Accounts.submitter (h : tp.Accounts) {i : Nat} {s : Submitter α}
    (hs : tp.submitters[i]? = some s) (hstep : tp.submitterStep i s = some next) :
    next.Accounts := by
  have halone := h.creating_eq_zero hs
  obtain ⟨hlock, htokens, hthreads, hlimit, horder⟩ := h
  have hcounts := submitter_counts hs
  cases s with
  | entering job =>
      have hc := hcounts (.pushing job)
      obtain ⟨hfree, rfl⟩ := lock_map_eq_some.mp hstep
      simp at hc
      simp only [hfree, Bool.toNat_false] at hlock
      constructor <;> simp only [setSubmitter, Bool.toNat_true] <;> omega
  | pushing job =>
      have hc := hcounts .posting
      cases hstep
      simp at hc
      constructor <;>
        simp only [setSubmitter, queuePush, List.length_append, List.length_cons,
          List.length_nil] <;>
        omega
  | posting =>
      have hc := hcounts .sizing
      cases hstep
      simp at hc
      constructor <;> simp only [setSubmitter] <;> omega
  | sizing =>
      have hc := hcounts (.checkingMin (queueSize tp.jobs))
      cases hstep
      simp at hc
      constructor <;> simp only [setSubmitter] <;> omega
  | checkingMin jobs =>
      have hnone := halone rfl rfl rfl
      rw [submitterStep] at hstep
      split at hstep
      · have hc := hcounts .creating
        cases hstep
        simp at hc
        constructor <;> simp only [setSubmitter] <;> omega
      · have hc := hcounts (.checkingMax jobs)
        cases hstep
        simp at hc
        constructor <;> simp only [setSubmitter] <;> omega
  | checkingMax jobs =>
      have hnone := halone rfl rfl rfl
      rw [submitterStep] at hstep
      split at hstep
      · have hc := hcounts .creating
        cases hstep
        simp at hc
        constructor <;> simp only [setSubmitter] <;> omega
      · have hc := hcounts .unlocking
        cases hstep
        simp at hc
        constructor <;> simp only [setSubmitter] <;> omega
  | creating =>
      have hc := hcounts .counting
      cases hstep
      simp at hc
      constructor <;> simp [setSubmitter] <;> omega
  | counting =>
      have hc := hcounts .unlocking
      cases hstep
      simp at hc
      constructor <;> simp only [setSubmitter] <;> omega
  | unlocking =>
      have hc := hcounts .returned
      cases hstep
      simp at hc
      have := Bool.toNat_le tp.locked
      constructor <;> simp only [setSubmitter, Bool.toNat_false] <;> omega
  | returned => cases hstep

theorem Accounts.worker (h : tp.Accounts) {i : Nat} {w : PoolThread}
    (hw : tp.workers[i]? = some w) (hstep : tp.workerStep i w = some next) :
    next.Accounts := by
  obtain ⟨hlock, htokens, hthreads, hlimit, horder⟩ := h
  have hcounts := worker_counts hw
  have hbit := Bool.toNat_le tp.locked
  cases w with
  | waiting =>
      have hc := hcounts .granted
      rw [workerStep] at hstep
      split at hstep
      · cases hstep
        simp at hc
        constructor <;> simp only [setWorker] <;> omega
      · cases hstep
  | timedOut =>
      have hc := hcounts .testing
      obtain ⟨hfree, rfl⟩ := lock_map_eq_some.mp hstep
      simp at hc
      simp only [hfree, Bool.toNat_false] at hlock
      constructor <;> simp only [setWorker, Bool.toNat_true] <;> omega
  | testing =>
      rw [workerStep] at hstep
      split at hstep
      · have hc := hcounts .quitting
        cases hstep
        simp at hc
        constructor <;> simp only [setWorker] <;> omega
      · have hc := hcounts .staying
        cases hstep
        simp at hc
        constructor <;> simp only [setWorker] <;> omega
  | staying =>
      have hc := hcounts .waiting
      cases hstep
      simp at hc
      constructor <;> simp only [setWorker, Bool.toNat_false] <;> omega
  | quitting =>
      have hc := hcounts .leaving
      cases hstep
      simp at hc
      constructor <;> simp only [setWorker, Bool.toNat_false] <;> omega
  | granted =>
      have hc := hcounts .popping
      obtain ⟨hfree, rfl⟩ := lock_map_eq_some.mp hstep
      simp at hc
      simp only [hfree, Bool.toNat_false] at hlock
      constructor <;> simp only [setWorker, Bool.toNat_true] <;> omega
  | popping =>
      have hpassed : 0 < tp.workers.countP PoolThread.isGranted :=
        List.countP_pos_iff.mpr ⟨_, List.mem_of_getElem? hw, rfl⟩
      rw [workerStep] at hstep
      cases hjobs : tp.jobs with
      | nil =>
          rw [hjobs, List.length_nil] at htokens
          omega
      | cons job jobs =>
          have hc := hcounts (.popped (some job))
          rw [hjobs] at hstep htokens
          cases hstep
          simp at hc
          simp only [List.length_cons] at htokens
          constructor <;> simp only [setWorker] <;> omega
  | popped job =>
      cases job with
      | none =>
          have hc := hcounts .leaving
          cases hstep
          simp at hc
          constructor <;> simp only [setWorker, Bool.toNat_false] <;> omega
      | some job =>
          have hc := hcounts (.working job)
          cases hstep
          simp at hc
          constructor <;> simp only [setWorker, Bool.toNat_false] <;> omega
  | working job =>
      have hc := hcounts .waiting
      cases hstep
      simp at hc
      constructor <;> simp only [setWorker] <;> omega
  | leaving =>
      have hc := hcounts .gone
      cases hstep
      simp at hc
      constructor <;> simp only [setWorker] <;> omega
  | gone => cases hstep

theorem Accounts.step (h : tp.Accounts) {a : SharedStep α} (hstep : tp.step a = some next) :
    next.Accounts := by
  cases a with
  | arrive job =>
      obtain ⟨hlock, htokens, hthreads, hlimit, horder⟩ := h
      cases hstep
      constructor <;> simp <;> omega
  | submitter i =>
      obtain ⟨s, hs, hstep⟩ := Option.bind_eq_some_iff.mp hstep
      exact h.submitter hs hstep
  | worker i =>
      obtain ⟨w, hw, hstep⟩ := Option.bind_eq_some_iff.mp hstep
      exact h.worker hw hstep
  | timeOut i =>
      obtain ⟨hlock, htokens, hthreads, hlimit, horder⟩ := h
      rw [SharedPool.step] at hstep
      split at hstep
      · rename_i hw
        have hc := worker_counts hw .timedOut
        cases hstep
        simp at hc
        constructor <;> simp only [setWorker] <;> omega
      · cases hstep

/-! ### The jobs -/

/-- Jobs are taken in the order of their submission, and a job that was taken is either in the
hands of one thread or was run once.  No thread has come back from the queue without a job. -/
structure Tickets (tp : SharedPool α) : Prop where
  order : tp.taken ++ tp.jobs = List.range tp.submitted.length
  once : ∀ job, tp.ran.count job + tp.workers.countP (PoolThread.has job) = tp.taken.count job
  served : PoolThread.popped none ∉ tp.workers

theorem Tickets.move (h : tp.Tickets) {i : Nat} {old new : PoolThread}
    (hw : tp.workers[i]? = some old) (hhas : ∀ job, new.has job = old.has job)
    (hserved : new ≠ .popped none) (threads : Int) (sem : Nat) (locked : Bool) :
    ({ tp with threads := threads, sem := sem, locked := locked }.setWorker i new).Tickets := by
  refine ⟨h.order, ?_, ?_⟩
  · intro job
    have hcount := countP_set_add (PoolThread.has job) hw new
    rw [hhas job] at hcount
    have honce := h.once job
    simp only [setWorker]
    omega
  · intro hmem
    rcases List.mem_or_eq_of_mem_set hmem with hmem | heq
    · exact h.served hmem
    · exact hserved heq.symm

theorem Tickets.submitter (h : tp.Tickets) {i : Nat} {s : Submitter α}
    (hstep : tp.submitterStep i s = some next) : next.Tickets := by
  obtain ⟨horder, honce, hserved⟩ := h
  cases s with
  | entering job =>
      obtain ⟨_, rfl⟩ := lock_map_eq_some.mp hstep
      exact ⟨horder, honce, hserved⟩
  | pushing job =>
      cases hstep
      refine ⟨?_, honce, hserved⟩
      simp [setSubmitter, queuePush, ← List.append_assoc, horder, List.range_succ]
  | creating =>
      cases hstep
      refine ⟨horder, ?_, ?_⟩
      · intro job
        simp [setSubmitter, honce job]
      · simp [setSubmitter, hserved]
  | posting | sizing | checkingMin | checkingMax | counting | unlocking =>
      cases hstep
      exact ⟨horder, honce, hserved⟩
  | returned => cases hstep

theorem Tickets.worker (h : tp.Tickets) (hjobs : tp.Accounts) {i : Nat} {w : PoolThread}
    (hw : tp.workers[i]? = some w) (hstep : tp.workerStep i w = some next) : next.Tickets := by
  have hmove := fun new => @h.move _ _ _ _ new hw
  cases w with
  | waiting =>
      rw [workerStep] at hstep
      split at hstep
      · cases hstep
        exact hmove .granted (fun _ => rfl) (by simp) _ _ _
      · cases hstep
  | timedOut =>
      obtain ⟨_, rfl⟩ := lock_map_eq_some.mp hstep
      exact hmove .testing (fun _ => rfl) (by simp) _ _ _
  | testing =>
      cases hstep
      refine hmove _ ?_ ?_ _ _ _
      · intro job
        split <;> rfl
      · split <;> simp
  | staying =>
      cases hstep
      exact hmove .waiting (fun _ => rfl) (by simp) _ _ _
  | quitting =>
      cases hstep
      exact hmove .leaving (fun _ => rfl) (by simp) _ _ _
  | granted =>
      obtain ⟨_, rfl⟩ := lock_map_eq_some.mp hstep
      exact hmove .popping (fun _ => rfl) (by simp) _ _ _
  | popping =>
      have hpassed : 0 < tp.workers.countP PoolThread.isGranted :=
        List.countP_pos_iff.mpr ⟨_, List.mem_of_getElem? hw, rfl⟩
      obtain ⟨horder, honce, hserved⟩ := h
      have htokens := hjobs.tokens
      rw [workerStep] at hstep
      cases hqueue : tp.jobs with
      | nil =>
          rw [hqueue, List.length_nil] at htokens
          omega
      | cons first jobs =>
          rw [hqueue] at hstep horder
          cases hstep
          refine ⟨?_, ?_, ?_⟩
          · simpa [setWorker] using horder
          · intro job
            have hcount := countP_set_add (PoolThread.has job) hw (.popped (some first))
            have hbefore := honce job
            simp only [setWorker, List.count_append, Option.toList_some, List.count_singleton]
            simp only [PoolThread.has, Bool.toNat_false] at hcount
            cases hfirst : first == job <;> simp [hfirst] at hcount ⊢ <;> omega
          · intro hmem
            rcases List.mem_or_eq_of_mem_set hmem with hmem | heq
            · exact hserved hmem
            · cases heq
  | popped job =>
      cases job with
      | none => exact (h.served (List.mem_of_getElem? hw)).elim
      | some job =>
          cases hstep
          exact hmove (.working job) (fun _ => rfl) (by simp) _ _ _
  | working done =>
      obtain ⟨horder, honce, hserved⟩ := h
      cases hstep
      refine ⟨horder, ?_, ?_⟩
      · intro job
        have hcount := countP_set_add (PoolThread.has job) hw .waiting
        have hbefore := honce job
        simp only [setWorker, List.count_append, List.count_singleton]
        simp only [PoolThread.has, Bool.toNat_false] at hcount
        cases hdone : done == job <;> simp [hdone] at hcount ⊢ <;> omega
      · intro hmem
        rcases List.mem_or_eq_of_mem_set hmem with hmem | heq
        · exact hserved hmem
        · cases heq
  | leaving =>
      cases hstep
      exact hmove .gone (fun _ => rfl) (by simp) _ _ _
  | gone => cases hstep

theorem Tickets.step (h : tp.Tickets) (hjobs : tp.Accounts) {a : SharedStep α}
    (hstep : tp.step a = some next) : next.Tickets := by
  cases a with
  | arrive job =>
      cases hstep
      exact ⟨h.order, h.once, h.served⟩
  | submitter i =>
      obtain ⟨s, _, hstep⟩ := Option.bind_eq_some_iff.mp hstep
      exact h.submitter hstep
  | worker i =>
      obtain ⟨w, hw, hstep⟩ := Option.bind_eq_some_iff.mp hstep
      exact h.worker hjobs hw hstep
  | timeOut i =>
      rw [SharedPool.step] at hstep
      split at hstep
      · rename_i hw
        cases hstep
        exact @h.move _ _ _ _ .timedOut hw (fun _ => rfl) (by simp) _ _ _
      · cases hstep

/-! ### Every run -/

/-- With the lock free the counters agree; and in every state no thread is without a job that it
was granted, jobs are taken in submission order, and no job is run twice. -/
structure Accounted (tp : SharedPool α) : Prop where
  tokens : tp.locked = false →
    tp.sem + tp.workers.countP PoolThread.isGranted = tp.jobs.length
  threads : tp.locked = false →
    tp.threads = tp.workers.countP PoolThread.isCounted ∧
      0 ≤ tp.threads ∧ tp.threads ≤ tp.maxThreads
  served : PoolThread.popped none ∉ tp.workers
  order : tp.taken <+: List.range tp.submitted.length
  once : tp.ran.Nodup ∧ tp.ran ⊆ tp.taken

theorem Accounts.idle (h : tp.Accounts) (hfree : tp.locked = false) :
    tp.submitters.countP Submitter.isPosting = 0 ∧
      tp.submitters.countP Submitter.isCounting = 0 := by
  have hholder := h.holder
  rw [hfree, Bool.toNat_false] at hholder
  have hposting :
      tp.submitters.countP Submitter.isPosting ≤ tp.submitters.countP Submitter.holds := by
    apply List.countP_mono_left
    intro s _ hs
    cases s <;> first | rfl | cases hs
  have hcounting :
      tp.submitters.countP Submitter.isCounting ≤ tp.submitters.countP Submitter.holds := by
    apply List.countP_mono_left
    intro s _ hs
    cases s <;> first | rfl | cases hs
  omega

theorem accounted_of_accounts (h : tp.Accounts) (hjobs : tp.Tickets) : tp.Accounted := by
  have htaken : tp.taken.Nodup := by
    have hall : (tp.taken ++ tp.jobs).Nodup := by
      rw [hjobs.order]
      exact List.nodup_range
    exact (List.nodup_append.mp hall).1
  refine ⟨?_, ?_, hjobs.served, ⟨tp.jobs, hjobs.order⟩, ?_, ?_⟩
  · intro hfree
    have hidle := h.idle hfree
    have htokens := h.tokens
    omega
  · intro hfree
    have hidle := h.idle hfree
    have hthreads := h.threads
    have hlimit := h.limit
    omega
  · rw [List.nodup_iff_count_le_one]
    intro job
    have honce := hjobs.once job
    have := List.nodup_iff_count_le_one.mp htaken job
    omega
  · intro job hrun
    have honce := hjobs.once job
    have hpos := List.count_pos_iff.mpr hrun
    exact List.count_pos_iff.mp (by omega)

/-- The accounts of the pool are right in every state of every interleaving. -/
theorem accounted_throughout {min max : Int} (hmin : 0 ≤ min) (hmax : min ≤ max)
    (steps : List (SharedStep α)) : Throughout step Accounted (new min max) steps := by
  refine throughout_of_invariant (I := fun tp => tp.Accounts ∧ tp.Tickets) ?_ ?_ ?_ steps
  · intro tp a next ⟨h, hjobs⟩ hstep
    exact ⟨h.step hstep, hjobs.step h hstep⟩
  · intro tp ⟨h, hjobs⟩
    exact accounted_of_accounts h hjobs
  · refine ⟨⟨rfl, rfl, rfl, ?_, hmax⟩, rfl, fun _ => rfl, List.not_mem_nil⟩
    simp only [new, List.countP_nil]
    omega

/-- Two calls that create a thread each.  The threads take their jobs at the same time, and one of
them ends after a wait. -/
def twoWorkers : List (SharedStep String) :=
  .arrive "print" :: .arrive "read" :: List.replicate 8 (.submitter 0) ++ .worker 0 ::
    List.replicate 9 (.submitter 1) ++ .worker 1 :: .worker 0 :: .worker 0 :: .worker 0 ::
      List.replicate 4 (.worker 1) ++ .worker 0 :: .timeOut 1 :: List.replicate 4 (.worker 1)

theorem accounted_throughout_two_workers : Throughout step Accounted (new 1 2) twoWorkers ∧
    (run step (new 1 2) twoWorkers).map (fun tp => (tp.ran, tp.workers)) =
      some ([1, 0], [.waiting, .gone]) :=
  ⟨accounted_throughout (by decide) (by decide) _, by decide⟩

end SharedPool

end Casting
