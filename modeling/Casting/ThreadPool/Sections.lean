import Casting.ThreadPool

/-!
# The thread pool, access by access

`lc_threadpool_run`, `next_job` and `pool_thread` with every access to the lock, the queue, the
semaphore and the counter a step of its own.  The semaphore is waited for, and `threads` is
lowered, without the lock.  A job is known by the number of its submission.
-/

namespace Casting

open Transition

variable {α : Type}

/-- Where a call of `lc_threadpool_run` is; `jobs` is its variable. -/
inductive Submitter (α : Type)
  | entering (job : α)
  | pushing (job : α)
  | posting
  | sizing
  | checkingMin (jobs : Int)
  | checkingMax (jobs : Int)
  | creating
  | counting
  | unlocking
  | returned
  deriving DecidableEq, Repr

/-- Where a created thread is in `pool_thread` and `next_job`. -/
inductive PoolThread
  | waiting
  | timedOut
  | testing
  | staying
  | quitting
  | granted
  | popping
  | popped (job : Option Nat)
  | working (job : Nat)
  | leaving
  | gone
  deriving DecidableEq, Repr

namespace Submitter

/-- The call holds the lock. -/
@[simp]
def holds : Submitter α → Bool
  | .entering _ => false
  | .returned => false
  | _ => true

@[simp]
def isPosting : Submitter α → Bool
  | .posting => true
  | _ => false

@[simp]
def isCreating : Submitter α → Bool
  | .creating => true
  | _ => false

@[simp]
def isCounting : Submitter α → Bool
  | .counting => true
  | _ => false

end Submitter

namespace PoolThread

/-- The thread holds the lock. -/
@[simp]
def holds : PoolThread → Bool
  | .testing => true
  | .staying => true
  | .quitting => true
  | .popping => true
  | .popped _ => true
  | _ => false

/-- The thread has passed `lc_sem_timedwait` and has not yet popped. -/
@[simp]
def isGranted : PoolThread → Bool
  | .granted => true
  | .popping => true
  | _ => false

/-- The thread has not yet lowered `threads`. -/
@[simp]
def isCounted : PoolThread → Bool
  | .gone => false
  | _ => true

/-- The thread has popped the job and has not yet run it. -/
@[simp]
def has (job : Nat) : PoolThread → Bool
  | .popped (some j) => j == job
  | .working j => j == job
  | _ => false

end PoolThread

/-- `lc_threadpool_t` with its semaphore, the calls and threads that use it, and three records: the
jobs that were submitted, taken from the queue, and run. -/
structure SharedPool (α : Type) where
  minThreads : Int
  maxThreads : Int
  threads : Int
  sem : Nat
  jobs : Queue Nat
  locked : Bool
  submitters : List (Submitter α)
  workers : List PoolThread
  submitted : List α
  taken : List Nat
  ran : List Nat
  deriving DecidableEq, Repr

/-- A call arrives, a call or a thread takes its next step, or a wait ends without a token. -/
inductive SharedStep (α : Type)
  | arrive (job : α)
  | submitter (i : Nat)
  | worker (i : Nat)
  | timeOut (i : Nat)
  deriving DecidableEq, Repr

namespace SharedPool

/-- `lc_threadpool_new`. -/
def new (min max : Int) : SharedPool α where
  minThreads := min
  maxThreads := max
  threads := 0
  sem := 0
  jobs := queueNew
  locked := false
  submitters := []
  workers := []
  submitted := []
  taken := []
  ran := []

def setSubmitter (tp : SharedPool α) (i : Nat) (s : Submitter α) : SharedPool α :=
  { tp with submitters := tp.submitters.set i s }

def setWorker (tp : SharedPool α) (i : Nat) (w : PoolThread) : SharedPool α :=
  { tp with workers := tp.workers.set i w }

/-- `lc_spin_lock`. -/
def lock (tp : SharedPool α) : Option (SharedPool α) :=
  if tp.locked then none else some { tp with locked := true }

theorem lock_map_eq_some {tp next : SharedPool α} {f : SharedPool α → SharedPool α} :
    tp.lock.map f = some next ↔ tp.locked = false ∧ next = f { tp with locked := true } := by
  rw [lock]
  cases tp.locked <;> simp [eq_comm]

/-- The next step of `lc_threadpool_run`. -/
def submitterStep (tp : SharedPool α) (i : Nat) : Submitter α → Option (SharedPool α)
  | .entering job => tp.lock.map fun tp => tp.setSubmitter i (.pushing job)
  | .pushing job => some ({ tp with
      jobs := queuePush tp.jobs tp.submitted.length
      submitted := tp.submitted ++ [job] }.setSubmitter i .posting)
  | .posting => some ({ tp with sem := tp.sem + 1 }.setSubmitter i .sizing)
  | .sizing => some (tp.setSubmitter i (.checkingMin (queueSize tp.jobs)))
  | .checkingMin jobs =>
      some (tp.setSubmitter i (if tp.threads < tp.minThreads then .creating else .checkingMax jobs))
  | .checkingMax jobs =>
      some (tp.setSubmitter i
        (if 1 < jobs ∧ tp.threads < tp.maxThreads then .creating else .unlocking))
  | .creating =>
    some ({ tp with workers := tp.workers ++ [PoolThread.waiting] }.setSubmitter i .counting)
  | .counting => some ({ tp with threads := tp.threads + 1 }.setSubmitter i .unlocking)
  | .unlocking => some ({ tp with locked := false }.setSubmitter i .returned)
  | .returned => none

/-- The next step of `next_job` and `pool_thread`; a wait gets a token. -/
def workerStep (tp : SharedPool α) (i : Nat) : PoolThread → Option (SharedPool α)
  | .waiting =>
      if 0 < tp.sem then some ({ tp with sem := tp.sem - 1 }.setWorker i .granted) else none
  | .timedOut => tp.lock.map fun tp => tp.setWorker i .testing
  | .testing => some (tp.setWorker i (if tp.minThreads < tp.threads then .quitting else .staying))
  | .staying => some ({ tp with locked := false }.setWorker i .waiting)
  | .quitting => some ({ tp with locked := false }.setWorker i .leaving)
  | .granted => tp.lock.map fun tp => tp.setWorker i .popping
  | .popping =>
      let (job, jobs) := queuePop tp.jobs
      some ({ tp with jobs := jobs, taken := tp.taken ++ job.toList }.setWorker i (.popped job))
  | .popped none => some ({ tp with locked := false }.setWorker i .leaving)
  | .popped (some job) => some ({ tp with locked := false }.setWorker i (.working job))
  | .working job => some ({ tp with ran := tp.ran ++ [job] }.setWorker i .waiting)
  | .leaving => some ({ tp with threads := tp.threads - 1 }.setWorker i .gone)
  | .gone => none

def step (tp : SharedPool α) : SharedStep α → Option (SharedPool α)
  | .arrive job => some { tp with submitters := tp.submitters ++ [.entering job] }
  | .submitter i => tp.submitters[i]?.bind (tp.submitterStep i)
  | .worker i => tp.workers[i]?.bind (tp.workerStep i)
  | .timeOut i =>
    if tp.workers[i]? = some PoolThread.waiting then some (tp.setWorker i .timedOut) else none

end SharedPool

/-! ## Whole sections -/

/-- Where a thread is when its locked sections are taken as single steps. -/
def PoolThread.whole : PoolThread → Worker Nat
  | .waiting => .waiting
  | .timedOut => .timedOut
  | .testing => .timedOut
  | .staying => .waiting
  | .quitting => .leaving
  | .granted => .granted
  | .popping => .granted
  | .popped none => .leaving
  | .popped (some job) => .working job
  | .working job => .working job
  | .leaving => .leaving
  | .gone => .gone

namespace SharedPool

variable {tp next : SharedPool α} {i : Nat}

def whole (tp : SharedPool α) : ThreadPool Nat where
  minThreads := tp.minThreads
  maxThreads := tp.maxThreads
  threads := tp.threads
  sem := tp.sem
  jobs := tp.jobs
  workers := tp.workers.map PoolThread.whole

theorem whole_worker {w : PoolThread} (hw : tp.workers[i]? = some w) :
    tp.whole.workers[i]? = some w.whole := by
  simp [whole, hw]

theorem whole_setWorker (tp : SharedPool α) (i : Nat) (w : PoolThread) :
    (tp.setWorker i w).whole = tp.whole.move i w.whole := by
  simp [whole, setWorker, ThreadPool.move, List.map_set]

theorem whole_setWorker_self {w w' : PoolThread} (hw : tp.workers[i]? = some w)
    (hwhole : w'.whole = w.whole) : (tp.setWorker i w').whole = tp.whole := by
  obtain ⟨hi, hget⟩ := List.getElem?_eq_some_iff.mp (whole_worker hw)
  rw [whole_setWorker, hwhole, ThreadPool.move, ← hget, List.set_getElem_self]

theorem whole_locked_setWorker (locked : Bool) {w w' : PoolThread}
    (hw : tp.workers[i]? = some w) (hwhole : w'.whole = w.whole) :
    ({ tp with locked := locked }.setWorker i w').whole = tp.whole := by
  have hthere : ({ tp with locked := locked } : SharedPool α).workers[i]? = some w := hw
  exact whole_setWorker_self hthere hwhole

/-- A step of a thread is a step of the pool with whole sections, or no step of it. -/
theorem worker_whole {w : PoolThread} (hw : tp.workers[i]? = some w)
    (hstep : tp.workerStep i w = some next) :
    next.whole = tp.whole ∨ ∃ a, tp.whole.step a = some next.whole := by
  have hworker := whole_worker hw
  cases w with
  | waiting =>
      rw [workerStep] at hstep
      split at hstep
      · rename_i hsem
        cases hstep
        refine .inr ⟨.acquire i, ?_⟩
        rw [whole_setWorker]
        simp only [ThreadPool.step, hworker, PoolThread.whole]
        exact if_pos hsem
      · cases hstep
  | timedOut =>
      obtain ⟨_, rfl⟩ := lock_map_eq_some.mp hstep
      exact .inl (whole_locked_setWorker true hw rfl)
  | testing =>
      cases hstep
      refine .inr ⟨.test i, ?_⟩
      rw [whole_setWorker]
      simp only [ThreadPool.step, hworker, PoolThread.whole]
      by_cases hmore : tp.minThreads < tp.threads
      · exact (if_pos hmore).trans (by rw [if_pos hmore])
      · exact (if_neg hmore).trans (by rw [if_neg hmore])
  | staying =>
      cases hstep
      exact .inl (whole_locked_setWorker false hw rfl)
  | quitting =>
      cases hstep
      exact .inl (whole_locked_setWorker false hw rfl)
  | granted =>
      obtain ⟨_, rfl⟩ := lock_map_eq_some.mp hstep
      exact .inl (whole_locked_setWorker true hw rfl)
  | popping =>
      rw [workerStep] at hstep
      refine .inr ⟨.pop i, ?_⟩
      simp only [ThreadPool.step, hworker, PoolThread.whole]
      have hqueue : tp.whole.jobs = tp.jobs := rfl
      rw [hqueue]
      cases hjobs : tp.jobs with
      | nil =>
          rw [hjobs] at hstep
          cases hstep
          rw [whole_setWorker, whole, hjobs]
          rfl
      | cons job jobs =>
          rw [hjobs] at hstep
          cases hstep
          rw [whole_setWorker]
          rfl
  | popped job =>
      cases job with
      | none =>
          cases hstep
          exact .inl (whole_locked_setWorker false hw rfl)
      | some job =>
          cases hstep
          exact .inl (whole_locked_setWorker false hw rfl)
  | working job =>
      cases hstep
      refine .inr ⟨.finish i, ?_⟩
      rw [whole_setWorker]
      simp only [ThreadPool.step, hworker, PoolThread.whole]
      rfl
  | leaving =>
      cases hstep
      refine .inr ⟨.leave i, ?_⟩
      rw [whole_setWorker]
      simp only [ThreadPool.step, hworker, PoolThread.whole]
      rfl
  | gone => cases hstep

/-- The pool after a call of `lc_threadpool_run` that created these threads. -/
def afterRun (tp : SharedPool α) (i : Nat) (job : α) (created : List PoolThread) :
    SharedPool α :=
  { tp with
    threads := tp.threads + created.length
    sem := tp.sem + 1
    jobs := queuePush tp.jobs tp.submitted.length
    submitters := tp.submitters.set i .returned
    workers := tp.workers ++ created
    submitted := tp.submitted ++ [job] }

theorem run_submitter {s : Submitter α} (hs : tp.submitters[i]? = some s)
    (hstep : tp.submitterStep i s = some next) (n : Nat) :
    run step tp (List.replicate (n + 1) (.submitter i)) =
      run step next (List.replicate n (.submitter i)) := by
  simp only [List.replicate_succ, run, step, hs, Option.bind_some, hstep]

/-- The pool when a call comes to its first look at `threads`. -/
def entered (tp : SharedPool α) (i : Nat) (job : α) : SharedPool α :=
  { tp with
    sem := tp.sem + 1
    jobs := queuePush tp.jobs tp.submitted.length
    locked := true
    submitters := tp.submitters.set i
      (.checkingMin (queueSize (queuePush tp.jobs tp.submitted.length)))
    submitted := tp.submitted ++ [job] }

theorem run_entering {job : α} (hfree : tp.locked = false)
    (hs : tp.submitters[i]? = some (.entering job)) (n : Nat) :
    run step tp (List.replicate (n + 4) (.submitter i)) =
      run step (tp.entered i job) (List.replicate n (.submitter i)) := by
  obtain ⟨hi, _⟩ := List.getElem?_eq_some_iff.mp hs
  have hset : ∀ s : Submitter α, (tp.submitters.set i s)[i]? = some s :=
    fun s => List.getElem?_set_self hi
  simp [List.replicate_succ, run, step, hs, submitterStep, lock, hfree, setSubmitter, hset,
    entered]

theorem run_creating (hs : tp.submitters[i]? = some .creating) :
    run step tp (List.replicate 3 (.submitter i)) =
      some { tp with
        threads := tp.threads + 1
        locked := false
        submitters := tp.submitters.set i .returned
        workers := tp.workers ++ [.waiting] } := by
  obtain ⟨hi, _⟩ := List.getElem?_eq_some_iff.mp hs
  have hset : ∀ s : Submitter α, (tp.submitters.set i s)[i]? = some s :=
    fun s => List.getElem?_set_self hi
  simp [List.replicate_succ, run, step, hs, submitterStep, setSubmitter, hset]

/-- The steps of a call that nothing comes between are the submission as a single step. -/
theorem submitter_whole {job : α} (hfree : tp.locked = false)
    (hs : tp.submitters[i]? = some (.entering job)) :
    ∃ n next, run step tp (List.replicate n (.submitter i)) = some next ∧ next.locked = false ∧
      next.whole = tp.whole.lcThreadpoolRun tp.submitted.length := by
  obtain ⟨hi, _⟩ := List.getElem?_eq_some_iff.mp hs
  have hentered : (tp.entered i job).submitters[i]? =
      some (.checkingMin (queueSize (queuePush tp.jobs tp.submitted.length))) := by
    simp [entered, hi]
  by_cases hfew : tp.threads < tp.minThreads
  · refine ⟨8, tp.afterRun i job [.waiting], ?_, hfree, ?_⟩
    · have hcheck : (tp.entered i job).submitterStep i
          (.checkingMin (queueSize (queuePush tp.jobs tp.submitted.length))) =
            some ((tp.entered i job).setSubmitter i .creating) := by
        simp [submitterStep, entered, hfew]
      rw [run_entering hfree hs, run_submitter hentered hcheck, run_creating]
      · simp [setSubmitter, entered, afterRun, hfree]
      · simp [setSubmitter, entered, hi]
    · simp [whole, ThreadPool.lcThreadpoolRun, hfew, PoolThread.whole, afterRun]
  · have hcheck : (tp.entered i job).submitterStep i
        (.checkingMin (queueSize (queuePush tp.jobs tp.submitted.length))) =
          some ((tp.entered i job).setSubmitter i
            (.checkingMax (queueSize (queuePush tp.jobs tp.submitted.length)))) := by
      simp [submitterStep, entered, hfew]
    have hchecked : ((tp.entered i job).setSubmitter i
        (.checkingMax (queueSize (queuePush tp.jobs tp.submitted.length)))).submitters[i]? =
          some (.checkingMax (queueSize (queuePush tp.jobs tp.submitted.length))) := by
      simp [setSubmitter, entered, hi]
    by_cases hmore : 1 < queueSize (queuePush tp.jobs tp.submitted.length) ∧
        tp.threads < tp.maxThreads
    · refine ⟨9, tp.afterRun i job [.waiting], ?_, hfree, ?_⟩
      · rw [run_entering hfree hs, run_submitter hentered hcheck, run_submitter hchecked rfl,
          run_creating]
        · simp [setSubmitter, entered, afterRun, hfree]
        · simp [setSubmitter, entered, hi, hmore]
      · simp [whole, ThreadPool.lcThreadpoolRun, hfew, hmore, PoolThread.whole, afterRun]
    · refine ⟨7, tp.afterRun i job [], ?_, hfree, ?_⟩
      · rw [run_entering hfree hs, run_submitter hentered hcheck, run_submitter hchecked rfl]
        simp [List.replicate_succ, run, step, submitterStep, setSubmitter, entered, afterRun, hi,
          hmore, hfree]
      · simp [whole, ThreadPool.lcThreadpoolRun, hfew, hmore, afterRun]

end SharedPool

end Casting
