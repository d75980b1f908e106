import Casting.Queue
import Casting.Framework.Threads
import Casting.Framework.Transition

/-!
# The thread pool

`lc_threadpool_run`, `next_job` and `pool_thread` of `lc_thread.c` as one transition system:
any number of submissions and of created workers, `pthread_create` and `sem_post` succeeding and
the limits unchanged.  A worker decides to exit under the lock but lowers `threads` later,
without it; `lc_threadpool_run` reads `threads` to decide whether a thread is needed.
-/

namespace Casting

open Threads Transition

variable {α : Type*}

/-- Where a created worker is between two of its steps. -/
inductive Worker (α : Type*)
  | waiting
  | timedOut
  | granted
  | working (job : α)
  | leaving
  | gone
  deriving DecidableEq, Repr

def Worker.isLive : Worker α → Bool
  | .leaving => false
  | .gone => false
  | _ => true

/-- The worker has decided to exit and has not yet lowered `threads`. -/
def Worker.isLeaving : Worker α → Bool
  | .leaving => true
  | _ => false

/-- `lc_threadpool_t`, with the semaphore's value and the created workers. -/
structure ThreadPool (α : Type*) where
  minThreads : Int
  maxThreads : Int
  threads : Int
  sem : Nat
  jobs : Queue α
  workers : List (Worker α)
  deriving DecidableEq, Repr

inductive PoolStep (α : Type*)
  | run (job : α)
  | acquire (i : Nat)
  | timeOut (i : Nat)
  | test (i : Nat)
  | pop (i : Nat)
  | finish (i : Nat)
  | leave (i : Nat)
  deriving DecidableEq, Repr

namespace ThreadPool

def new (min max : Int) : ThreadPool α := ⟨min, max, 0, 0, queueNew, []⟩

/-- `lc_threadpool_run`. -/
def lcThreadpoolRun (tp : ThreadPool α) (job : α) : ThreadPool α :=
  let tp := { tp with jobs := queuePush tp.jobs job, sem := tp.sem + 1 }
  if tp.threads < tp.minThreads ∨ (1 < queueSize tp.jobs ∧ tp.threads < tp.maxThreads) then
    { tp with threads := tp.threads + 1, workers := tp.workers ++ [.waiting] }
  else tp

/-- Worker `i` moves to `w`. -/
def move (tp : ThreadPool α) (i : Nat) (w : Worker α) : ThreadPool α :=
  { tp with workers := tp.workers.set i w }

/-- The steps of the pool.  `acquire` and `timeOut` are the two outcomes of `lc_sem_timedwait`;
`test` and `pop` are the two locked sections of `next_job`; `leave` is the decrement at the end
of `pool_thread`. -/
def step (tp : ThreadPool α) : PoolStep α → Option (ThreadPool α)
  | .run job => some (tp.lcThreadpoolRun job)
  | .acquire i =>
      match tp.workers[i]? with
      | some .waiting =>
          if 0 < tp.sem then some ({ tp with sem := tp.sem - 1 }.move i .granted) else none
      | _ => none
  | .timeOut i =>
      match tp.workers[i]? with
      | some .waiting => some (tp.move i .timedOut)
      | _ => none
  | .test i =>
      match tp.workers[i]? with
      | some .timedOut =>
          if tp.minThreads < tp.threads then some (tp.move i .leaving)
          else some (tp.move i .waiting)
      | _ => none
  | .pop i =>
      match tp.workers[i]? with
      | some .granted =>
          match queuePop tp.jobs with
          | (some job, jobs) => some ({ tp with jobs := jobs }.move i (.working job))
          | (none, _) => some (tp.move i .leaving)
      | _ => none
  | .finish i =>
      match tp.workers[i]? with
      | some (.working _) => some (tp.move i .waiting)
      | _ => none
  | .leave i =>
      match tp.workers[i]? with
      | some .leaving => some ({ tp with threads := tp.threads - 1 }.move i .gone)
      | _ => none

/-- The number of created workers that have not yet decided to exit. -/
def live (tp : ThreadPool α) : Nat := tp.workers.countP Worker.isLive

/-- The number of workers between their decision to exit and their decrement of `threads`. -/
def leaving (tp : ThreadPool α) : Nat := tp.workers.countP Worker.isLeaving

/-- While a job is queued some created worker has not yet decided to exit. -/
def NotStranded (tp : ThreadPool α) : Prop := tp.jobs ≠ [] → 0 < tp.live

/-- No submission finds all workers on their way out with `minThreads` of them still counted in
`threads`, and the last remaining worker does not pass the test in that situation while a job
is queued. -/
def SomeoneStays (tp : ThreadPool α) : PoolStep α → Prop
  | .run _ => tp.live = 0 → (tp.leaving : Int) < tp.minThreads
  | .test _ => tp.live = 1 → tp.jobs ≠ [] → (tp.leaving : Int) < tp.minThreads
  | _ => True

instance [DecidableEq α] (tp : ThreadPool α) (a : PoolStep α) : Decidable (tp.SomeoneStays a) :=
  match a with
  | .run _ => inferInstanceAs (Decidable (tp.live = 0 → (tp.leaving : Int) < tp.minThreads))
  | .test _ => inferInstanceAs
      (Decidable (tp.live = 1 → tp.jobs ≠ [] → (tp.leaving : Int) < tp.minThreads))
  | .acquire _ => .isTrue trivial
  | .timeOut _ => .isTrue trivial
  | .pop _ => .isTrue trivial
  | .finish _ => .isTrue trivial
  | .leave _ => .isTrue trivial

/-- `threads` counts the workers that have not yet lowered it. -/
def Counted (tp : ThreadPool α) : Prop := tp.threads = tp.live + tp.leaving

theorem live_move {p : ThreadPool α} {i : Nat} {old : Worker α} (h : p.workers[i]? = some old)
    (w : Worker α) : (p.move i w).live + old.isLive.toNat = p.live + w.isLive.toNat :=
  countP_set_add Worker.isLive h w

theorem leaving_move {p : ThreadPool α} {i : Nat} {old : Worker α}
    (h : p.workers[i]? = some old) (w : Worker α) :
    (p.move i w).leaving + old.isLeaving.toNat = p.leaving + w.isLeaving.toNat :=
  countP_set_add Worker.isLeaving h w

theorem lcThreadpoolRun_spec (tp : ThreadPool α) (job : α) :
    (tp.lcThreadpoolRun job).jobs = tp.jobs ++ [job] ∧
    (tp.lcThreadpoolRun job).leaving = tp.leaving ∧
    (((tp.threads < tp.minThreads ∨ tp.jobs ≠ []) ∧
        (tp.lcThreadpoolRun job).live = tp.live + 1 ∧
        (tp.lcThreadpoolRun job).threads = tp.threads + 1) ∨
      (tp.minThreads ≤ tp.threads ∧
        (tp.lcThreadpoolRun job).live = tp.live ∧
        (tp.lcThreadpoolRun job).threads = tp.threads)) := by
  have hsize : 1 < queueSize (queuePush tp.jobs job) → tp.jobs ≠ [] := by
    intro hmore hnil
    rw [hnil, queueSize_of_small (by simp [queuePush])] at hmore
    simp [queuePush] at hmore
  unfold lcThreadpoolRun
  dsimp only
  split
  · rename_i hcreate
    refine ⟨rfl, ?_, .inl ⟨hcreate.imp_right fun h => hsize h.1, ?_, rfl⟩⟩
    · simp [leaving, Worker.isLeaving]
    · simp [live, Worker.isLive]
  · rename_i hcreate
    exact ⟨rfl, rfl, .inr ⟨Int.not_lt.mp fun hfew => hcreate (.inl hfew), rfl, rfl⟩⟩

theorem worker_step_cases {tp next : ThreadPool α} {a : PoolStep α}
    (hstep : tp.step a = some next) :
    (∃ job, a = .run job ∧ next = tp.lcThreadpoolRun job) ∨
    (∃ i, a = .test i ∧ tp.workers[i]? = some .timedOut ∧
      ((tp.minThreads < tp.threads ∧ next = tp.move i .leaving) ∨
        (tp.threads ≤ tp.minThreads ∧ next = tp.move i .waiting))) ∨
    (∃ i job jobs, a = .pop i ∧ tp.workers[i]? = some .granted ∧ tp.jobs = job :: jobs ∧
      next = { tp with jobs := jobs }.move i (.working job)) ∨
    (∃ i, a = .pop i ∧ tp.workers[i]? = some .granted ∧ tp.jobs = [] ∧
      next = tp.move i .leaving) ∨
    (∃ i, a = .leave i ∧ tp.workers[i]? = some .leaving ∧
      next = { tp with threads := tp.threads - 1 }.move i .gone) ∨
    (∃ i old w sem, (∀ job, a ≠ .run job) ∧ (∀ i, a ≠ .test i) ∧ tp.workers[i]? = some old ∧
      old.isLive = true ∧ w.isLive = true ∧ next = { tp with sem := sem }.move i w) := by
  cases a with
  | run job =>
      cases hstep
      exact .inl ⟨job, rfl, rfl⟩
  | acquire i =>
      simp only [step] at hstep
      split at hstep
      · rename_i hw
        split at hstep
        · cases hstep
          exact .inr (.inr (.inr (.inr (.inr
            ⟨i, .waiting, .granted, _, by simp, by simp, hw, rfl, rfl, rfl⟩))))
        · cases hstep
      · cases hstep
  | timeOut i =>
      simp only [step] at hstep
      split at hstep
      · rename_i hw
        cases hstep
        exact .inr (.inr (.inr (.inr (.inr
          ⟨i, .waiting, .timedOut, tp.sem, by simp, by simp, hw, rfl, rfl, rfl⟩))))
      · cases hstep
  | test i =>
      simp only [step] at hstep
      split at hstep
      · rename_i hw
        split at hstep
        · rename_i hmore
          cases hstep
          exact .inr (.inl ⟨i, rfl, hw, .inl ⟨hmore, rfl⟩⟩)
        · rename_i hmore
          cases hstep
          exact .inr (.inl ⟨i, rfl, hw, .inr ⟨Int.not_lt.mp hmore, rfl⟩⟩)
      · cases hstep
  | pop i =>
      simp only [step] at hstep
      split at hstep
      · rename_i hw
        cases hjobs : tp.jobs with
        | nil =>
            rw [hjobs] at hstep
            cases hstep
            exact .inr (.inr (.inr (.inl ⟨i, rfl, hw, rfl, rfl⟩)))
        | cons job jobs =>
            rw [hjobs] at hstep
            cases hstep
            exact .inr (.inr (.inl ⟨i, job, jobs, rfl, hw, rfl, rfl⟩))
      · cases hstep
  | finish i =>
      simp only [step] at hstep
      split at hstep
      · rename_i job hw
        cases hstep
        exact .inr (.inr (.inr (.inr (.inr
          ⟨i, .working job, .waiting, tp.sem, by simp, by simp, hw, rfl, rfl, rfl⟩))))
      · cases hstep
  | leave i =>
      simp only [step] at hstep
      split at hstep
      · rename_i hw
        cases hstep
        exact .inr (.inr (.inr (.inr (.inl ⟨i, rfl, hw, rfl⟩))))
      · cases hstep

theorem isLeaving_of_isLive {w : Worker α} (h : w.isLive = true) : w.isLeaving = false := by
  cases w <;> simp_all [Worker.isLive, Worker.isLeaving]

theorem move_live_counts {p : ThreadPool α} {i : Nat} {old w : Worker α}
    (h : p.workers[i]? = some old) (hold : old.isLive = true) (hw : w.isLive = true) :
    (p.move i w).live = p.live ∧ (p.move i w).leaving = p.leaving := by
  have hlive := live_move h w
  have hleaving := leaving_move h w
  rw [hold, hw] at hlive
  rw [isLeaving_of_isLive hold, isLeaving_of_isLive hw] at hleaving
  exact ⟨Nat.add_right_cancel hlive, Nat.add_right_cancel hleaving⟩

theorem move_leaving_counts {p : ThreadPool α} {i : Nat} {old : Worker α}
    (h : p.workers[i]? = some old) (hold : old.isLive = true) :
    (p.move i .leaving).live + 1 = p.live ∧
      (p.move i .leaving).leaving = p.leaving + 1 := by
  have hlive := live_move h .leaving
  have hleaving := leaving_move h .leaving
  rw [hold] at hlive
  rw [isLeaving_of_isLive hold] at hleaving
  exact ⟨hlive, hleaving⟩

theorem live_pos {tp : ThreadPool α} {i : Nat} {w : Worker α} (h : tp.workers[i]? = some w)
    (hw : w.isLive = true) : 0 < tp.live :=
  List.countP_pos_iff.mpr ⟨w, List.mem_of_getElem? h, hw⟩

theorem counted_step {tp next : ThreadPool α} {a : PoolStep α} (hc : tp.Counted)
    (hstep : tp.step a = some next) : next.Counted := by
  unfold Counted at hc ⊢
  rcases worker_step_cases hstep with ⟨job, _, rfl⟩ | ⟨i, _, hw, ⟨_, rfl⟩ | ⟨_, rfl⟩⟩ |
    ⟨i, job, jobs, _, hw, _, rfl⟩ | ⟨i, _, hw, _, rfl⟩ | ⟨i, _, hw, rfl⟩ |
    ⟨i, old, w, sem, _, _, hw, hold, hlive, rfl⟩
  · obtain ⟨_, hleaving, ⟨_, hlive, hthreads⟩ | ⟨_, hlive, hthreads⟩⟩ :=
      lcThreadpoolRun_spec tp job
    · rw [hthreads, hlive, hleaving, hc]
      omega
    · rw [hthreads, hlive, hleaving, hc]
  · have hcounts := move_leaving_counts hw rfl
    have hthreads : (tp.move i .leaving).threads = tp.threads := rfl
    omega
  · have hcounts := move_live_counts (w := .waiting) hw rfl rfl
    have hthreads : (tp.move i .waiting).threads = tp.threads := rfl
    omega
  · have hcounts := move_live_counts (p := { tp with jobs := jobs }) (w := .working job) hw rfl rfl
    rw [hcounts.1, hcounts.2]
    exact hc
  · have hcounts := move_leaving_counts hw rfl
    have hthreads : (tp.move i .leaving).threads = tp.threads := rfl
    omega
  · have hlive := live_move (p := { tp with threads := tp.threads - 1 }) hw .gone
    have hleaving := leaving_move (p := { tp with threads := tp.threads - 1 }) hw .gone
    change _ + 0 = tp.live + 0 at hlive
    change _ + 1 = tp.leaving + 0 at hleaving
    change tp.threads - 1 = _
    omega
  · have hcounts := move_live_counts (p := { tp with sem := sem }) hw hold hlive
    rw [hcounts.1, hcounts.2]
    exact hc

theorem notStranded_run_iff {tp : ThreadPool α} (hc : tp.Counted) (hs : tp.NotStranded)
    (job : α) : (tp.lcThreadpoolRun job).NotStranded ↔ tp.SomeoneStays (.run job) := by
  obtain ⟨hjobs, _, ⟨hcreate, hlive, _⟩ | ⟨hcreate, hlive, _⟩⟩ := lcThreadpoolRun_spec tp job
  · refine iff_of_true (fun _ => by omega) ?_
    intro hnone
    rcases hcreate with hfew | hqueued
    · rw [Counted] at hc
      omega
    · have hpos := hs hqueued
      omega
  · rw [Counted] at hc
    constructor
    · intro hnext hnone
      have hpos := hnext (by simp [hjobs])
      omega
    · intro hguard _
      by_contra hzero
      have hfew := hguard (by omega)
      omega

/-- Each step keeps queued jobs from being stranded exactly if someone stays. -/
theorem notStranded_step_iff {tp next : ThreadPool α} {a : PoolStep α} (hc : tp.Counted)
    (hs : tp.NotStranded) (hstep : tp.step a = some next) :
    next.NotStranded ↔ tp.SomeoneStays a := by
  rcases worker_step_cases hstep with ⟨job, rfl, rfl⟩ | ⟨i, rfl, hw, ⟨hmore, rfl⟩ | ⟨hfew, rfl⟩⟩ |
    ⟨i, job, jobs, rfl, hw, _, rfl⟩ | ⟨i, rfl, hw, hempty, rfl⟩ | ⟨i, rfl, hw, rfl⟩ |
    ⟨i, old, w, sem, hrun, htest, hw, hold, hlive, rfl⟩
  · exact notStranded_run_iff hc hs job
  · have hcounts := move_leaving_counts hw rfl
    have hpos := live_pos hw rfl
    rw [Counted] at hc
    have hjobs : (tp.move i .leaving).jobs = tp.jobs := rfl
    rw [NotStranded, hjobs, SomeoneStays]
    constructor
    · intro hnext hone hqueued
      have := hnext hqueued
      omega
    · intro hguard hqueued
      by_contra hzero
      have := hguard (by omega) hqueued
      omega
  · have hcounts := move_live_counts (w := .waiting) hw rfl rfl
    have hpos := live_pos hw rfl
    rw [Counted] at hc
    exact iff_of_true (fun _ => by omega) (fun _ _ => by omega)
  · have hcounts := move_live_counts (p := { tp with jobs := jobs }) (w := .working job) hw rfl rfl
    have hpos := live_pos hw rfl
    refine iff_of_true (fun _ => ?_) trivial
    rw [hcounts.1]
    exact hpos
  · exact iff_of_true (fun hqueued => absurd hempty hqueued) trivial
  · have hlive := live_move (p := { tp with threads := tp.threads - 1 }) hw .gone
    change _ + 0 = tp.live + 0 at hlive
    refine iff_of_true (fun hqueued => ?_) trivial
    have := hs hqueued
    omega
  · have hcounts := move_live_counts (p := { tp with sem := sem }) hw hold hlive
    have hpos := live_pos hw hold
    refine iff_of_true (fun _ => ?_) ?_
    · rw [hcounts.1]
      exact hpos
    · cases a with
      | run job => exact absurd rfl (hrun job)
      | test i => exact absurd rfl (htest i)
      | acquire _ => trivial
      | timeOut _ => trivial
      | pop _ => trivial
      | finish _ => trivial
      | leave _ => trivial

/-- Under any interleaving of submissions and worker steps, in every state reached a queued job
has a created worker that has not decided to exit, exactly if someone stays at every step. -/
theorem notStranded_throughout_iff (min max : Int) (steps : List (PoolStep α)) :
    Throughout step NotStranded (new min max) steps ↔
      Respects step SomeoneStays (new min max) steps := by
  refine throughout_iff_respects (I := fun tp _ => tp.Counted) ?_ ?_ rfl ?_
  · exact fun tp a _ next hc _ hstep => counted_step hc hstep
  · exact fun tp a _ next hc hs hstep => notStranded_step_iff hc hs hstep
  · intro hqueued
    exact absurd rfl hqueued

/-- Limits 1 and 2: two idle workers time out, both pass the test before either has lowered
`threads`, and the next job finds `threads = 2` and no worker. -/
theorem notStranded_fails :
    ¬ ∀ (min max : Int) (steps : List (PoolStep Nat)) (final : ThreadPool Nat), 1 ≤ min →
      min ≤ max → run step (new min max) steps = some final → final.NotStranded := by
  intro hall
  have hlive := hall 1 2 [.run 1, .run 2, .acquire 0, .acquire 1, .pop 0, .pop 1, .finish 0,
    .finish 1, .timeOut 0, .timeOut 1, .test 0, .test 1, .run 3] _ (by decide) (by decide) rfl
    (by decide)
  exact absurd hlive (by decide)

end ThreadPool

end Casting
