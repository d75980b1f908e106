import Casting.Framework.Threads
import Casting.Framework.Transition

/-!
# Critical sections under a lock word

Threads make calls on a shared state.  A call may look at a view of the state without the lock,
and be refused by what it sees there; otherwise it spins on a lock word, executes a section one
instruction at a time and gives the lock back.  When no section changes the view before its last
instruction, every history of calls and returns is one in which each section is a single step.
-/

namespace Casting.Atomicity

open Transition

variable {Word σ ν ρ Call : Type*}

/-- The instructions of a section.  What comes next depends on the state before the instruction. -/
inductive Section (σ ρ : Type*)
  | done (result : ρ)
  | act (f : σ → σ) (next : σ → Section σ ρ)

namespace Section

def exec : Section σ ρ → σ → σ × ρ
  | done result, s => (s, result)
  | act f next, s => (next s).exec (f s)

/-- Only the last instruction changes the view. -/
inductive Late (view : σ → ν) : Section σ ρ → Prop
  | done (result : ρ) : Late view (done result)
  | last {f : σ → σ} {result : σ → ρ} : Late view (act f fun s => done (result s))
  | act {f : σ → σ} {next : σ → Section σ ρ} (hview : ∀ s, view (f s) = view s)
      (hnext : ∀ s, Late view (next s)) : Late view (act f next)

end Section

/-- The code of a call: what it returns by the view alone, and its section. -/
structure Routine (σ ν ρ : Type*) where
  entry : ν → Option ρ
  body : Section σ ρ

/-- What a caller sees of a run. -/
inductive Event (Call ρ : Type*)
  | enter (i : ℕ) (call : Call)
  | leave (i : ℕ) (result : ρ)
  deriving DecidableEq, Repr

inductive Phase (Call σ ρ : Type*)
  | idle
  | spinning (call : Call)
  | inside (call : Call) (rest : Section σ ρ)
  | returned (result : ρ)

inductive Whole (Call ρ : Type*)
  | idle
  | waiting (call : Call)
  | returned (result : ρ)
  deriving DecidableEq, Repr

namespace Phase

def isInside : Phase Call σ ρ → Bool
  | inside _ _ => true
  | _ => false

/-- The section counts from its last instruction on. -/
def whole : Phase Call σ ρ → Whole Call ρ
  | idle => .idle
  | spinning call => .waiting call
  | inside call (.act _ _) => .waiting call
  | inside _ (.done result) => .returned result
  | returned result => .returned result

end Phase

/-- A word that threads try to take; only its holder gives it back. -/
structure LockWord (Word : Type*) where
  free : Word
  held : Word
  tryLock : Word → Word × Bool
  unlock : Word → Word
  tryLock_free : tryLock free = (held, true)
  tryLock_held : tryLock held = (held, false)
  unlock_held : unlock held = free

structure Spinning (Word Call σ ρ : Type*) where
  word : Word
  shared : σ
  threads : List (Phase Call σ ρ)

structure Atomic (Call σ ρ : Type*) where
  shared : σ
  threads : List (Whole Call ρ)
  deriving DecidableEq, Repr

inductive SpinLabel (Call ρ : Type*)
  | event (e : Event Call ρ)
  | attempt (i : ℕ)
  | act (i : ℕ)
  | unlock (i : ℕ)
  deriving DecidableEq, Repr

inductive AtomicLabel (Call ρ : Type*)
  | event (e : Event Call ρ)
  | commit (i : ℕ)
  deriving DecidableEq, Repr

def SpinLabel.event? : SpinLabel Call ρ → Option (Event Call ρ)
  | event e => some e
  | _ => none

def AtomicLabel.event? : AtomicLabel Call ρ → Option (Event Call ρ)
  | event e => some e
  | commit _ => none

section Systems

variable [DecidableEq ρ] (lock : LockWord Word) (routine : Call → Routine σ ν ρ) (view : σ → ν)

namespace Spinning

def start (n : ℕ) (s : σ) : Spinning Word Call σ ρ := ⟨lock.free, s, List.replicate n .idle⟩

def step (s : Spinning Word Call σ ρ) : SpinLabel Call ρ → Option (Spinning Word Call σ ρ)
  | .event (.enter i call) =>
      match s.threads[i]? with
      | some .idle =>
          match (routine call).entry (view s.shared) with
          | some result => some { s with threads := s.threads.set i (.returned result) }
          | none => some { s with threads := s.threads.set i (.spinning call) }
      | _ => none
  | .attempt i =>
      match s.threads[i]? with
      | some (.spinning call) =>
          -- where this fails the thread yields and tries again
          if (lock.tryLock s.word).2 then
            some { s with word := (lock.tryLock s.word).1
                          threads := s.threads.set i (.inside call (routine call).body) }
          else some { s with word := (lock.tryLock s.word).1 }
      | _ => none
  | .act i =>
      match s.threads[i]? with
      | some (.inside call (.act f next)) =>
          some { s with shared := f s.shared
                        threads := s.threads.set i (.inside call (next s.shared)) }
      | _ => none
  | .unlock i =>
      match s.threads[i]? with
      | some (.inside _ (.done result)) =>
          some { s with word := lock.unlock s.word, threads := s.threads.set i (.returned result) }
      | _ => none
  | .event (.leave i result) =>
      match s.threads[i]? with
      | some (.returned r) =>
          if r = result then some { s with threads := s.threads.set i .idle } else none
      | _ => none

end Spinning

namespace Atomic

variable (entry : Call → ν → Option ρ) (locked : Call → σ → σ × ρ)

def start (n : ℕ) (s : σ) : Atomic Call σ ρ := ⟨s, List.replicate n .idle⟩

def step (s : Atomic Call σ ρ) : AtomicLabel Call ρ → Option (Atomic Call σ ρ)
  | .event (.enter i call) =>
      match s.threads[i]? with
      | some .idle =>
          match entry call (view s.shared) with
          | some result => some { s with threads := s.threads.set i (.returned result) }
          | none => some { s with threads := s.threads.set i (.waiting call) }
      | _ => none
  | .commit i =>
      match s.threads[i]? with
      | some (.waiting call) =>
          some ⟨(locked call s.shared).1,
            s.threads.set i (.returned (locked call s.shared).2)⟩
      | _ => none
  | .event (.leave i result) =>
      match s.threads[i]? with
      | some (.returned r) =>
          if r = result then some { s with threads := s.threads.set i .idle } else none
      | _ => none

end Atomic

end Systems

/-! ### The simulation -/

theorem mem_set_of_countP_le_one {Point : Type*} {p : Point → Bool} {threads : List Point} {i : ℕ}
    {old new point : Point} (h : threads[i]? = some old) (hold : p old = true)
    (hone : threads.countP p ≤ 1) (hmem : point ∈ threads.set i new) :
    point = new ∨ p point = false := by
  induction threads generalizing i with
  | nil => simp at h
  | cons first threads ih =>
      rw [List.countP_cons] at hone
      cases i with
      | zero =>
          have hfirst : first = old := by simpa using h
          rw [hfirst, if_pos hold] at hone
          have hzero : threads.countP p = 0 := by omega
          rcases List.mem_cons.mp hmem with rfl | hrest
          · exact .inl rfl
          · exact .inr (by simpa using List.countP_eq_zero.mp hzero point hrest)
      | succ i =>
          have hi : threads[i]? = some old := by simpa using h
          have hpos : 0 < threads.countP p :=
            List.countP_pos_iff.mpr ⟨old, List.mem_of_getElem? hi, hold⟩
          rcases List.mem_cons.mp hmem with rfl | hrest
          · cases hp : p point with
            | false => exact .inr rfl
            | true =>
                rw [if_pos hp] at hone
                omega
          · exact ih hi (by omega) hrest

/-- How a run of the threads and one with whole sections agree. -/
structure Simulates (lock : LockWord Word) (view : σ → ν) (locked : Call → σ → σ × ρ)
    (f : Spinning Word Call σ ρ) (a : Atomic Call σ ρ) : Prop where
  threads : a.threads = f.threads.map Phase.whole
  one : f.threads.countP Phase.isInside ≤ 1
  word : f.word = if f.threads.countP Phase.isInside = 0 then lock.free else lock.held
  seen : view f.shared = view a.shared
  /-- The section under way has its whole effect ahead of it. -/
  pending : ∀ call g next, .inside call (.act g next) ∈ f.threads →
    (Section.act g next).exec f.shared = locked call a.shared ∧ (Section.act g next).Late view
  settled : (∀ call g next, .inside call (.act g next) ∉ f.threads) → f.shared = a.shared

section Simulation

variable [DecidableEq ρ] {lock : LockWord Word} {routine : Call → Routine σ ν ρ} {view : σ → ν}
  {locked : Call → σ → σ × ρ} {f f' : Spinning Word Call σ ρ} {a : Atomic Call σ ρ} {i : ℕ}
  {old new : Phase Call σ ρ} {call : Call} {rest : Section σ ρ}

omit [DecidableEq ρ] in
theorem Simulates.whole (h : Simulates lock view locked f a) (hi : f.threads[i]? = some old) :
    a.threads[i]? = some old.whole := by
  rw [h.threads, List.getElem?_map, hi]
  rfl

omit [DecidableEq ρ] in
theorem Simulates.move (h : Simulates lock view locked f a) (hi : f.threads[i]? = some old)
    (hold : old.isInside = false) (hnew : new.isInside = false) :
    Simulates lock view locked { f with threads := f.threads.set i new }
      { a with threads := a.threads.set i new.whole } := by
  have hcount := Threads.countP_set_add Phase.isInside hi new
  rw [hold, hnew] at hcount
  have hsame : (f.threads.set i new).countP Phase.isInside = f.threads.countP Phase.isInside :=
    Nat.add_right_cancel hcount
  have hback : ∀ call g next, Phase.inside call (.act g next) ∈ f.threads.set i new →
      Phase.inside call (.act g next) ∈ f.threads := by
    intro call g next hmem
    rcases List.mem_or_eq_of_mem_set hmem with hmem | heq
    · exact hmem
    · rw [← heq] at hnew
      cases hnew
  have hforth : ∀ call g next, Phase.inside call (.act g next) ∈ f.threads →
      Phase.inside call (.act g next) ∈ f.threads.set i new := by
    intro call g next hmem
    obtain ⟨j, hj⟩ := List.mem_iff_getElem?.mp hmem
    have hne : i ≠ j := by
      intro heq
      rw [heq, hj] at hi
      cases hi
      cases hold
    exact List.mem_iff_getElem?.mpr ⟨j, by rw [List.getElem?_set_ne hne, hj]⟩
  constructor
  · change a.threads.set i new.whole = (f.threads.set i new).map Phase.whole
    rw [h.threads, List.map_set]
  · change (f.threads.set i new).countP Phase.isInside ≤ 1
    rw [hsame]
    exact h.one
  · change f.word = if (f.threads.set i new).countP Phase.isInside = 0 then lock.free else lock.held
    rw [hsame]
    exact h.word
  · exact h.seen
  · intro call g next hmem
    exact h.pending call g next (hback call g next hmem)
  · intro hnone
    exact h.settled fun call g next hmem => hnone call g next (hforth call g next hmem)

/-- A thread that holds the lock stands before `rest`, whose effect is that of its call. -/
theorem simulates_inside {s : σ} {threads : List (Phase Call σ ρ)}
    (ha : a.threads = threads.map Phase.whole) (hi : threads[i]? = some old)
    (hwaiting : old.whole = .waiting call)
    (hothers : ∀ p ∈ threads.set i (.inside call rest), p = .inside call rest ∨ p.isInside = false)
    (hcount : (threads.set i (.inside call rest)).countP Phase.isInside = 1)
    (hexec : rest.exec s = locked call a.shared)
    (hrest : ∀ g next, rest = .act g next → rest.Late view ∧ view s = view a.shared) :
    ∃ (steps : List (AtomicLabel Call ρ)) (a' : Atomic Call σ ρ),
      run (Atomic.step view (fun call => (routine call).entry) locked) a steps = some a' ∧
      steps.filterMap AtomicLabel.event? = [] ∧
      Simulates lock view locked ⟨lock.held, s, threads.set i (.inside call rest)⟩ a' := by
  have hai : a.threads[i]? = some (.waiting call) := by
    rw [ha, List.getElem?_map, hi, ← hwaiting]
    rfl
  have hmem : Phase.inside call rest ∈ threads.set i (.inside call rest) := by
    have hlt : i < threads.length := (List.getElem?_eq_some_iff.mp hi).1
    exact List.mem_set hlt _
  cases hrest' : rest with
  | act g next =>
      subst hrest'
      obtain ⟨hlate, hseen⟩ := hrest g next rfl
      refine ⟨[], a, rfl, rfl, ?_, Nat.le_of_eq hcount, (by rw [hcount]; rfl), hseen, ?_, ?_⟩
      · change a.threads = (threads.set i _).map Phase.whole
        rw [List.map_set, ← ha]
        obtain ⟨hlt, heq⟩ := List.getElem?_eq_some_iff.mp hai
        change a.threads = a.threads.set i (.waiting call)
        rw [← heq, List.set_getElem_self]
      · intro call' g' next' hp
        rcases hothers _ hp with heq | hout
        · cases heq
          exact ⟨hexec, hlate⟩
        · cases hout
      · intro hnone
        exact absurd hmem (hnone call g next)
  | done result =>
      subst hrest'
      -- the section has had its effect
      have hs : s = (locked call a.shared).1 := by rw [← hexec]; rfl
      have hresult : result = (locked call a.shared).2 := by rw [← hexec]; rfl
      refine ⟨[.commit i], ⟨s, a.threads.set i (.returned result)⟩, ?_, rfl, ?_,
        Nat.le_of_eq hcount, by rw [hcount]; rfl, rfl, ?_, fun _ => rfl⟩
      · simp only [run, Atomic.step, hai, Option.bind_some, ← hs, ← hresult]
      · change a.threads.set i _ = (threads.set i _).map Phase.whole
        rw [List.map_set, ← ha]
        rfl
      · intro call' g' next' hp
        rcases hothers _ hp with heq | hout
        · cases heq
        · cases hout

variable (hlate : ∀ call, (routine call).body.Late view)
  (hexec : ∀ call s, (routine call).body.exec s = locked call s)

/-- A step of the threads, taken by the atomic system in steps that show the same events. -/
def Matched (lock : LockWord Word) (routine : Call → Routine σ ν ρ) (view : σ → ν)
    (locked : Call → σ → σ × ρ) (a : Atomic Call σ ρ) (x : SpinLabel Call ρ)
    (f' : Spinning Word Call σ ρ) : Prop :=
  ∃ (steps : List (AtomicLabel Call ρ)) (a' : Atomic Call σ ρ),
    run (Atomic.step view (fun call => (routine call).entry) locked) a steps = some a' ∧
    steps.filterMap AtomicLabel.event? = x.event?.toList ∧ Simulates lock view locked f' a'

theorem Simulates.step_enter (h : Simulates lock view locked f a)
    (hstep : f.step lock routine view (.event (.enter i call)) = some f') :
    Matched lock routine view locked a (.event (.enter i call)) f' := by
  simp only [Spinning.step] at hstep
  split at hstep
  · rename_i hi
    have hai := h.whole hi
    cases hentry : (routine call).entry (view f.shared) with
    | some result =>
        simp only [hentry] at hstep
        cases hstep
        refine ⟨[.event (.enter i call)], _, ?_, rfl,
          h.move hi rfl rfl⟩
        simp only [run, Atomic.step, hai, Phase.whole, ← h.seen, hentry, Option.bind_some]
    | none =>
        simp only [hentry] at hstep
        cases hstep
        refine ⟨[.event (.enter i call)], _, ?_, rfl, h.move hi rfl rfl⟩
        simp only [run, Atomic.step, hai, Phase.whole, ← h.seen, hentry, Option.bind_some]
  · cases hstep

theorem Simulates.step_leave (h : Simulates lock view locked f a) {result : ρ}
    (hstep : f.step lock routine view (.event (.leave i result)) = some f') :
    Matched lock routine view locked a (.event (.leave i result)) f' := by
  simp only [Spinning.step] at hstep
  split at hstep
  · rename_i r hi
    have hai := h.whole hi
    split at hstep
    · rename_i hr
      cases hstep
      refine ⟨[.event (.leave i result)], _, ?_, rfl, h.move hi rfl rfl⟩
      simp only [run, Atomic.step, hai, Phase.whole, hr, if_true, Option.bind_some]
    · cases hstep
  · cases hstep

include hlate hexec in
theorem Simulates.step_attempt (h : Simulates lock view locked f a)
    (hstep : f.step lock routine view (.attempt i) = some f') :
    Matched lock routine view locked a (.attempt i) f' := by
  simp only [Spinning.step] at hstep
  split at hstep
  · rename_i call hi
    have hword := h.word
    by_cases hnone : f.threads.countP Phase.isInside = 0
    · -- nobody is inside: the thread takes the lock
      rw [if_pos hnone] at hword
      simp only [hword, lock.tryLock_free, if_true] at hstep
      cases hstep
      have hout : ∀ p ∈ f.threads, p.isInside = false := by
        intro p hp
        simpa using List.countP_eq_zero.mp hnone p hp
      have hshared : f.shared = a.shared :=
        h.settled fun call g next hmem => by cases hout _ hmem
      have hcount := Threads.countP_set_add Phase.isInside hi
        (.inside call (routine call).body)
      rw [hnone] at hcount
      refine simulates_inside h.threads hi rfl ?_ ?_ ?_ ?_
      · intro p hp
        rcases List.mem_or_eq_of_mem_set hp with hp | heq
        · exact .inr (hout p hp)
        · exact .inl heq
      · simpa [Phase.isInside] using hcount
      · rw [hexec, hshared]
      · intro g next _
        exact ⟨hlate call, h.seen⟩
    · rw [if_neg hnone] at hword
      simp only [hword, lock.tryLock_held] at hstep
      cases hstep
      refine ⟨[], a, rfl, rfl, h.threads, h.one, ?_, h.seen, h.pending, h.settled⟩
      exact (if_neg hnone).symm
  · cases hstep

theorem Simulates.step_act (h : Simulates lock view locked f a)
    (hstep : f.step lock routine view (.act i) = some f') :
    Matched lock routine view locked a (.act i) f' := by
  simp only [Spinning.step] at hstep
  split at hstep
  · rename_i call g next hi
    cases hstep
    have hmem := List.mem_of_getElem? hi
    obtain ⟨hpending, hlater⟩ := h.pending call g next hmem
    have hpos : 0 < f.threads.countP Phase.isInside :=
      List.countP_pos_iff.mpr ⟨_, hmem, rfl⟩
    have hone : f.threads.countP Phase.isInside = 1 := Nat.le_antisymm h.one hpos
    have hword : f.word = lock.held := by rw [h.word, if_neg (Nat.ne_of_gt hpos)]
    have hcount := Threads.countP_set_add Phase.isInside hi (.inside call (next f.shared))
    rw [hword]
    refine simulates_inside h.threads hi rfl ?_ ?_ hpending ?_
    · intro p hp
      exact mem_set_of_countP_le_one hi rfl h.one hp
    · rw [hone] at hcount
      simpa [Phase.isInside] using hcount
    · intro g' next' hnext
      cases hlater with
      | last => cases hnext
      | act hview hlaterNext =>
          refine ⟨hlaterNext f.shared, ?_⟩
          rw [hview]
          exact h.seen
  · cases hstep

theorem Simulates.step_unlock (h : Simulates lock view locked f a)
    (hstep : f.step lock routine view (.unlock i) = some f') :
    Matched lock routine view locked a (.unlock i) f' := by
  simp only [Spinning.step] at hstep
  split at hstep
  · rename_i call result hi
    cases hstep
    have hmem := List.mem_of_getElem? hi
    have hpos : 0 < f.threads.countP Phase.isInside :=
      List.countP_pos_iff.mpr ⟨_, hmem, rfl⟩
    have hone : f.threads.countP Phase.isInside = 1 := Nat.le_antisymm h.one hpos
    have hcount := Threads.countP_set_add Phase.isInside hi (.returned result)
    rw [hone] at hcount
    have hnone : (f.threads.set i (.returned result)).countP Phase.isInside = 0 := by
      simpa [Phase.isInside] using hcount
    have hword : f.word = lock.held := by rw [h.word, if_neg (Nat.ne_of_gt hpos)]
    have hothers : ∀ p ∈ f.threads.set i (.returned result),
        p = .returned result ∨ p.isInside = false := fun p hp =>
      mem_set_of_countP_le_one hi rfl h.one hp
    have hsettled : f.shared = a.shared := by
      refine h.settled ?_
      intro call' g next hother
      obtain ⟨j, hj⟩ := List.mem_iff_getElem?.mp hother
      have hne : i ≠ j := by
        intro heq
        rw [heq, hj] at hi
        cases hi
      have hstill : Phase.inside call' (.act g next) ∈ f.threads.set i (.returned result) :=
        List.mem_iff_getElem?.mpr ⟨j, by rw [List.getElem?_set_ne hne, hj]⟩
      rcases hothers _ hstill with heq | hout
      · cases heq
      · cases hout
    refine ⟨[], a, rfl, rfl, ?_, ?_, ?_, h.seen, ?_, fun _ => hsettled⟩
    · have hai : a.threads[i]? = some (.returned result) := h.whole hi
      obtain ⟨hlt, heq⟩ := List.getElem?_eq_some_iff.mp hai
      change a.threads = (f.threads.set i _).map Phase.whole
      rw [List.map_set, ← h.threads]
      change a.threads = a.threads.set i (.returned result)
      rw [← heq, List.set_getElem_self]
    · exact Nat.le_trans (Nat.le_of_eq hnone) (Nat.zero_le 1)
    · change lock.unlock f.word = if _ then _ else _
      rw [if_pos hnone, hword, lock.unlock_held]
    · intro call' g next hp
      rcases hothers _ hp with heq | hout
      · cases heq
      · cases hout
  · cases hstep

include hlate hexec in
theorem Simulates.step (h : Simulates lock view locked f a) {x : SpinLabel Call ρ}
    (hstep : f.step lock routine view x = some f') : Matched lock routine view locked a x f' := by
  cases x with
  | event e =>
      cases e with
      | enter i call => exact h.step_enter hstep
      | leave i result => exact h.step_leave hstep
  | attempt i => exact h.step_attempt hlate hexec hstep
  | act i => exact h.step_act hstep
  | unlock i => exact h.step_unlock hstep

omit [DecidableEq ρ] in
theorem start_simulates (n : ℕ) (s : σ) :
    Simulates lock view locked (Spinning.start lock n s : Spinning Word Call σ ρ)
      (Atomic.start n s) := by
  have hidle : ∀ p ∈ List.replicate n (Phase.idle : Phase Call σ ρ), p = .idle := fun p hp =>
    List.eq_of_mem_replicate hp
  have hnone : (List.replicate n (Phase.idle : Phase Call σ ρ)).countP Phase.isInside = 0 := by
    refine List.countP_eq_zero.mpr ?_
    intro p hp
    rw [hidle p hp]
    simp [Phase.isInside]
  constructor
  · simp [Spinning.start, Atomic.start, Phase.whole]
  · exact Nat.le_trans (Nat.le_of_eq hnone) (Nat.zero_le 1)
  · exact (if_pos hnone).symm
  · rfl
  · intro call g next hp
    cases hidle _ hp
  · exact fun _ => rfl

include hlate hexec in
/-- Every history of calls and returns is one with whole sections. -/
theorem Simulates.run (h : Simulates lock view locked f a) {labels : List (SpinLabel Call ρ)}
    (hrun : run (Spinning.step lock routine view) f labels = some f') :
    ∃ (steps : List (AtomicLabel Call ρ)) (a' : Atomic Call σ ρ),
      run (Atomic.step view (fun call => (routine call).entry) locked) a steps = some a' ∧
      steps.filterMap AtomicLabel.event? = labels.filterMap SpinLabel.event? ∧
      Simulates lock view locked f' a' := by
  induction labels generalizing f a with
  | nil =>
      cases hrun
      exact ⟨[], a, rfl, rfl, h⟩
  | cons x labels ih =>
      obtain ⟨mid, hmid, hrest⟩ := run_cons_eq_some.mp hrun
      obtain ⟨first, b, hfirst, hevents, hb⟩ := h.step hlate hexec hmid
      obtain ⟨steps, a', hsteps, hlater, ha'⟩ := ih hb hrest
      refine ⟨first ++ steps, a', ?_, ?_, ha'⟩
      · rw [run_append, hfirst, Option.bind_some, hsteps]
      · rw [List.filterMap_append, hevents, hlater, List.filterMap_cons]
        cases x.event? <;> rfl

omit [DecidableEq ρ] in
theorem Simulates.of_free (h : Simulates lock view locked f a) (hfree : f.word = lock.free) :
    f.shared = a.shared ∧ f.threads.countP Phase.isInside = 0 := by
  have hnone : f.threads.countP Phase.isInside = 0 := by
    by_contra hsome
    have hheld : lock.free = lock.held := by rw [← hfree, h.word, if_neg hsome]
    have htry := lock.tryLock_free
    rw [hheld, lock.tryLock_held] at htry
    cases htry
  refine ⟨h.settled ?_, hnone⟩
  intro call g next hmem
  have hout := List.countP_eq_zero.mp hnone _ hmem
  exact hout rfl

end Simulation

end Casting.Atomicity
