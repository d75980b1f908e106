import Casting.Framework.Transition
import Mathlib.Algebra.BigOperators.Group.Finset.Basic
import Mathlib.Algebra.Order.BigOperators.Group.Finset
import Mathlib.Data.List.Nodup

/-!
# Lock orders

Any number of threads with the lock actions they still have to do.  If every thread asks for locks
in an order without infinite ascents, a thread that holds one never waits for ever, unless it waits
for itself: the locks can always be given back.
-/

namespace Casting.LockOrder

open Transition

/-- A wait is for something other than a lock, and may last as long as it likes. -/
inductive Action (Lock : Type*)
  | lock (l : Lock)
  | unlock (l : Lock)
  | wait
  deriving DecidableEq, Repr

variable {Thread Lock : Type*} [DecidableEq Thread] [DecidableEq Lock]

structure System (Thread Lock : Type*) where
  owner : Lock → Option Thread
  todo : Thread → List (Action Lock)

namespace System

def start (trace : Thread → List (Action Lock)) : System Thread Lock := ⟨fun _ => none, trace⟩

/-- The next action of a thread.  A lock that is taken is waited for. -/
def step (s : System Thread Lock) (th : Thread) : Option (System Thread Lock) :=
  match s.todo th with
  | [] => none
  | .lock l :: rest =>
      if s.owner l = none then
        some ⟨Function.update s.owner l (some th), Function.update s.todo th rest⟩
      else none
  | .unlock l :: rest =>
      some ⟨Function.update s.owner l none, Function.update s.todo th rest⟩
  | .wait :: rest => some ⟨s.owner, Function.update s.todo th rest⟩

end System

/-- A thread that holds some locks asks only for locks that it may ask for then; it unlocks what it
holds, waits with no lock held and ends with none. -/
def Nested (may : Lock → Lock → Prop) : List Lock → List (Action Lock) → Prop
  | held, [] => held = []
  | held, .lock l :: rest => (∀ h ∈ held, may h l) ∧ Nested may (l :: held) rest
  | held, .unlock l :: rest => l ∈ held ∧ Nested may (held.erase l) rest
  | held, .wait :: rest => held = [] ∧ Nested may held rest

/-- The thread never asks for a lock that it holds. -/
def NoReentry : List Lock → List (Action Lock) → Prop
  | _, [] => True
  | held, .lock l :: rest => l ∉ held ∧ NoReentry (l :: held) rest
  | held, .unlock l :: rest => NoReentry (held.erase l) rest
  | held, .wait :: rest => NoReentry held rest

instance decidableNoReentry :
    ∀ (held : List Lock) (todo : List (Action Lock)), Decidable (NoReentry held todo)
  | _, [] => .isTrue trivial
  | held, .lock l :: rest =>
      have := decidableNoReentry (l :: held) rest
      inferInstanceAs (Decidable (l ∉ held ∧ NoReentry (l :: held) rest))
  | held, .unlock l :: rest => decidableNoReentry (held.erase l) rest
  | held, .wait :: rest => decidableNoReentry held rest

theorem Nested.noReentry {may : Lock → Lock → Prop} (hirrefl : ∀ l, ¬ may l l) {held : List Lock}
    {todo : List (Action Lock)} (h : Nested may held todo) : NoReentry held todo := by
  induction todo generalizing held with
  | nil => trivial
  | cons a todo ih =>
      cases a with
      | lock l => exact ⟨fun hmem => hirrefl l (h.1 l hmem), ih h.2⟩
      | unlock l => exact ih h.2
      | wait => exact ih h.2

theorem Nested.mono {may may' : Lock → Lock → Prop} (hmay : ∀ h l, may h l → may' h l)
    {held : List Lock} {todo : List (Action Lock)} (h : Nested may held todo) :
    Nested may' held todo := by
  induction todo generalizing held with
  | nil => exact h
  | cons a todo ih =>
      cases a with
      | lock l => exact ⟨fun x hx => hmay x l (h.1 x hx), ih h.2⟩
      | unlock l => exact ⟨h.1, ih h.2⟩
      | wait => exact ⟨h.1, ih h.2⟩

/-! ### Putting actions together -/

/-- The actions can be done with these locks held, and leave them held. -/
def Fits (may : Lock → Lock → Prop) (held : List Lock) (t : List (Action Lock)) : Prop :=
  ∀ rest, Nested may held rest → Nested may held (t ++ rest)

/-- A critical section. -/
def holding (l : Lock) (inside : List (Action Lock)) : List (Action Lock) :=
  .lock l :: inside ++ [.unlock l]

section Fits

variable {may : Lock → Lock → Prop} {held : List Lock} {t u : List (Action Lock)} {l : Lock}

theorem fits_nil : Fits may held [] := fun _ h => h

theorem Fits.append (ht : Fits may held t) (hu : Fits may held u) : Fits may held (t ++ u) := by
  intro rest hrest
  rw [List.append_assoc]
  exact ht _ (hu rest hrest)

theorem Fits.holding (hmay : ∀ h ∈ held, may h l) (ht : Fits may (l :: held) t) :
    Fits may held (holding l t) := by
  intro rest hrest
  have hclose : Nested may (l :: held) (.unlock l :: rest) :=
    ⟨List.mem_cons_self, by simpa using hrest⟩
  have hbody := ht _ hclose
  refine ⟨hmay, ?_⟩
  simpa [LockOrder.holding] using hbody

theorem fits_wait : Fits may [] [.wait] := fun _ hrest => ⟨rfl, hrest⟩

theorem Fits.nested (ht : Fits may [] t) : Nested may [] t := by
  have h := ht [] rfl
  rwa [List.append_nil] at h

end Fits

namespace System

variable {before : Lock → Lock → Prop} {s next final : System Thread Lock} {th other : Thread}
  {l : Lock} {held : List Lock}

structure Holds (before : Lock → Lock → Prop) (s : System Thread Lock) (th : Thread)
    (held : List Lock) : Prop where
  nested : Nested (fun h l => before h l ∨ h = l) held (s.todo th)
  nodup : held.Nodup
  owns : ∀ l, l ∈ held ↔ s.owner l = some th

theorem step_cases (h : s.step th = some next) :
    (∃ l rest, s.todo th = .lock l :: rest ∧ s.owner l = none ∧
      next = ⟨Function.update s.owner l (some th), Function.update s.todo th rest⟩) ∨
    (∃ l rest, s.todo th = .unlock l :: rest ∧
      next = ⟨Function.update s.owner l none, Function.update s.todo th rest⟩) ∨
    ∃ rest, s.todo th = .wait :: rest ∧ next = ⟨s.owner, Function.update s.todo th rest⟩ := by
  unfold step at h
  split at h
  · cases h
  · rename_i l rest htodo
    split at h
    · rename_i hfree
      cases h
      exact .inl ⟨l, rest, htodo, hfree, rfl⟩
    · cases h
  · rename_i l rest htodo
    cases h
    exact .inr (.inl ⟨l, rest, htodo, rfl⟩)
  · rename_i rest htodo
    cases h
    exact .inr (.inr ⟨rest, htodo, rfl⟩)

theorem Holds.self (hs : s.Holds before th held) (h : s.step th = some next) :
    ∃ held', next.Holds before th held' ∧
      (NoReentry held (s.todo th) ↔ NoReentry held' (next.todo th)) := by
  obtain ⟨hnested, hnodup, howns⟩ := hs
  rcases step_cases h with ⟨l, rest, htodo, hfree, rfl⟩ | ⟨l, rest, htodo, rfl⟩ |
    ⟨rest, htodo, rfl⟩
  · rw [htodo] at hnested
    have hnew : l ∉ held := by simp [howns, hfree]
    refine ⟨l :: held, ⟨by simpa using hnested.2, hnodup.cons hnew, ?_⟩, ?_⟩
    · intro x
      by_cases hx : x = l
      · simp [hx]
      · simp [hx, howns]
    · simp [htodo, NoReentry, hnew]
  · rw [htodo] at hnested
    refine ⟨held.erase l, ⟨by simpa using hnested.2, hnodup.erase l, ?_⟩, ?_⟩
    · intro x
      by_cases hx : x = l
      · simp [hx, hnodup.not_mem_erase]
      · simp [hx, howns, List.mem_erase_of_ne hx]
    · simp [htodo, NoReentry]
  · rw [htodo] at hnested
    refine ⟨held, ⟨by simpa using hnested.2, hnodup, howns⟩, ?_⟩
    simp [htodo, NoReentry]

theorem Holds.elsewhere (hs : s.Holds before other held) {mine : List Lock}
    (hmine : s.Holds before th mine) (hne : other ≠ th) (h : s.step th = some next) :
    next.Holds before other held ∧ next.todo other = s.todo other := by
  obtain ⟨hnested, hnodup, howns⟩ := hs
  rcases step_cases h with ⟨l, rest, htodo, hfree, rfl⟩ | ⟨l, rest, htodo, rfl⟩ |
    ⟨rest, htodo, rfl⟩
  · refine ⟨⟨by simpa [hne] using hnested, hnodup, ?_⟩, by simp [hne]⟩
    intro x
    by_cases hx : x = l
    · subst hx
      simp [howns, hfree, hne.symm]
    · simp [hx, howns]
  · have hunlock := hmine.nested
    rw [htodo] at hunlock
    have howner : s.owner l = some th := (hmine.owns l).mp hunlock.1
    refine ⟨⟨by simpa [hne] using hnested, hnodup, ?_⟩, by simp [hne]⟩
    intro x
    by_cases hx : x = l
    · subst hx
      simp [howns, howner, hne.symm]
    · simp [hx, howns]
  · exact ⟨⟨by simpa [hne] using hnested, hnodup, howns⟩, by simp [hne]⟩

/-- Every thread holds what its actions so far took and did not give back. -/
def Sound (before : Lock → Lock → Prop) (s : System Thread Lock) : Prop :=
  ∀ th, ∃ held, s.Holds before th held

/-- And no thread will ask for a lock that it holds. -/
def Ordered (before : Lock → Lock → Prop) (s : System Thread Lock) : Prop :=
  ∀ th, ∃ held, s.Holds before th held ∧ NoReentry held (s.todo th)

theorem Sound.step (hs : s.Sound before) (h : s.step th = some next) : next.Sound before := by
  intro other
  obtain ⟨mine, hmine⟩ := hs th
  by_cases hother : other = th
  · subst hother
    obtain ⟨held', hheld', _⟩ := hmine.self h
    exact ⟨held', hheld'⟩
  · obtain ⟨held, hheld⟩ := hs other
    exact ⟨held, (hheld.elsewhere hmine hother h).1⟩

theorem Ordered.step (hs : s.Ordered before) (h : s.step th = some next) :
    next.Ordered before := by
  intro other
  obtain ⟨mine, hmine, hfirst⟩ := hs th
  by_cases hother : other = th
  · subst hother
    obtain ⟨held', hheld', hiff⟩ := hmine.self h
    exact ⟨held', hheld', hiff.mp hfirst⟩
  · obtain ⟨held, hheld, hrest⟩ := hs other
    obtain ⟨hheld', htodo⟩ := hheld.elsewhere hmine hother h
    exact ⟨held, hheld', htodo ▸ hrest⟩

omit [DecidableEq Thread] in
theorem holds_start {trace : Thread → List (Action Lock)}
    (h : Nested (fun h l => before h l ∨ h = l) [] (trace th)) :
    (start trace).Holds before th [] where
  nested := h
  nodup := List.nodup_nil
  owns := by simp [start]

/-! ### Whoever holds a lock can go on -/

/-- Some thread that holds a lock can take a step: the last one that others wait for. -/
theorem Ordered.progress (hwf : WellFounded fun a b => before b a) (hs : s.Ordered before)
    (hl : s.owner l = some th) :
    ∃ th' l' next, s.owner l' = some th' ∧ s.step th' = some next := by
  induction l using hwf.induction generalizing th with
  | _ l ih =>
      obtain ⟨held, ⟨hnested, _, howns⟩, hfirst⟩ := hs th
      have hmem : l ∈ held := (howns l).mpr hl
      cases htodo : s.todo th with
      | nil =>
          rw [htodo] at hnested
          rw [show held = [] from hnested] at hmem
          cases hmem
      | cons a rest =>
          cases a with
          | wait =>
              rw [htodo] at hnested
              rw [hnested.1] at hmem
              cases hmem
          | unlock x => exact ⟨th, l, _, hl, by simp only [System.step, htodo]; rfl⟩
          | lock x =>
              rw [htodo] at hnested hfirst
              cases howner : s.owner x with
              | none => exact ⟨th, l, _, hl, by simp only [System.step, htodo, howner]; rfl⟩
              | some th' =>
                  rcases hnested.1 l hmem with hbefore | rfl
                  · exact ih x hbefore howner
                  · exact (hfirst.1 hmem).elim

theorem wait_count_step (h : s.step th = some next) (hs : s.Ordered before)
    (hl : s.owner l = some th) (other : Thread) :
    (next.todo other).count .wait = (s.todo other).count .wait := by
  by_cases hother : other = th
  · subst hother
    rcases step_cases h with ⟨x, rest, htodo, _, rfl⟩ | ⟨x, rest, htodo, rfl⟩ |
      ⟨rest, htodo, rfl⟩
    · simp [htodo]
    · simp [htodo]
    · obtain ⟨held, ⟨hnested, _, howns⟩, _⟩ := hs other
      rw [htodo] at hnested
      have hmem := (howns l).mpr hl
      rw [hnested.1] at hmem
      cases hmem
  · rcases step_cases h with ⟨x, rest, htodo, _, rfl⟩ | ⟨x, rest, htodo, rfl⟩ |
      ⟨rest, htodo, rfl⟩ <;> simp [hother]

theorem owner_step (h : s.step th = some next) (hl : next.owner l = some other) :
    other = th ∨ s.owner l = some other := by
  rcases step_cases h with ⟨x, rest, htodo, _, rfl⟩ | ⟨x, rest, htodo, rfl⟩ | ⟨rest, htodo, rfl⟩
  · by_cases hx : l = x
    · subst hx
      left
      simpa using hl.symm
    · right
      simpa [hx] using hl
  · by_cases hx : l = x
    · subst hx
      simp at hl
    · right
      simpa [hx] using hl
  · exact .inr hl

theorem length_todo_step (h : s.step th = some next) :
    (next.todo th).length < (s.todo th).length ∧ ∀ other, other ≠ th →
      next.todo other = s.todo other := by
  rcases step_cases h with ⟨x, rest, htodo, _, rfl⟩ | ⟨x, rest, htodo, rfl⟩ |
    ⟨rest, htodo, rfl⟩ <;>
    exact ⟨by simp [htodo], fun other hother => by simp [hother]⟩

/-- Only the threads that hold locks need to go on for all locks to be given back. -/
theorem Ordered.exists_released (hwf : WellFounded fun a b => before b a)
    (hs : s.Ordered before) (ths : Finset Thread)
    (hths : ∀ l th, s.owner l = some th → th ∈ ths) :
    ∃ more final, run System.step s more = some final ∧ (∀ l, final.owner l = none) ∧
      ∀ th, (final.todo th).count .wait = (s.todo th).count .wait := by
  induction hn : ∑ th ∈ ths, (s.todo th).length using Nat.strong_induction_on
    generalizing s with
  | h n ih =>
      by_cases hfree : ∀ l, s.owner l = none
      · exact ⟨[], s, rfl, hfree, fun _ => rfl⟩
      · obtain ⟨l, hl⟩ := not_forall.mp hfree
        obtain ⟨th, hth⟩ := Option.ne_none_iff_exists'.mp hl
        obtain ⟨th', l', next, howner, hnext⟩ := hs.progress hwf hth
        obtain ⟨hlt, hsame⟩ := length_todo_step hnext
        have hmem : th' ∈ ths := hths l' th' howner
        have hsum : ∑ th ∈ ths, (next.todo th).length < n := by
          rw [← hn]
          apply Finset.sum_lt_sum
          · intro other _
            by_cases hother : other = th'
            · subst hother
              exact hlt.le
            · rw [hsame other hother]
          · exact ⟨th', hmem, hlt⟩
        have hths' : ∀ l th, next.owner l = some th → th ∈ ths := by
          intro x other hx
          rcases owner_step hnext hx with rfl | hx
          · exact hmem
          · exact hths x other hx
        obtain ⟨more, final, hrun, hfinal, hcount⟩ := ih _ hsum (hs.step hnext) hths' rfl
        refine ⟨th' :: more, final, run_cons_eq_some.mpr ⟨next, hnext, hrun⟩, hfinal, ?_⟩
        intro other
        rw [hcount, wait_count_step hnext hs howner]

/-! ### A thread that waits for itself -/

def Stuck (s : System Thread Lock) (th : Thread) (l : Lock) : Prop :=
  s.owner l = some th ∧ ∃ rest, s.todo th = .lock l :: rest

theorem Stuck.step (hstuck : s.Stuck th l) (hs : s.Sound before) (h : s.step other = some next) :
    next.Stuck th l := by
  obtain ⟨howner, rest, htodo⟩ := hstuck
  have hother : th ≠ other := by
    rintro rfl
    simp [System.step, htodo, howner] at h
  obtain ⟨mine, hmine⟩ := hs other
  obtain ⟨held, hheld⟩ := hs th
  obtain ⟨hheld', htodo'⟩ := hheld.elsewhere hmine hother h
  exact ⟨(hheld'.owns l).mp ((hheld.owns l).mpr howner), rest, htodo'.trans htodo⟩

theorem Stuck.run (hstuck : s.Stuck th l) (hs : s.Sound before) {more : List Thread}
    (hrun : run System.step s more = some final) : final.Stuck th l := by
  induction more generalizing s with
  | nil =>
      cases hrun
      exact hstuck
  | cons other more ih =>
      obtain ⟨next, hnext, hrest⟩ := run_cons_eq_some.mp hrun
      exact ih (hstuck.step hs hnext) (hs.step hnext) hrest

/-- Run alone, a thread that asks for a lock again comes to do so. -/
theorem exists_stuck (hs : s.Holds before th held) (halone : ∀ l, l ∉ held → s.owner l = none)
    (hagain : ¬ NoReentry held (s.todo th)) :
    ∃ more final l, run System.step s more = some final ∧ final.Stuck th l := by
  induction htodo : s.todo th generalizing s held with
  | nil =>
      rw [htodo] at hagain
      exact (hagain trivial).elim
  | cons a rest ih =>
      have hnext : ∀ {next}, s.step th = some next → next.todo th = rest →
          (∀ l, next.owner l ≠ none → next.owner l = some th) →
          ∃ more final l, run System.step s more = some final ∧ final.Stuck th l := by
        intro next hstep hrest howners
        obtain ⟨held', hheld', hiff⟩ := hs.self hstep
        have halone' : ∀ l, l ∉ held' → next.owner l = none := by
          intro l hl
          by_contra hsome
          exact hl ((hheld'.owns l).mpr (howners l hsome))
        obtain ⟨more, final, l, hrun, hstuck⟩ :=
          ih hheld' halone' (fun hfirst => hagain (hiff.mpr hfirst)) hrest
        exact ⟨th :: more, final, l, run_cons_eq_some.mpr ⟨next, hstep, hrun⟩, hstuck⟩
      have howners : ∀ l, s.owner l ≠ none → s.owner l = some th := by
        intro l hl
        by_cases hmem : l ∈ held
        · exact (hs.owns l).mp hmem
        · exact (hl (halone l hmem)).elim
      cases a with
      | lock x =>
          by_cases hx : x ∈ held
          · exact ⟨[], s, x, rfl, (hs.owns x).mp hx, rest, htodo⟩
          · refine hnext (by simp only [System.step, htodo, halone x hx]; rfl) (by simp) ?_
            intro l
            by_cases hl : l = x
            · simp [hl]
            · simpa [hl] using howners l
      | unlock x =>
          refine hnext (by simp only [System.step, htodo]; rfl) (by simp) ?_
          intro l
          by_cases hl : l = x
          · simp [hl]
          · simpa [hl] using howners l
      | wait =>
          have hstep : s.step th = some ⟨s.owner, Function.update s.todo th rest⟩ := by
            simp only [System.step, htodo]
          exact hnext hstep (by simp) howners

theorem mem_of_owner {trace : Thread → List (Action Lock)} {steps : List Thread}
    (hrun : run System.step (start trace) steps = some s) (hl : s.owner l = some th) :
    th ∈ steps := by
  have hall : ∀ {s final : System Thread Lock} {steps : List Thread},
      run System.step s steps = some final → final.owner l = some th →
      th ∈ steps ∨ s.owner l = some th := by
    intro s final steps hrun hl
    induction steps generalizing s with
    | nil =>
        cases hrun
        exact .inr hl
    | cons a steps ih =>
        obtain ⟨next, hnext, hrest⟩ := run_cons_eq_some.mp hrun
        rcases ih hrest with hmem | howner
        · exact .inl (List.mem_cons_of_mem a hmem)
        · rcases owner_step hnext howner with rfl | howner
          · exact .inl List.mem_cons_self
          · exact .inr howner
  rcases hall hrun hl with hmem | hnone
  · exact hmem
  · cases hnone

/-- In a system whose threads ask for locks in an order without infinite ascents: from every
reachable state all locks can be given back, without any wait coming to an end, exactly if no
thread ever asks for a lock that it holds. -/
theorem released_iff (hwf : WellFounded fun a b => before b a)
    {trace : Thread → List (Action Lock)}
    (htrace : ∀ th, Nested (fun h l => before h l ∨ h = l) [] (trace th)) :
    (∀ steps s, run System.step (start trace) steps = some s →
      ∃ more final, run System.step s more = some final ∧ (∀ l, final.owner l = none) ∧
        ∀ th, (final.todo th).count .wait = (s.todo th).count .wait) ↔
      ∀ th, NoReentry [] (trace th) := by
  constructor
  · intro hall th
    by_contra hagain
    obtain ⟨steps, s, l, hrun, hstuck⟩ :=
      exists_stuck (holds_start (htrace th)) (fun _ _ => rfl) hagain
    have hsound : s.Sound before :=
      Respects.run_invariant (fun _ _ _ hs (_ : True) hnext => hs.step hnext)
        (fun th => ⟨[], holds_start (htrace th)⟩)
        (respects_of_forall (p := fun _ => True) (fun _ _ => trivial) _) hrun
    obtain ⟨more, final, hmore, hfree, _⟩ := hall steps s hrun
    have howner := (hstuck.run hsound hmore).1
    rw [hfree l] at howner
    cases howner
  · intro hfirst steps s hrun
    have hordered : s.Ordered before :=
      Respects.run_invariant (fun _ _ _ hs (_ : True) hnext => hs.step hnext)
        (fun th => ⟨[], holds_start (htrace th), hfirst th⟩)
        (respects_of_forall (p := fun _ => True) (fun _ _ => trivial) _) hrun
    exact hordered.exists_released hwf steps.toFinset
      fun l th hl => List.mem_toFinset.mpr (mem_of_owner hrun hl)

end System

end Casting.LockOrder
