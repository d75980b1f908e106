import Mathlib.Data.List.Count

/-!
# Threads as a list of program points

What a set of threads has under way is the number of them at certain program points.  A thread that
takes a step changes one place of the list.
-/

namespace Casting.Threads

variable {Point : Type*} {threads : List Point} {i : Nat} {old : Point}

theorem countP_set_add (p : Point → Bool) (h : threads[i]? = some old) (new : Point) :
    (threads.set i new).countP p + (p old).toNat = threads.countP p + (p new).toNat := by
  induction threads generalizing i with
  | nil => simp at h
  | cons point threads ih =>
      cases i with
      | zero =>
          simp only [List.getElem?_cons_zero, Option.some.injEq] at h
          subst h
          simp only [List.set_cons_zero, List.countP_cons]
          cases p point <;> cases p new <;> simp
      | succ i =>
          have hrest := ih (i := i) (by simpa using h)
          simp only [List.set_cons_succ, List.countP_cons]
          omega

theorem countP_lt {p q : Point → Bool} (h : threads[i]? = some old) (hold : p old = false)
    (hq : q old = true) (hpq : ∀ point, p point = true → q point = true) :
    threads.countP p < threads.countP q := by
  induction threads generalizing i with
  | nil => simp at h
  | cons point threads ih =>
      have hmono : threads.countP p ≤ threads.countP q :=
        List.countP_mono_left fun point _ => hpq point
      have hfirst : p point = true → q point = true := hpq point
      simp only [List.countP_cons]
      cases i with
      | zero =>
          simp only [List.getElem?_cons_zero, Option.some.injEq] at h
          subst h
          simp only [hold, hq]
          exact Nat.lt_succ_of_le hmono
      | succ i =>
          have hrest := ih (i := i) (by simpa using h)
          cases hp : p point with
          | false => simp; omega
          | true => simp [hfirst hp]; omega

/-- At most one thread is at a point of `q`, and another one is, so none is at a point of `p`. -/
theorem countP_eq_zero_of_le_one {p q : Point → Bool} (h : threads[i]? = some old)
    (hold : p old = false) (hq : q old = true) (hpq : ∀ point, p point = true → q point = true)
    (hone : threads.countP q ≤ 1) : threads.countP p = 0 := by
  have := countP_lt h hold hq hpq
  omega

end Casting.Threads
