import Mathlib.Algebra.BigOperators.Group.List.Basic
import Mathlib.Algebra.Order.Group.Int
import Mathlib.Tactic.Ring

/-!
# Forests in prefix order

A list of nodes each of which is followed by as many trees as its arity says.  A list is such a
forest exactly if no arity is negative and every rest of it has more nodes than its nodes claim.
-/

namespace Casting.Forest

variable {α : Type*} (arity : α → ℤ)

/-- A list that parses into `n` complete trees with nothing left over. -/
inductive Trees : ℕ → List α → Prop
  | nil : Trees 0 []
  | node {n k : ℕ} {a : α} {inner rest : List α} : arity a = k → Trees k inner → Trees n rest →
      Trees (n + 1) (a :: (inner ++ rest))

/-- How many nodes there are that no other node claims. -/
def roots (as : List α) : ℤ := (as.map fun a => 1 - arity a).sum

/-- Every rest of the list starts with a node of some arity and has a root. -/
def Rooted (as : List α) : Prop :=
  ∀ before a after, as = before ++ a :: after → 0 ≤ arity a ∧ 0 < roots arity (a :: after)

variable {arity} {as bs : List α} {a : α} {m n : ℕ}

@[simp]
theorem roots_nil : roots arity [] = 0 := rfl

@[simp]
theorem roots_cons : roots arity (a :: as) = 1 - arity a + roots arity as := rfl

@[simp]
theorem roots_append : roots arity (as ++ bs) = roots arity as + roots arity bs := by
  simp [roots]

theorem rooted_nil : Rooted arity [] := by
  intro before a after h
  cases before <;> cases h

theorem rooted_cons :
    Rooted arity (a :: as) ↔ (0 ≤ arity a ∧ 0 < roots arity (a :: as)) ∧ Rooted arity as := by
  constructor
  · intro h
    refine ⟨h [] a as rfl, ?_⟩
    rintro before b after rfl
    exact h (a :: before) b after rfl
  · intro ⟨hhead, hrest⟩ before b after heq
    cases before with
    | nil =>
      cases heq
      exact hhead
    | cons b' before =>
      cases heq
      exact hrest before b after rfl

theorem Rooted.arity_nonneg (h : Rooted arity as) (ha : a ∈ as) : 0 ≤ arity a := by
  obtain ⟨before, after, hsplit⟩ := List.mem_iff_append.mp ha
  exact (h before a after hsplit).1

theorem Rooted.roots_nonneg (h : Rooted arity as) : 0 ≤ roots arity as := by
  cases as with
  | nil => exact le_rfl
  | cons a as => exact (h [] a as rfl).2.le

theorem Trees.roots_eq (h : Trees arity n as) : roots arity as = n := by
  induction h with
  | nil => rfl
  | node harity _ _ ih ih' =>
    rw [roots_cons, roots_append, ih, ih', harity]
    push_cast
    ring

theorem Trees.eq_nil (h : Trees arity 0 as) : as = [] := by
  cases h
  rfl

theorem Trees.append (h : Trees arity m as) (h' : Trees arity n bs) :
    Trees arity (m + n) (as ++ bs) := by
  induction h with
  | nil =>
    rw [Nat.zero_add]
    exact h'
  | node harity hinner _ _ ih =>
    rw [Nat.add_right_comm, List.cons_append, List.append_assoc]
    exact .node harity hinner ih

theorem Trees.split (h : Trees arity (m + n) as) :
    ∃ bs cs, as = bs ++ cs ∧ Trees arity m bs ∧ Trees arity n cs := by
  induction m generalizing as with
  | zero =>
    rw [Nat.zero_add] at h
    exact ⟨[], as, rfl, .nil, h⟩
  | succ m ih =>
    rw [Nat.add_right_comm] at h
    cases h with
    | node harity hinner hrest =>
      obtain ⟨bs, cs, rfl, hbs, hcs⟩ := ih hrest
      refine ⟨_, cs, ?_, .node harity hinner hbs, hcs⟩
      rw [List.cons_append, List.append_assoc]

private theorem rooted_append (has : Rooted arity as) (hbs : Rooted arity bs)
    (hpos : 0 ≤ roots arity bs) : Rooted arity (as ++ bs) := by
  induction as with
  | nil => exact hbs
  | cons a as ih =>
    obtain ⟨⟨harity, hroots⟩, hrest⟩ := rooted_cons.mp has
    rw [roots_cons] at hroots
    rw [List.cons_append]
    refine rooted_cons.mpr ⟨⟨harity, ?_⟩, ih hrest⟩
    rw [roots_cons, roots_append]
    omega

theorem Trees.rooted (h : Trees arity n as) : Rooted arity as := by
  induction h with
  | nil => exact rooted_nil
  | @node n k a inner rest harity hinner hrest ih ih' =>
    have hrestRoots := hrest.roots_eq
    refine rooted_cons.mpr ⟨⟨?_, ?_⟩, rooted_append ih ih' ?_⟩
    · rw [harity]
      exact Int.natCast_nonneg k
    · rw [roots_cons, roots_append, hinner.roots_eq, hrestRoots, harity]
      omega
    · rw [hrestRoots]
      exact Int.natCast_nonneg n

theorem trees_iff : Trees arity n as ↔ roots arity as = n ∧ Rooted arity as := by
  constructor
  · intro h
    exact ⟨h.roots_eq, h.rooted⟩
  · induction as generalizing n with
    | nil =>
      rintro ⟨hroots, -⟩
      rw [roots_nil] at hroots
      obtain rfl : n = 0 := by exact_mod_cast hroots.symm
      exact .nil
    | cons a as ih =>
      intro ⟨hroots, hrooted⟩
      obtain ⟨⟨harity, hpos⟩, hrest⟩ := rooted_cons.mp hrooted
      rw [roots_cons] at hroots hpos
      obtain ⟨k, hk⟩ := Int.eq_ofNat_of_zero_le harity
      obtain ⟨n, rfl⟩ := Nat.exists_eq_succ_of_ne_zero (show n ≠ 0 by omega)
      -- what is not claimed by the first node are the other trees
      have hsum : roots arity as = ((k + n : ℕ) : ℤ) := by
        push_cast at hroots ⊢
        omega
      obtain ⟨inner, rest, rfl, hinner, hrest'⟩ := (ih ⟨hsum, hrest⟩).split
      exact .node hk hinner hrest'

/-- The nodes up to some place inside have fewer roots than all. -/
theorem Trees.roots_take_lt (h : Trees arity n as) {p : ℕ} (hp : p < as.length) :
    roots arity (as.take p) < n := by
  have hsplit : as = as.take p ++ as[p] :: as.drop (p + 1) := by
    rw [List.cons_getElem_drop_succ, List.take_append_drop]
  have hroots := h.roots_eq
  rw [hsplit, roots_append] at hroots
  have hpos := (h.rooted _ _ _ hsplit).2
  omega

section Map

variable {β : Type*} {f : β → α} {bs : List β}

theorem roots_map : roots arity (bs.map f) = roots (fun b => arity (f b)) bs := by
  rw [roots, roots, List.map_map]
  rfl

theorem rooted_map : Rooted arity (bs.map f) ↔ Rooted (fun b => arity (f b)) bs := by
  induction bs with
  | nil => exact iff_of_true rooted_nil rooted_nil
  | cons b bs ih => rw [List.map_cons, rooted_cons, rooted_cons, ih, ← List.map_cons, roots_map]

theorem trees_map : Trees arity n (bs.map f) ↔ Trees (fun b => arity (f b)) n bs := by
  rw [trees_iff, trees_iff, roots_map, rooted_map]

end Map

theorem Trees.length_le (h : Trees arity n as) : n ≤ as.length := by
  induction h with
  | nil => exact le_rfl
  | node _ _ _ _ ih =>
    rw [List.length_cons, List.length_append]
    omega

end Casting.Forest
