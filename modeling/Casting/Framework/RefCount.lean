import Mathlib.Data.Int.Basic
import Mathlib.Data.Set.Card
import Mathlib.Logic.Function.Basic

/-!
# Counted references

A registry gives every registered key a reference count, kept in a 32-bit integer that wraps
around.  As long as no count is taken beyond the largest integer, a key is registered exactly
while references to it are outstanding.
-/

namespace Casting.RefCount

/-- The value a 32-bit integer takes. -/
def wrap (n : ℤ) : ℤ := Int.bmod n 4294967296

/-- The largest 32-bit integer. -/
def maxCount : ℕ := 2147483647

def inc (n : ℤ) : ℤ := wrap (n + 1)

def dec (n : ℤ) : ℤ := wrap (n - 1)

theorem wrap_of_range {n : ℤ} (hlow : -2147483648 ≤ n) (hhigh : n ≤ 2147483647) : wrap n = n := by
  simp only [wrap, Int.bmod]
  omega

theorem inc_of_lt {n : ℕ} (h : n < maxCount) : inc n = (n + 1 : ℕ) := by
  simp only [maxCount] at h
  rw [inc, wrap_of_range (by omega) (by omega)]
  omega

theorem inc_ne_self (n : ℤ) : inc n ≠ n := by
  simp only [inc, wrap, Int.bmod]
  omega

theorem inc_max : inc maxCount = -2147483648 := by decide

theorem dec_of_pos {n : ℕ} (hpos : 0 < n) (h : n ≤ maxCount) : dec n = (n - 1 : ℕ) := by
  simp only [maxCount] at h
  rw [dec, wrap_of_range (by omega) (by omega)]
  omega

section Registry

variable {Key : Type*} [DecidableEq Key]

def add (r : Key → Option ℤ) (k : Key) : Key → Option ℤ := Function.update r k (some 1)

def ref (r : Key → Option ℤ) (k : Key) : Key → Option ℤ :=
  match r k with
  | none => r
  | some n => Function.update r k (some (inc n))

/-- Give a reference back; the key goes with the last one. -/
def free (r : Key → Option ℤ) (k : Key) : Key → Option ℤ :=
  match r k with
  | none => r
  | some n => Function.update r k (if 0 < dec n then some (dec n) else none)

/-- What a registry holds for a number of outstanding references. -/
def count (n : ℕ) : Option ℤ := if n = 0 then none else some n

theorem count_of_pos {n : ℕ} (h : 0 < n) : count n = some (n : ℤ) := if_neg (Nat.ne_of_gt h)

theorem count_eq_if (n : ℕ) : count n = if 0 < (n : ℤ) then some (n : ℤ) else none := by
  cases n with
  | zero => rfl
  | succ n => rw [count_of_pos (Nat.succ_pos n), if_pos (by omega)]

theorem count_eq_none {n : ℕ} : count n = none ↔ n = 0 := by
  simp [count]

def Counts (r : Key → Option ℤ) (out : Key → ℕ) : Prop :=
  ∀ k, r k = count (out k) ∧ out k ≤ maxCount

variable {r : Key → Option ℤ} {out : Key → ℕ} {k : Key}

omit [DecidableEq Key] in
theorem counts_empty : Counts (fun _ : Key => none) fun _ => 0 := fun _ => ⟨rfl, Nat.zero_le _⟩

theorem Counts.update (h : Counts r out) {n : ℕ} (hn : n ≤ maxCount) :
    Counts (Function.update r k (count n)) (Function.update out k n) := by
  intro other
  by_cases hother : other = k
  · subst hother
    rw [Function.update_self, Function.update_self]
    exact ⟨rfl, hn⟩
  · rw [Function.update_of_ne hother, Function.update_of_ne hother]
    exact h other

theorem Counts.add (h : Counts r out) :
    Counts (RefCount.add r k) (Function.update out k 1) := by
  have hnext := h.update (k := k) (n := 1) (by decide)
  exact hnext

theorem Counts.ref (h : Counts r out) (hpos : 0 < out k) (hmax : out k < maxCount) :
    Counts (RefCount.ref r k) (Function.update out k (out k + 1)) := by
  have hk : r k = some (out k : ℤ) := (h k).1.trans (count_of_pos hpos)
  have hnext := h.update (k := k) (n := out k + 1) hmax
  rw [count_of_pos (Nat.succ_pos _)] at hnext
  simp only [RefCount.ref, hk]
  rw [inc_of_lt hmax]
  exact hnext

theorem Counts.free (h : Counts r out) :
    Counts (RefCount.free r k) (Function.update out k (out k - 1)) := by
  rcases Nat.eq_zero_or_pos (out k) with hzero | hpos
  · have hk : r k = none := by rw [(h k).1, hzero]; rfl
    have hsame : Function.update out k (out k - 1) = out := by
      rw [hzero, ← hzero]
      exact Function.update_eq_self_iff.mpr (by rw [hzero])
    simp only [RefCount.free, hk, hsame]
    exact h
  · have hk : r k = some (out k : ℤ) := (h k).1.trans (count_of_pos hpos)
    have hdec := dec_of_pos hpos (h k).2
    have hnext := h.update (k := k) (n := out k - 1) (Nat.le_trans (Nat.sub_le _ _) (h k).2)
    simp only [RefCount.free, hk, hdec]
    by_cases hone : out k - 1 = 0
    · rw [hone] at hnext ⊢
      exact hnext
    · rw [count_of_pos (Nat.pos_of_ne_zero hone)] at hnext
      rw [if_pos (by omega)]
      exact hnext

/-! ### References one by one -/

/-- The references outstanding are those of the list, each given by its key. -/
def Refs (r : Key → Option ℤ) (l : List Key) : Prop := Counts r fun k => l.count k

variable {l l' : List Key}

theorem Refs.perm (h : Refs r l) (hperm : l.Perm l') : Refs r l' := by
  have hsame : (fun k => l.count k) = fun k => l'.count k := funext hperm.count_eq
  rw [Refs, ← hsame]
  exact h

theorem refs_nil : Refs (fun _ : Key => none) [] := counts_empty

theorem Refs.eq_none (h : Refs r l) (hk : r k = none) : k ∉ l := by
  rw [(h k).1, count_eq_none] at hk
  exact List.count_eq_zero.mp hk

theorem Refs.eq_some (h : Refs r l) (hmem : k ∈ l) : r k = some (l.count k : ℤ) :=
  (h k).1.trans (count_of_pos (List.count_pos_iff.mpr hmem))

theorem Refs.mem (h : Refs r l) {n : ℤ} (hk : r k = some n) : k ∈ l := by
  by_contra hmem
  rw [(h k).1, count_eq_none.mpr (List.count_eq_zero.mpr hmem)] at hk
  cases hk

theorem update_count_cons (l : List Key) (k : Key) :
    (Function.update (fun k => l.count k) k (l.count k + 1)) = fun k' => (k :: l).count k' := by
  funext k'
  by_cases hk : k' = k
  · subst hk
    rw [Function.update_self, List.count_cons_self]
  · rw [Function.update_of_ne hk, List.count_cons_of_ne (Ne.symm hk)]

theorem update_count_erase (l : List Key) (k : Key) :
    (Function.update (fun k => l.count k) k (l.count k - 1)) = fun k' => (l.erase k).count k' := by
  funext k'
  by_cases hk : k' = k
  · subst hk
    rw [Function.update_self, List.count_erase_self]
  · rw [Function.update_of_ne hk, List.count_erase_of_ne hk]

theorem Refs.add (h : Refs r l) (hnew : k ∉ l) : Refs (RefCount.add r k) (k :: l) := by
  have hnext := Counts.add (k := k) h
  rw [← Nat.zero_add 1, ← List.count_eq_zero.mpr hnew, update_count_cons] at hnext
  exact hnext

theorem Refs.ref (h : Refs r l) (hmem : k ∈ l) (hmax : l.count k < maxCount) :
    Refs (RefCount.ref r k) (k :: l) := by
  have hnext := Counts.ref h (List.count_pos_iff.mpr hmem) hmax
  rw [update_count_cons] at hnext
  exact hnext

theorem Refs.free (h : Refs r l) : Refs (RefCount.free r k) (l.erase k) := by
  have hnext := Counts.free (k := k) h
  rw [update_count_erase] at hnext
  exact hnext

theorem Refs.last (h : Refs r (k :: l)) {n : ℤ} (hk : r k = some n) (hlast : dec n ≤ 0) :
    k ∉ l := by
  rw [h.eq_some List.mem_cons_self, Option.some.injEq] at hk
  rw [← hk, dec_of_pos (List.count_pos_iff.mpr List.mem_cons_self) (h k).2,
    List.count_cons_self, Nat.add_sub_cancel] at hlast
  exact List.count_eq_zero.mp (by omega)

end Registry

section Holders

variable {Holder : Type*} {r : Option ℕ} {holders : Set Holder} {x : Holder}

/-- A record is there as long as somebody has a reference to it, and counts those who have. -/
structure HeldBy (r : Option ℕ) (holders : Set Holder) : Prop where
  finite : holders.Finite
  none_iff : r = none ↔ holders = ∅
  count : ∀ n ∈ r, n = holders.ncard

theorem heldBy_none : HeldBy none (∅ : Set Holder) :=
  ⟨Set.finite_empty, iff_of_true rfl rfl, fun n h => by cases h⟩

theorem HeldBy.some_of_mem (h : HeldBy r holders) (hx : x ∈ holders) : ∃ n, r = some n := by
  cases hr : r with
  | none =>
      rw [h.none_iff.mp hr] at hx
      cases hx
  | some n => exact ⟨n, rfl⟩

theorem HeldBy.ref {n : ℕ} (h : HeldBy (some n) holders) (hx : x ∉ holders) :
    HeldBy (some (n + 1)) (insert x holders) := by
  refine ⟨h.finite.insert x, iff_of_false (by simp) ((Set.insert_nonempty x holders).ne_empty), ?_⟩
  rintro m ⟨⟩
  rw [Set.ncard_insert_of_notMem hx h.finite, ← h.count n rfl]

theorem HeldBy.new (h : HeldBy r holders) (hr : r = none) : HeldBy (some 1) (insert x holders) := by
  rw [h.none_iff.mp hr, insert_empty_eq]
  refine ⟨Set.finite_singleton x, iff_of_false (by simp) (Set.singleton_ne_empty x), ?_⟩
  rintro m ⟨⟩
  exact (Set.ncard_singleton x).symm

theorem HeldBy.free {n : ℕ} (h : HeldBy (some n) holders) (hx : x ∈ holders) :
    HeldBy (if 1 < n then some (n - 1) else none) (holders \ {x}) := by
  have hfinite : (holders \ {x}).Finite := h.finite.sdiff
  have hcard : (holders \ {x}).ncard = n - 1 := by
    rw [Set.ncard_sdiff_singleton_of_mem hx, ← h.count n rfl]
  refine ⟨hfinite, ?_, ?_⟩
  · rw [← Set.ncard_eq_zero hfinite, hcard]
    split
    · exact iff_of_false (by simp) (by omega)
    · exact iff_of_true rfl (by omega)
  · intro m hm
    split at hm
    · cases hm
      exact hcard.symm
    · cases hm

end Holders

end Casting.RefCount
