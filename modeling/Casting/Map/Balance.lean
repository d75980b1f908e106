import Casting.Map.Removal
import Mathlib.Tactic.Linarith

/-!
# Balance

A tree of `map.c` is a search tree with nodes of two or three children, where the second element
of a node with three children is kept in a right child of the same level.  Insertion and removal
keep all leaves at the same depth.
-/

namespace Casting.MapNode

variable {α : Type*} {n : Nat} {x y z : α} {a b c t : MapNode α}

inductive Balanced : Nat → MapNode α → Prop
  | nil : Balanced 0 .nil
  | two {n : Nat} {a b : MapNode α} (x : α) (ha : Balanced n a) (hb : Balanced n b) :
      Balanced (n + 1) (.node (n + 1) a x b)
  | three {n : Nat} {a b c : MapNode α} (x y : α) (ha : Balanced n a) (hb : Balanced n b)
      (hc : Balanced n c) : Balanced (n + 1) (.node (n + 1) a x (.node (n + 1) b y c))

inductive Two : Nat → MapNode α → Prop
  | mk {n : Nat} {a b : MapNode α} (x : α) (ha : Balanced n a) (hb : Balanced n b) :
      Two (n + 1) (.node (n + 1) a x b)

theorem Two.balanced (h : Two n t) : Balanced n t := by
  cases h with
  | mk x ha hb => exact .two x ha hb

def right : MapNode α → MapNode α
  | .nil => .nil
  | .node _ _ _ b => b

@[simp]
theorem Balanced.level_eq (h : Balanced n t) : t.level = n := by
  cases h <;> simp [level]

theorem Balanced.right_level_le (h : Balanced n t) : t.right.level ≤ n := by
  cases h with
  | nil => exact le_refl _
  | two _ _ hb =>
      rw [right, hb.level_eq]
      omega
  | three => exact le_refl _

theorem Balanced.three_of_two (ha : Balanced n a) (hb : Two (n + 1) b) :
    Balanced (n + 1) (.node (n + 1) a x b) := by
  cases hb with
  | mk y hb hc => exact .three _ y ha hb hc

/-- A subtree of its place in a node with two children, or raised by one. -/
def Fits (n : Nat) (t : MapNode α) : Prop := Balanced n t ∨ Two (n + 1) t

/-! ### `skew` and `split` -/

theorem skew_of_level_ne {l : ℤ} (h : a.level ≠ l) : skew (.node l a x b) = .node l a x b := by
  cases a with
  | nil => rfl
  | node => exact if_neg fun hboth => h hboth.1

theorem skew_node {l : ℤ} (hl : l ≠ 0) :
    skew (.node l (.node l a x b) y c) = .node l a x (.node l b y c) :=
  if_pos ⟨rfl, hl⟩

theorem split_of_level_ne {l : ℤ} (h : b.right.level ≠ l) :
    split (.node l a x b) = .node l a x b := by
  cases b with
  | nil => rfl
  | node => exact if_neg fun hboth => h hboth.1

theorem split_node {l : ℤ} (hl : l ≠ 0) (hc : c.level = l) :
    split (.node l a x (.node l b y c)) = .node (l + 1) (.node l a x b) y c :=
  if_pos ⟨hc, hl⟩

theorem Balanced.skew_eq (h : Balanced n t) : t.skew = t := by
  cases h with
  | nil => rfl
  | two _ ha _ | three _ _ ha _ _ =>
      apply skew_of_level_ne
      rw [ha.level_eq]
      omega

theorem Balanced.split_eq (h : Balanced n t) : t.split = t := by
  cases h with
  | nil => rfl
  | two _ _ hb =>
      apply split_of_level_ne
      have := hb.right_level_le
      omega
  | three _ _ _ _ hc =>
      apply split_of_level_ne
      rw [right, hc.level_eq]
      omega

/-! ### Insertion -/

theorem Fits.two (ha : Fits n a) (hb : Balanced n b) :
    Balanced (n + 1) (split (skew (.node (n + 1) a x b))) := by
  rcases ha with ha | ⟨u, hp, hq⟩
  · have h : Balanced (n + 1) (.node (n + 1) a x b) := .two x ha hb
    rw [h.skew_eq, h.split_eq]
    exact h
  · have h : Balanced (n + 1) _ := Balanced.three u x hp hq hb
    rw [skew_node (by omega), h.split_eq]
    exact h

theorem Fits.two_right (ha : Balanced n a) (hb : Fits n b) :
    Balanced (n + 1) (split (skew (.node (n + 1) a x b))) := by
  have h : Balanced (n + 1) (.node (n + 1) a x b) := by
    rcases hb with hb | hb
    · exact .two x ha hb
    · exact ha.three_of_two hb
  rw [h.skew_eq, h.split_eq]
  exact h

theorem Fits.three (ha : Fits n a) (hb : Balanced n b) (hc : Balanced n c) :
    Fits (n + 1) (split (skew (.node (n + 1) a x (.node (n + 1) b y c)))) := by
  rcases ha with ha | ⟨u, hp, hq⟩
  · left
    have h : Balanced (n + 1) _ := Balanced.three x y ha hb hc
    rw [h.skew_eq, h.split_eq]
    exact h
  · right
    rw [skew_node (by omega), split_node (by omega) (by simp [level])]
    exact .mk x (.two u hp hq) (.two y hb hc)

theorem Fits.three_right (ha : Balanced n a) (hb : Balanced (n + 1) b) :
    Fits (n + 1) (split (skew (.node (n + 1) a x b))) := by
  have hskew : skew (.node (n + 1) a x b) = .node (n + 1) a x b := by
    apply skew_of_level_ne
    rw [ha.level_eq]
    omega
  rw [hskew]
  cases hb with
  | two y hb hc =>
      left
      have h : Balanced (n + 1) _ := Balanced.three x y ha hb hc
      rw [h.split_eq]
      exact h
  | three y z hb hc hd =>
      right
      rw [split_node (by omega) (by simp [level])]
      exact .mk y (.two x ha hb) (.two z hc hd)

section Attach

variable {cmp : α → α → ℤ} {data : α} {leaf : MapNode α}

theorem attach_two (ha : Balanced n a) (hb : Balanced n b) (hta : Fits n (a.attach cmp data leaf))
    (htb : Fits n (b.attach cmp data leaf)) :
    Balanced (n + 1) ((MapNode.node (n + 1) a x b).attach cmp data leaf) := by
  rw [attach]
  split
  · exact Fits.two_right ha htb
  · exact hta.two hb

theorem fits_attach (ht : Balanced n t) (hleaf : Two 1 leaf) :
    Fits n (t.attach cmp data leaf) := by
  induction ht with
  | nil => exact .inr hleaf
  | two x ha hb iha ihb => exact .inl (attach_two ha hb iha ihb)
  | three x y ha hb hc iha ihb ihc =>
      rw [attach]
      split
      · exact Fits.three_right ha (attach_two hb hc ihb ihc)
      · exact iha.three hb hc

end Attach

theorem balanced_attach {cmp : α → α → ℤ} {data copy : α} (ht : Balanced n t) :
    ∃ m, Balanced m (t.attach cmp data (.node 1 .nil copy .nil)) := by
  rcases fits_attach ht (.mk copy .nil .nil) with h | h
  · exact ⟨n, h⟩
  · exact ⟨n + 1, h.balanced⟩

theorem balanced_overwrite {cmp : α → α → ℤ} {data : α} (ht : Balanced n t) :
    Balanced n (t.overwrite cmp data) := by
  induction ht with
  | nil => exact .nil
  | two x ha hb iha ihb =>
      rw [overwrite]
      split
      · exact .two _ ha hb
      · split
        · exact .two _ ha ihb
        · exact .two _ iha hb
  | three x y ha hb hc iha ihb ihc =>
      rw [overwrite]
      split
      · exact .three _ _ ha hb hc
      · split
        · rw [overwrite]
          split
          · exact .three _ _ ha hb hc
          · split
            · exact .three _ _ ha hb ihc
            · exact .three _ _ ha ihb hc
        · exact .three _ _ iha hb hc

/-! ### Rebalancing after a removal -/

section Relink

variable {l : ℤ} {p q s : MapNode α} {u v w : α}

theorem relink_row (hl : l ≠ 0) (ha : a.level ≠ l) (hb : b.level ≠ l) (hskew : s.skew = s)
    (hs : s.level = l) :
    relink (.node l a x (.node l b y s)) = .node (l + 1) (.node l a x b) y s.split := by
  simp only [relink, skew_of_level_ne ha, onRight, skew_of_level_ne hb, hskew, split_node hl hs]

theorem relink_left (hl : l ≠ 0) (ha : a.level ≠ l) :
    relink (.node l (.node l a x b) y c) = relink (.node l a x (.node l b y c)) := by
  simp only [relink, skew_node hl, skew_of_level_ne ha]

theorem relink_right_left (hl : l ≠ 0) (ha : a.level ≠ l) (hb : b.level ≠ l) :
    relink (.node l a x (.node l (.node l b y c) z s)) =
      relink (.node l a x (.node l b y (.node l c z s))) := by
  simp only [relink, skew_of_level_ne ha, onRight, skew_node hl, skew_of_level_ne hb]

theorem relink_right_right_left (hl : l ≠ 0) (ha : a.level ≠ l) (hb : b.level ≠ l)
    (hc : c.level ≠ l) :
    relink (.node l a x (.node l b y (.node l (.node l c z p) u s))) =
      relink (.node l a x (.node l b y (.node l c z (.node l p u s)))) := by
  simp only [relink, skew_of_level_ne ha, onRight, skew_of_level_ne hb, skew_node hl,
    skew_of_level_ne hc]

theorem onRight_eq {f : MapNode α → MapNode α} (h : f t.right = t.right) : t.onRight f = t := by
  cases t with
  | nil => rfl
  | node l a x b => exact congrArg (MapNode.node l a x) h

theorem Balanced.right_balanced (h : Balanced n t) : ∃ m, Balanced m t.right := by
  cases h with
  | nil => exact ⟨0, .nil⟩
  | two x ha hb => exact ⟨_, hb⟩
  | three x y ha hb hc => exact ⟨_, .two y hb hc⟩

theorem Balanced.relink_eq (h : Balanced n t) : t.relink = t := by
  obtain ⟨m, hright⟩ := h.right_balanced
  obtain ⟨k, hright'⟩ := hright.right_balanced
  simp only [relink, h.skew_eq, onRight_eq hright.skew_eq,
    onRight_eq (t := t) (onRight_eq hright'.skew_eq), h.split_eq, onRight_eq hright.split_eq]

theorem Balanced.lower_eq (h : Balanced n t) (hl : (n : ℤ) ≤ l) : t.lower l = t := by
  cases h with
  | nil => rfl
  | two x ha hb | three x y ha hb hc =>
      apply if_neg
      push_cast at hl
      omega

theorem rebalance_of_le (ha : l ≤ a.level) (hb : l ≤ b.level) :
    rebalance (.node (l + 1) a x b) = .node (l + 1) a x b := by
  rw [rebalance, if_neg]
  omega

theorem rebalance_of_lt (h : a.level < l ∨ b.level < l) :
    rebalance (.node (l + 1) a x b) = relink (.node l a x (b.lower l)) := by
  rw [rebalance, if_pos (by omega), add_sub_cancel_right]

end Relink

/-- What is left of a subtree is of its place, or has dropped by one. -/
def Loses (n : Nat) (t : MapNode α) : Prop := Balanced n t ∨ ∃ m, n = m + 1 ∧ Balanced m t

theorem Fits.loses (h : Fits n t) : Loses (n + 1) t := by
  rcases h with h | h
  · exact .inr ⟨n, rfl, h⟩
  · exact .inl h.balanced

theorem Balanced.level_ne (h : Balanced n t) : t.level ≠ (n : ℤ) + 1 := by
  rw [h.level_eq]
  omega

theorem Loses.two (ha : Loses n a) (hb : Balanced n b) :
    Fits n (rebalance (.node (n + 1) a x b)) := by
  rcases ha with ha | ⟨m, rfl, ha⟩
  · right
    rw [rebalance_of_le (le_of_eq ha.level_eq.symm) (le_of_eq hb.level_eq.symm)]
    exact .mk x ha hb
  · have hlow : a.level < ((m + 1 : ℕ) : ℤ) := by
      rw [ha.level_eq]
      omega
    rw [rebalance_of_lt (.inl hlow), hb.lower_eq (le_refl _)]
    push_cast
    cases hb with
    | two y hb hc =>
        left
        have h : Balanced (m + 1) _ := Balanced.three x y ha hb hc
        rw [h.relink_eq]
        exact h
    | three y z hb hc hd =>
        right
        have hs : Balanced (m + 1) _ := Balanced.two z hc hd
        rw [relink_row (by omega) ha.level_ne hb.level_ne hs.skew_eq hs.level_eq, hs.split_eq]
        exact .mk y (.two x ha hb) hs

theorem Loses.two_right (ha : Balanced n a) (hb : Loses n b) :
    Fits n (rebalance (.node (n + 1) a x b)) := by
  rcases hb with hb | ⟨m, rfl, hb⟩
  · right
    rw [rebalance_of_le (le_of_eq ha.level_eq.symm) (le_of_eq hb.level_eq.symm)]
    exact .mk x ha hb
  · have hlow : b.level < ((m + 1 : ℕ) : ℤ) := by
      rw [hb.level_eq]
      omega
    have hkept : (m : ℤ) ≤ ((m + 1 : ℕ) : ℤ) := by omega
    rw [rebalance_of_lt (.inr hlow), hb.lower_eq hkept]
    push_cast
    cases ha with
    | two y hp hq =>
        left
        have h : Balanced (m + 1) _ := Balanced.three y x hp hq hb
        rw [relink_left (by omega) hp.level_ne, h.relink_eq]
        exact h
    | three y z hp hq hr =>
        right
        have hs : Balanced (m + 1) _ := Balanced.two x hr hb
        rw [relink_left (by omega) hp.level_ne, relink_right_left (by omega) hp.level_ne
          hq.level_ne, relink_row (by omega) hp.level_ne hq.level_ne hs.skew_eq hs.level_eq,
          hs.split_eq]
        exact .mk z (.two y hp hq) hs

/-- The row of a node that takes in the first two of three lowered subtrees. -/
theorem balanced_row (ha : Balanced n a) (hb : Balanced n b) (hs : Fits (n + 1) t) :
    Balanced (n + 2) (.node ((n + 1 : ℤ) + 1) (.node (n + 1) a x b) y t) := by
  have hleft : Balanced (n + 1) _ := Balanced.two x ha hb
  rcases hs with hs | hs
  · exact .two y hleft hs
  · exact hleft.three_of_two hs

theorem Loses.three (ha : Loses n a) (hb : Balanced n b) (hc : Balanced n c) :
    Balanced (n + 1) (rebalance (.node (n + 1) a x (.node (n + 1) b y c))) := by
  rcases ha with ha | ⟨m, rfl, ha⟩
  · have hright : (n : ℤ) ≤ (MapNode.node (n + 1) b y c).level := by
      rw [level]
      omega
    rw [rebalance_of_le (le_of_eq ha.level_eq.symm) hright]
    exact .three x y ha hb hc
  · have hlow : a.level < ((m + 1 : ℕ) : ℤ) := by
      rw [ha.level_eq]
      omega
    have hlowered : (MapNode.node (((m + 1 : ℕ) : ℤ) + 1) b y c).lower ((m + 1 : ℕ) : ℤ) =
        .node ((m + 1 : ℕ) : ℤ) b y c := if_pos (by omega)
    have hzero : (m + 1 : ℤ) ≠ 0 := by omega
    rw [rebalance_of_lt (.inl hlow), hlowered]
    push_cast
    cases hb with
    | @two _ b₁ b₂ u hb₁ hb₂ =>
        have hskew : (MapNode.node (m + 1) b₂ y c).skew = .node (m + 1) b₂ y c :=
          skew_of_level_ne hb₂.level_ne
        have hfits : Fits (m + 1) (MapNode.node (m + 1) b₂ y c).split := by
          have h := Fits.three_right (x := y) hb₂ hc
          rw [hskew] at h
          exact h
        rw [relink_right_left hzero ha.level_ne hb₁.level_ne,
          relink_row hzero ha.level_ne hb₁.level_ne hskew rfl]
        exact balanced_row ha hb₁ hfits
    | @three _ b₁ b₂ b₃ u v hb₁ hb₂ hb₃ =>
        have hskew : (MapNode.node (m + 1) b₂ v (.node (m + 1) b₃ y c)).skew =
            .node (m + 1) b₂ v (.node (m + 1) b₃ y c) := skew_of_level_ne hb₂.level_ne
        have hsplit : (MapNode.node (m + 1) b₂ v (.node (m + 1) b₃ y c)).split =
            .node ((m + 1 : ℤ) + 1) (.node (m + 1) b₂ v b₃) y c := by
          apply split_node hzero
          rw [hc.level_eq]
          push_cast
          rfl
        have hfits : Fits (m + 1) (MapNode.node (m + 1) b₂ v (.node (m + 1) b₃ y c)).split := by
          rw [hsplit]
          exact .inr (.mk y (.two v hb₂ hb₃) hc)
        rw [relink_right_left hzero ha.level_ne hb₁.level_ne,
          relink_right_right_left hzero ha.level_ne hb₁.level_ne hb₂.level_ne,
          relink_row hzero ha.level_ne hb₁.level_ne hskew rfl]
        exact balanced_row ha hb₁ hfits

theorem Loses.three_right (ha : Balanced n a) (hb : Fits n b) :
    Balanced (n + 1) (rebalance (.node (n + 1) a x b)) := by
  rcases hb with hb | hb
  · rw [rebalance_of_le (le_of_eq ha.level_eq.symm) (le_of_eq hb.level_eq.symm)]
    exact .two x ha hb
  · have hlevel : (n : ℤ) ≤ b.level := by
      rw [hb.balanced.level_eq]
      omega
    rw [rebalance_of_le (le_of_eq ha.level_eq.symm) hlevel]
    exact ha.three_of_two hb

/-! ### Removal -/

theorem Balanced.eq_nil_iff (h : Balanced n t) : t = .nil ↔ n = 0 := by
  cases h <;> simp

theorem fits_takeHeir {heir : α} {rest : MapNode α} (hb : Balanced n b)
    (hta : ∀ heir rest, a.takeHeir = some (heir, rest) → Loses n rest)
    (h : (MapNode.node (n + 1) a x b).takeHeir = some (heir, rest)) : Fits n rest := by
  rw [takeHeir] at h
  split at h <;> cases h
  · exact .inl hb
  · exact (hta _ _ ‹_›).two hb

theorem loses_takeHeir {heir : α} {rest : MapNode α} (ht : Balanced n t)
    (h : t.takeHeir = some (heir, rest)) : Loses n rest := by
  induction ht generalizing heir rest with
  | nil => cases h
  | two x ha hb iha _ => exact (fits_takeHeir hb (fun _ _ => iha) h).loses
  | three x y ha hb hc iha _ _ =>
      rw [takeHeir] at h
      split at h
      · rename_i hnone
        have hzero := ha.eq_nil_iff.mp (takeHeir_eq_none.mp hnone)
        subst hzero
        cases h
        exact .inl (.two y hb hc)
      · cases h
        exact .inl ((iha ‹_›).three hb hc)

/-- The subtree that replaces a found node has lost no more than the node itself. -/
theorem unlink_cases (ha : Balanced n a) (hb : b = .nil → a = .nil) (l : ℤ) :
    (n = 0 ∧ unlink l a b = b) ∨
      ∃ heir rest, b.takeHeir = some (heir, rest) ∧
        unlink l a b = rebalance (.node l a heir rest) := by
  cases a with
  | nil => exact .inl ⟨ha.eq_nil_iff.mp rfl, rfl⟩
  | node l₀ a₀ x₀ b₀ =>
      right
      cases hheir : b.takeHeir with
      | none => exact absurd (hb (takeHeir_eq_none.mp hheir)) (by simp)
      | some taken => exact ⟨taken.1, taken.2, rfl, by rw [unlink, hheir]⟩

section Remove

variable {cmp : α → α → ℤ} {data : α}

theorem remove_two (ha : Balanced n a) (hb : Balanced n b) (hta : Loses n (a.remove cmp data))
    (htb : Loses n (b.remove cmp data)) :
    Fits n ((MapNode.node (n + 1) a x b).remove cmp data) := by
  rw [remove]
  split
  · have hnil : b = .nil → a = .nil := fun h => ha.eq_nil_iff.mpr (hb.eq_nil_iff.mp h)
    rcases unlink_cases ha hnil (n + 1) with ⟨_, heq⟩ | ⟨heir, rest, htaken, heq⟩
    · rw [heq]
      exact .inl hb
    · rw [heq]
      exact Loses.two_right ha (loses_takeHeir hb htaken)
  · split
    · exact Loses.two_right ha htb
    · exact hta.two hb

theorem loses_remove (ht : Balanced n t) : Loses n (t.remove cmp data) := by
  induction ht with
  | nil => exact .inl .nil
  | two x ha hb iha ihb => exact (remove_two ha hb iha ihb).loses
  | @three n a b c x y ha hb hc iha ihb ihc =>
      left
      rw [remove]
      split
      · have hnil : MapNode.node (n + 1) b y c = .nil → a = .nil := by simp
        rcases unlink_cases ha hnil (n + 1) with ⟨rfl, heq⟩ | ⟨heir, rest, htaken, heq⟩
        · rw [heq]
          exact .two y hb hc
        · rw [heq]
          exact Loses.three_right ha (fits_takeHeir hc (fun _ _ => loses_takeHeir hb) htaken)
      · split
        · exact Loses.three_right ha (remove_two hb hc ihb ihc)
        · exact iha.three hb hc

theorem balanced_remove (ht : Balanced n t) : ∃ m, Balanced m (t.remove cmp data) := by
  have hloses : Loses n (t.remove cmp data) := loses_remove ht
  rcases hloses with h | ⟨m, _, h⟩
  · exact ⟨n, h⟩
  · exact ⟨m, h⟩

/-- A balanced node without a second child has no first one, so the root is removed like any
other node. -/
theorem Balanced.removeTop_eq (ht : Balanced n t) : t.removeTop cmp data = t.remove cmp data := by
  have hnil : ∀ {l a x b}, t = .node l a x b → b = .nil → a = .nil := by
    intro l a x b heq hb
    subst hb
    cases ht with
    | nil => cases heq
    | two y hp hq =>
        cases heq
        exact hp.eq_nil_iff.mpr (hq.eq_nil_iff.mp rfl)
    | three => cases heq
  cases t with
  | nil => rfl
  | node l a x b =>
      rw [removeTop]
      split
      · rename_i hfound
        have ha : a = .nil := by
          rcases hfound.2 with h | h
          · cases a with
            | nil => rfl
            | node => cases h
          · apply hnil rfl
            cases b with
            | nil => rfl
            | node => cases h
        rw [remove, if_pos hfound.1, ha]
        rfl
      · rfl

end Remove

/-! ### The height -/

theorem Balanced.height_le (h : Balanced n t) : t.height ≤ 2 * n := by
  induction h with
  | nil => exact Nat.le_refl 0
  | two x ha hb iha ihb =>
      simp only [height]
      omega
  | three x y ha hb hc iha ihb ihc =>
      simp only [height]
      omega

theorem Balanced.pow_le (h : Balanced n t) : 2 ^ n ≤ t.toList.length + 1 := by
  induction h with
  | nil => exact Nat.le_refl 1
  | two x ha hb iha ihb =>
      simp only [toList, List.length_append, List.length_cons, pow_succ]
      omega
  | three x y ha hb hc iha ihb ihc =>
      simp only [toList, List.length_append, List.length_cons, pow_succ]
      omega

end Casting.MapNode
