import Casting.Map.Finite
import Mathlib.Data.Nat.Find
import Mathlib.Order.Basic

/-!
# A tree as tall as allowed

Elements inserted in ascending order go to the right end of the tree, whose right path grows by
at most one node at a time.  So some tree has a right path of exactly `HEIGHT_LIMIT` nodes and
is no taller than that, and `map_remove` of a larger element writes behind the array `path`.
-/

namespace Casting

open Transition

namespace MapNode

variable {α : Type*} {n : Nat} {x y : α} {a b c t leaf : MapNode α}

def grow : MapNode α → MapNode α → MapNode α
  | .nil, leaf => leaf
  | .node level a x b, leaf => split (skew (.node level a x (b.grow leaf)))

def rightPath : MapNode α → Nat
  | .nil => 0
  | .node _ _ _ b => 1 + b.rightPath

def Perfect (n : Nat) (t : MapNode α) : Prop := Balanced n t ∧ t.height = n

/-- Balanced, with three children on the right path only. -/
inductive Rising : Nat → MapNode α → Prop
  | nil : Rising 0 .nil
  | two {n : Nat} {a b : MapNode α} (x : α) (ha : Perfect n a) (hb : Rising n b) :
      Rising (n + 1) (.node (n + 1) a x b)
  | three {n : Nat} {a b c : MapNode α} (x y : α) (ha : Perfect n a) (hb : Perfect n b)
      (hc : Rising n c) : Rising (n + 1) (.node (n + 1) a x (.node (n + 1) b y c))

/-- A `Rising` tree, or one with two children that was raised. -/
def Risen (n : Nat) (t : MapNode α) : Prop :=
  Rising n t ∨ ∃ a x b, t = .node (n + 1) a x b ∧ Perfect n a ∧ Rising n b

theorem Perfect.two (ha : Perfect n a) (hb : Perfect n b) :
    Perfect (n + 1) (.node (n + 1) a x b) := by
  refine ⟨.two x ha.1 hb.1, ?_⟩
  rw [height, ha.2, hb.2, Nat.max_self, Nat.add_comm]

theorem Rising.balanced (h : Rising n t) : Balanced n t := by
  induction h with
  | nil => exact .nil
  | two x ha _ ih => exact .two x ha.1 ih
  | three x y ha hb _ ih => exact .three x y ha.1 hb.1 ih

theorem Risen.rising (h : Risen n t) : ∃ m, Rising m t := by
  rcases h with h | ⟨a, x, b, rfl, ha, hb⟩
  · exact ⟨n, h⟩
  · exact ⟨n + 1, .two x ha hb⟩

theorem grow_node (ha : Perfect n a) :
    (MapNode.node (n + 1) a x b).grow leaf = split (.node (n + 1) a x (b.grow leaf)) := by
  rw [grow, skew_of_level_ne ha.1.level_ne]

theorem rising_grow_two (ha : Perfect n a) (hb : Risen n (b.grow leaf)) :
    Rising (n + 1) ((MapNode.node (n + 1) a x b).grow leaf) := by
  rw [grow_node ha]
  rcases hb with hb | ⟨p, y, q, heq, hp, hq⟩
  · have h : Rising (n + 1) _ := Rising.two x ha hb
    rw [h.balanced.split_eq]
    exact h
  · have h : Rising (n + 1) _ := Rising.three x y ha hp hq
    rw [heq, h.balanced.split_eq]
    exact h

theorem Rising.grow (ht : Rising n t) (hleaf : Risen 0 leaf) : Risen n (t.grow leaf) := by
  induction ht with
  | nil => exact hleaf
  | two x ha hb ih => exact .inl (rising_grow_two ha ih)
  | @three n a b c x y ha hb hc ih =>
      rw [grow_node ha]
      have hinner := rising_grow_two (x := y) hb ih
      generalize (MapNode.node (n + 1) b y c).grow leaf = s at hinner
      cases hinner with
      | two z hp hq =>
          left
          have h : Rising (n + 1) _ := Rising.three x z ha hp hq
          rw [h.balanced.split_eq]
          exact h
      | three z w hp hq hr =>
          right
          rw [split_node (by omega) (by simp [level])]
          exact ⟨_, z, _, rfl, ha.two hp, .two w hq hr⟩

theorem rightPath_split_le (t : MapNode α) : t.split.rightPath ≤ t.rightPath := by
  unfold split
  split
  · split
    · simp only [rightPath]
      omega
    · exact Nat.le_refl _
  · exact Nat.le_refl _

theorem Rising.rightPath_grow_le (ht : Rising n t) (hleaf : leaf.rightPath = 1) :
    (t.grow leaf).rightPath ≤ t.rightPath + 1 := by
  have hnode : ∀ {n a x b}, Perfect n a → (b.grow leaf).rightPath ≤ b.rightPath + 1 →
      ((MapNode.node ((n : ℤ) + 1) a x b).grow leaf).rightPath ≤
        (MapNode.node ((n : ℤ) + 1) a x b).rightPath + 1 := by
    intro n a x b ha hb
    rw [grow_node ha]
    have := rightPath_split_le (.node ((n : ℤ) + 1) a x (b.grow leaf))
    simp only [rightPath] at this ⊢
    omega
  induction ht with
  | nil => exact Nat.le_of_eq hleaf
  | two x ha _ ih => exact hnode ha ih
  | three x y ha hb _ ih => exact hnode ha (hnode hb ih)

theorem Rising.height_eq (ht : Rising n t) : t.height = t.rightPath ∧ n ≤ t.rightPath := by
  induction ht with
  | nil => exact ⟨rfl, Nat.le_refl 0⟩
  | two x ha _ ih =>
      simp only [height, rightPath, ha.2]
      omega
  | three x y ha hb _ ih =>
      simp only [height, rightPath, ha.2, hb.2]
      omega

theorem Balanced.length_lt (h : Balanced n t) : t.toList.length < 3 ^ n := by
  induction h with
  | nil => exact Nat.one_pos
  | two x ha hb iha ihb =>
      simp only [toList, List.length_append, List.length_cons, pow_succ]
      omega
  | three x y ha hb hc iha ihb ihc =>
      simp only [toList, List.length_append, List.length_cons, pow_succ]
      omega

section Largest

variable {cmp : α → α → ℤ} {data : α}

theorem search_of_above (leaf : MapNode α) (h : ∀ x ∈ t.toList, cmp x data < 0) :
    t.find cmp data = none ∧ t.searchPath cmp data = t.rightPath ∧
      t.attach cmp data leaf = t.grow leaf := by
  induction t with
  | nil => exact ⟨rfl, rfl, rfl⟩
  | node level a x b _ ihb =>
      have hx : cmp x data < 0 := h x (by simp [toList])
      have hb := ihb fun y hy => h y (by simp [toList, hy])
      rw [find, searchPath, attach, grow, rightPath, if_neg (ne_of_lt hx), if_neg (ne_of_lt hx),
        if_pos hx, if_pos hx, if_pos hx, hb.1, hb.2.1, hb.2.2]
      exact ⟨rfl, rfl, rfl⟩

end Largest

/-! ### Ascending insertion -/

/-- The tree after the insertion of `0` to `k - 1`. -/
def ascending : Nat → MapNode Nat
  | 0 => .nil
  | k + 1 => (ascending k).grow (.node 1 .nil k .nil)

theorem ascending_rising (k : Nat) : ∃ n, Rising n (ascending k) := by
  induction k with
  | zero => exact ⟨0, .nil⟩
  | succ k ih =>
      obtain ⟨n, hn⟩ := ih
      have hleaf : Risen 0 (.node 1 .nil k .nil) :=
        .inr ⟨.nil, k, .nil, rfl, ⟨.nil, rfl⟩, .nil⟩
      exact (hn.grow hleaf).rising

theorem toList_grow (t leaf : MapNode α) : (t.grow leaf).toList = t.toList ++ leaf.toList := by
  induction t with
  | nil => rfl
  | node level a x b _ ihb =>
      rw [grow, toList_split, toList_skew, toList, toList, ihb, List.append_assoc,
        List.cons_append]

theorem toList_ascending (k : Nat) : (ascending k).toList = List.range k := by
  induction k with
  | zero => rfl
  | succ k ih =>
      rw [ascending, toList_grow, ih, List.range_succ]
      rfl

theorem ascending_above (k : Nat) : ∀ x ∈ (ascending k).toList, compareNat x k < 0 := by
  intro x hx
  rw [toList_ascending, List.mem_range] at hx
  simp only [compareNat]
  omega

theorem rightPath_ascending_succ (k : Nat) :
    (ascending (k + 1)).rightPath ≤ (ascending k).rightPath + 1 := by
  obtain ⟨n, hn⟩ := ascending_rising k
  exact hn.rightPath_grow_le rfl

/-- The right path grows beyond any bound. -/
theorem rightPath_ascending_unbounded (m : Nat) : m ≤ (ascending (3 ^ m)).rightPath := by
  obtain ⟨n, hn⟩ := ascending_rising (3 ^ m)
  have hlength := hn.balanced.length_lt
  rw [toList_ascending, List.length_range] at hlength
  have hlt : m < n := (Nat.pow_lt_pow_iff_right (by decide)).mp hlength
  exact Nat.le_trans (Nat.le_of_lt hlt) hn.height_eq.2

/-- Some tree of ascending insertions is as tall as allowed, and no earlier one is. -/
theorem exists_tall (m : Nat) :
    ∃ k, (ascending k).rightPath = m ∧ ∀ i ≤ k, (ascending i).height ≤ m := by
  have hex : ∃ k, m ≤ (ascending k).rightPath := ⟨3 ^ m, rightPath_ascending_unbounded m⟩
  have hfirst := Nat.find_spec hex
  have hbefore : ∀ i, i < Nat.find hex → (ascending i).rightPath < m :=
    fun i hi => Nat.lt_of_not_le (Nat.find_min hex hi)
  have hexact : (ascending (Nat.find hex)).rightPath = m := by
    refine Nat.le_antisymm ?_ hfirst
    cases hk : Nat.find hex with
    | zero => exact Nat.zero_le m
    | succ k =>
        have hstep := rightPath_ascending_succ k
        have hlt := hbefore k (by omega)
        omega
  refine ⟨Nat.find hex, hexact, ?_⟩
  intro i hi
  obtain ⟨n, hn⟩ := ascending_rising i
  rw [hn.height_eq.1]
  rcases Nat.lt_or_eq_of_le hi with hlt | rfl
  · exact Nat.le_of_lt (hbefore i hlt)
  · exact Nat.le_of_eq hexact

end MapNode

open MapNode

/-- The map after the insertion of `0` to `k - 1`. -/
def ascendingMap (k : Nat) : Map Nat :=
  { mapNew compareNat none with root := ascending k, size := k }

/-- Insert `n` elements from `i` on, and remove the next one. -/
def overshoot (i n : Nat) : List (MapCall Nat) :=
  (List.range' i n).map (.insert true) ++ [.remove (i + n)]

theorem overshoot_succ (i n : Nat) :
    overshoot i (n + 1) = .insert true i :: overshoot (i + 1) n := by
  have hlast : i + (n + 1) = i + 1 + n := by omega
  simp only [overshoot, List.range'_succ, List.map_cons, List.cons_append, hlast]

theorem ascendingMap_find (k : Nat) : mapFind (ascendingMap k) k = none :=
  (search_of_above .nil (ascending_above k)).1

theorem ascendingMap_step {k : Nat} (h : (ascending k).height ≤ heightLimit) :
    Map.step (ascendingMap k) (.insert true k) = some (ascendingMap (k + 1)) := by
  have hpath : ¬ heightLimit < (ascendingMap k).root.searchPath (ascendingMap k).cmp k :=
    Nat.not_lt_of_le (Nat.le_trans (searchPath_le_height _) h)
  have hgrow := (search_of_above (.node 1 .nil k .nil) (ascending_above k)).2.2
  have hinsert : mapInsert true (ascendingMap k) k =
      some (ascendingMap (k + 1), .ok ((k : ℤ) + 1)) := by
    simp only [mapInsert, ascendingMap_find]
    simp only [ascendingMap, mapNew, newNode, if_true, hgrow, ascending, Nat.cast_succ]
  rw [Map.step, Map.call, if_neg hpath, hinsert]
  rfl

theorem ascendingMap_admits {k : Nat} (h : (ascending k).height ≤ heightLimit)
    (c : MapCall Nat) : Map.Admits (ascendingMap k) c := by
  refine ⟨h, ?_⟩
  intro _ _ _ hdup
  cases hdup

theorem overshoot_admits {i n : Nat}
    (h : ∀ j ≤ i + n, (ascending j).height ≤ heightLimit) :
    Before Map.step Map.Admits (ascendingMap i) (overshoot i n) := by
  have hfirst := h i (Nat.le_add_right i n)
  induction n generalizing i with
  | zero => exact ⟨ascendingMap_admits hfirst _, fun _ _ => trivial⟩
  | succ n ih =>
      rw [overshoot_succ]
      refine ⟨ascendingMap_admits hfirst _, ?_⟩
      intro next hnext
      rw [ascendingMap_step hfirst] at hnext
      cases hnext
      have hend : i + (n + 1) = i + 1 + n := by omega
      rw [hend] at h
      exact ih h (h (i + 1) (Nat.le_add_right _ n))

/-- The last call searches the whole right path. -/
theorem overshoot_not_fits {i n : Nat}
    (h : ∀ j ≤ i + n, (ascending j).height ≤ heightLimit)
    (htall : (ascending (i + n)).rightPath = heightLimit) :
    ¬ Before Map.step Map.PathFits (ascendingMap i) (overshoot i n) := by
  induction n generalizing i with
  | zero =>
      intro ⟨hfits, _⟩
      have hpath := (search_of_above .nil (ascending_above i)).2.1
      have hlt := hfits i rfl (ascendingMap_find i)
      have heq : (ascending i).searchPath compareNat i = heightLimit := hpath.trans htall
      exact absurd hlt (Nat.not_lt_of_le (Nat.le_of_eq heq.symm))
  | succ n ih =>
      rw [overshoot_succ]
      intro ⟨_, hrest⟩
      have hend : i + (n + 1) = i + 1 + n := by omega
      rw [hend] at h htall
      have hstep := ascendingMap_step (h i (by omega))
      exact ih h htall (hrest _ hstep)

/-- Ascending insertions up to a right path of `HEIGHT_LIMIT` nodes, and the removal of the next
element. -/
theorem mapSimulates_fails :
    ¬ ∀ calls : List (MapCall Nat), Before Map.step Map.Admits (mapNew compareNat none) calls →
      (mapNew compareNat none).Simulates id (Map.kept none) (fun _ => none) calls := by
  intro hall
  obtain ⟨k, htall, hheight⟩ := exists_tall heightLimit
  rw [← Nat.zero_add k] at htall hheight
  have hadmits := overshoot_admits hheight
  have hclones : Clones (id : Nat → Nat) none := by
    rintro f ⟨⟩
  have hempty := represents_mapNew compares_compareNat hclones
  have hiff := hempty.simulates_iff hadmits
  exact overshoot_not_fits hheight htall (hiff.mp (hall _ hadmits))

end Casting
