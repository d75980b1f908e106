import Casting.Map

/-!
# Removing from a map

`map_remove` of `map.c`.  The search saves its way in the array `path`, which has `HEIGHT_LIMIT`
entries; writing behind them has no defined outcome.
-/

namespace Casting

variable {α : Type*}

namespace MapNode

def isNil : MapNode α → Bool
  | .nil => true
  | .node _ _ _ _ => false

def height : MapNode α → Nat
  | .nil => 0
  | .node _ a _ b => 1 + max a.height b.height

/-- An assignment to `link[1]`. -/
def onRight (f : MapNode α → MapNode α) : MapNode α → MapNode α
  | .nil => .nil
  | .node level a x b => .node level a x (f b)

/-- Lower the level of a node to `bound`.  The level of the sentinel is not above any bound that
`map_remove` uses. -/
def lower (bound : ℤ) : MapNode α → MapNode α
  | .nil => .nil
  | .node level a x b => if bound < level then .node bound a x b else .node level a x b

/-- The three `skew`s and the two `split`s of one rebalancing, in their order. -/
def relink (up : MapNode α) : MapNode α :=
  let up := skew up
  let up := up.onRight skew
  let up := up.onRight (onRight skew)
  let up := split up
  up.onRight split

/-- The rebalancing of one node on the way back up from a removal. -/
def rebalance : MapNode α → MapNode α
  | .nil => .nil
  | .node level a x b =>
      if a.level < level - 1 ∨ b.level < level - 1 then
        relink (.node (level - 1) a x (b.lower (level - 1)))
      else .node level a x b

/-- The heir of a node with two children: its in-order successor, taken out of its place. -/
def takeHeir : MapNode α → Option (α × MapNode α)
  | .nil => none
  | .node level a x b =>
      match a.takeHeir with
      | none => some (x, b)
      | some (heir, rest) => some (heir, rebalance (.node level rest x b))

/-- What takes the place of a found node below the root. -/
def unlink (level : ℤ) : MapNode α → MapNode α → MapNode α
  | .nil, b => b
  | .node level₀ a₀ x₀ b₀, b =>
      match b.takeHeir with
      | none => .node level₀ a₀ x₀ b₀
      | some (heir, rest) => rebalance (.node level (.node level₀ a₀ x₀ b₀) heir rest)

/-- The descent of `map_remove` to a key that is there, and its walk back, below the root. -/
def remove (cmp : α → α → ℤ) (data : α) : MapNode α → MapNode α
  | .nil => .nil
  | .node level a x b =>
      if cmp x data = 0 then unlink level a b
      else if cmp x data < 0 then rebalance (.node level a x (b.remove cmp data))
      else rebalance (.node level (a.remove cmp data) x b)

/-- The same from the root.  A found root with a missing child is replaced by `link[1]`,
whichever child is missing. -/
def removeTop (cmp : α → α → ℤ) (data : α) : MapNode α → MapNode α
  | .nil => .nil
  | .node level a x b =>
      if cmp x data = 0 ∧ (a.isNil ∨ b.isNil) then b
      else (MapNode.node level a x b).remove cmp data

/-- The number of nodes a search compares with. -/
def searchPath (cmp : α → α → ℤ) (data : α) : MapNode α → Nat
  | .nil => 0
  | .node _ a x b =>
      1 + if cmp x data = 0 then 0
          else if cmp x data < 0 then b.searchPath cmp data
          else a.searchPath cmp data

/-- The number of nodes on the way to the smallest element. -/
def leastPath : MapNode α → Nat
  | .nil => 0
  | .node _ a _ _ => 1 + a.leastPath

/-- How many entries of `path` are written in `map_remove`: one for each node the search compares
with, one for the sentinel where the search ends at it, and one for each node passed on the way
to the heir. -/
def removePath (cmp : α → α → ℤ) (data : α) : MapNode α → Nat
  | .nil => 1
  | .node _ a x b =>
      1 + if cmp x data = 0 then (if a.isNil then 0 else b.leastPath - 1)
          else if cmp x data < 0 then b.removePath cmp data
          else a.removePath cmp data

end MapNode

/-- `HEIGHT_LIMIT`. -/
def heightLimit : Nat := 64

/-- `map_remove`; `size` is counted down for an empty map too, and not for a key that the search
misses. -/
def mapRemove (map : Map α) (data : α) : Option (Map α × Option α) :=
  if map.root.isNil then some ({ map with size := map.size - 1 }, none)
  else if heightLimit < map.root.removePath map.cmp data then none
  else
    match map.root.find map.cmp data with
    | none => some (map, none)
    | some x =>
        some ({ map with root := map.root.removeTop map.cmp data, size := map.size - 1 }, some x)

namespace MapNode

variable {cmp : α → α → ℤ} {data x : α}

/-! ## The elements -/

theorem toList_onRight {f : MapNode α → MapNode α} (hf : ∀ t, (f t).toList = t.toList)
    (t : MapNode α) : (t.onRight f).toList = t.toList := by
  cases t with
  | nil => rfl
  | node level a x b => simp only [onRight, toList, hf]

theorem toList_lower (bound : ℤ) (t : MapNode α) : (t.lower bound).toList = t.toList := by
  cases t with
  | nil => rfl
  | node level a x b =>
      rw [lower]
      split <;> rfl

theorem toList_relink (t : MapNode α) : t.relink.toList = t.toList := by
  simp only [relink, toList_onRight toList_split, toList_split,
    toList_onRight (toList_onRight toList_skew), toList_onRight toList_skew, toList_skew]

@[simp]
theorem toList_rebalance (t : MapNode α) : t.rebalance.toList = t.toList := by
  cases t with
  | nil => rfl
  | node level a x b =>
      rw [rebalance]
      split
      · rw [toList_relink, toList, toList_lower]
        rfl
      · rfl

theorem toList_takeHeir {t rest : MapNode α} {heir : α} (h : t.takeHeir = some (heir, rest)) :
    t.toList = heir :: rest.toList := by
  induction t generalizing rest with
  | nil => cases h
  | node level a x b iha _ =>
      rw [takeHeir] at h
      split at h
      · rename_i hnone
        cases h
        cases a with
        | nil => rfl
        | node => simp only [takeHeir] at hnone; split at hnone <;> cases hnone
      · rename_i heir' rest' hsome
        cases h
        simp only [toList_rebalance, toList, iha hsome, List.cons_append]

theorem takeHeir_eq_none {t : MapNode α} : t.takeHeir = none ↔ t = .nil := by
  cases t with
  | nil => exact iff_of_true rfl rfl
  | node level a x b =>
      apply iff_of_false
      · rw [takeHeir]
        split <;> simp
      · simp

theorem toList_unlink (level : ℤ) (a b : MapNode α) :
    (unlink level a b).toList = a.toList ++ b.toList := by
  cases a with
  | nil => rfl
  | node level₀ a₀ x₀ b₀ =>
      rw [unlink]
      split
      · rename_i hnone
        rw [takeHeir_eq_none.mp hnone]
        simp [toList]
      · rename_i heir rest hsome
        rw [toList_rebalance, toList_takeHeir hsome]
        rfl

theorem toList_remove {t : MapNode α} (h : t.find cmp data = some x) :
    ∃ before after, t.toList = before ++ x :: after ∧
      (t.remove cmp data).toList = before ++ after := by
  induction t with
  | nil => cases h
  | node level a y b iha ihb =>
      rw [find] at h
      rw [remove]
      split at h
      · rename_i heq
        cases h
        rw [if_pos heq, toList_unlink]
        exact ⟨a.toList, b.toList, rfl, rfl⟩
      · rename_i hne
        rw [if_neg hne]
        split at h
        · rename_i hlt
          obtain ⟨before, after, hlist, hremoved⟩ := ihb h
          rw [if_pos hlt, toList_rebalance, toList, toList, hlist, hremoved]
          exact ⟨a.toList ++ y :: before, after, by simp, by simp⟩
        · rename_i hle
          obtain ⟨before, after, hlist, hremoved⟩ := iha h
          rw [if_neg hle, toList_rebalance, toList, toList, hlist, hremoved]
          exact ⟨before, after ++ y :: b.toList, by simp, by simp⟩

section Order

variable {κ : Type*} [LinearOrder κ] {key : α → κ}

theorem ordered_remove {t : MapNode α} (ht : Ordered key t) (h : t.find cmp data = some x) :
    Ordered key (t.remove cmp data) := by
  obtain ⟨before, after, hlist, hremoved⟩ := toList_remove h
  unfold Ordered at ht ⊢
  rw [hlist] at ht
  rw [hremoved]
  exact ht.sublist ((List.sublist_cons_self x after).append_left before)

theorem mem_toList_remove (hcmp : Compares cmp key) {t : MapNode α} (ht : Ordered key t)
    (h : t.find cmp data = some x) {y : α} :
    y ∈ (t.remove cmp data).toList ↔ y ∈ t.toList ∧ key y ≠ key data := by
  obtain ⟨before, after, hlist, hremoved⟩ := toList_remove h
  have hkey := ((find_eq_some_iff hcmp ht).mp h).2
  unfold Ordered at ht
  rw [hlist, List.pairwise_append, List.pairwise_cons] at ht
  obtain ⟨_, ⟨hafter, _⟩, hbefore⟩ := ht
  rw [hlist, hremoved, ← hkey]
  simp only [List.mem_append, List.mem_cons]
  constructor
  · rintro (hy | hy)
    · exact ⟨.inl hy, ne_of_lt (hbefore y hy x List.mem_cons_self)⟩
    · exact ⟨.inr (.inr hy), ne_of_gt (hafter y hy)⟩
  · rintro ⟨hy | rfl | hy, hne⟩
    · exact .inl hy
    · exact (hne rfl).elim
    · exact .inr hy

end Order

/-! ## The saved path -/

theorem searchPath_le_height (t : MapNode α) : t.searchPath cmp data ≤ t.height := by
  induction t with
  | nil => exact Nat.le_refl 0
  | node level a x b iha ihb =>
      simp only [searchPath, height]
      split
      · omega
      · split <;> omega

theorem leastPath_le_height (t : MapNode α) : t.leastPath ≤ t.height := by
  induction t with
  | nil => exact Nat.le_refl 0
  | node level a x b iha ihb =>
      simp only [leastPath, height]
      omega

theorem removePath_of_find {t : MapNode α} (h : t.find cmp data = some x) :
    t.removePath cmp data ≤ t.height := by
  induction t with
  | nil => cases h
  | node level a y b iha ihb =>
      rw [find] at h
      simp only [removePath, height]
      split at h
      · rename_i heq
        have hleast := b.leastPath_le_height
        rw [if_pos heq]
        split <;> omega
      · rename_i hne
        rw [if_neg hne]
        split at h
        · rename_i hlt
          have := ihb h
          rw [if_pos hlt]
          omega
        · rename_i hle
          have := iha h
          rw [if_neg hle]
          omega

/-- The path of a key that is not there ends at a sentinel. -/
theorem removePath_of_not_find {t : MapNode α} (h : t.find cmp data = none) :
    t.removePath cmp data = t.searchPath cmp data + 1 := by
  induction t with
  | nil => rfl
  | node level a y b iha ihb =>
      rw [find] at h
      simp only [removePath, searchPath]
      split at h
      · cases h
      · rename_i hne
        rw [if_neg hne, if_neg hne]
        split at h
        · rename_i hlt
          rw [if_pos hlt, if_pos hlt, ihb h]
          omega
        · rename_i hle
          rw [if_neg hle, if_neg hle, iha h]
          omega

end MapNode

end Casting
