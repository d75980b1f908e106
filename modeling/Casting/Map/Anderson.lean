import Casting.Map.Contents

/-!
# The shape of a map in memory

Maps that are built by `map_insert` and `map_remove` have the levels of an Anderson tree, the
sentinel is left alone, and the path arrays hold every path of a map with fewer than `2 ^ 32 - 1`
entries.
-/

namespace Casting

open MapNode Transition

variable {δ : Type}

structure NodeCell.Levelled (h : Nodes δ) (c : NodeCell δ) : Prop where
  leaf : c.left = sentinal → c.right = sentinal → c.level = 1
  left : h.level c.left = .ok (c.level - 1)
  right : h.level c.right = .ok c.level ∨ h.level c.right = .ok (c.level - 1)
  outer : ∃ n l, h.link c.right true = .ok n ∧ h.level n = .ok l ∧ l < c.level

namespace NodeMap

variable {m : NodeMap δ} {t : MapNode (Entry δ)}

/-- The levels at every node that can be reached. -/
structure Anderson (m : NodeMap δ) : Prop where
  sentinal : m.nodes.level sentinal = .ok 0
  node : ∀ n, m.Linked n → ∃ c, m.nodes n = some c ∧ c.Levelled m.nodes

/-- The tree has its shape.  A call that goes on building it neither touches the sentinel nor a
freed node, and no path array is too short for it or for a cursor unless there are too many
entries. -/
structure Sound (m : NodeMap δ) : Prop where
  anderson : m.Anderson
  outcome : ∀ c : NodeCall δ, c.Fresh m.nodes → m.Builds c →
    (∃ m', m.call c = .ok m') ∨ m.call c = .error .overrun
  room : m.entries.ncard < 2 ^ 32 - 1 →
    (∀ c : NodeCall δ, c.Fresh m.nodes → m.Builds c → ∃ m', m.call c = .ok m') ∧
      ∀ dir dirs, ∃ cur, m.travel dir dirs = .ok cur

theorem laid_right {h : Nodes δ} (ht : t.Laid h) : t.right.Laid h := by
  cases t with
  | nil => trivial
  | node level a x b => exact ht.2.2.2

theorem levelled_of_balanced {h : Nodes δ} {n : Nat} {l : ℤ} {a b : MapNode (Entry δ)}
    {x : Entry δ} (hlaid : (MapNode.node l a x b).Laid h)
    (hbalanced : Balanced n (.node l a x b)) :
    NodeCell.Levelled h ⟨l, x.2, a.addr, b.addr⟩ := by
  obtain ⟨_, _, ha, hb⟩ := hlaid
  have hleft : a.level = l - 1 := by
    cases hbalanced with
    | two _ ha _ | three _ _ ha _ _ =>
        rw [ha.level_eq]
        omega
  have hright : b.level = l ∨ b.level = l - 1 := by
    cases hbalanced with
    | two _ _ hb =>
        rw [hb.level_eq]
        omega
    | three => exact .inl rfl
  have houter : b.right.level < l := by
    cases hbalanced with
    | two _ _ hb =>
        have := hb.right_level_le
        omega
    | three _ _ _ _ hc =>
        rw [right, hc.level_eq]
        omega
  refine ⟨?_, ?_, ?_, b.right.addr, b.right.level, hb.link_right, (laid_right hb).level_addr,
    houter⟩
  · intro hnil _
    rw [ha.addr_eq_sentinal.mp hnil, level] at hleft
    change l = 1
    omega
  · rw [ha.level_addr, hleft]
  · rw [hb.level_addr]
    rcases hright with hright | hright
    · exact .inl (by rw [hright])
    · exact .inr (by rw [hright])

theorem Holds.anderson (ht : m.Holds t) : m.Anderson := by
  refine ⟨rfl, ?_⟩
  intro n hn
  obtain ⟨k, hbalanced⟩ := ht.balanced
  obtain ⟨fs, l, a, x, b, hplug, rfl⟩ := exists_plug (ht.linked_iff.mp hn)
  have hlaid := ht.laid
  rw [← hplug] at hlaid hbalanced
  have hnode := (laid_plug.mp hlaid).1
  obtain ⟨j, hsub⟩ := hbalanced.of_plug
  exact ⟨_, hnode.2.1, levelled_of_balanced hnode hsub⟩

/-! ### Runs -/

theorem call_cases {c : NodeCall δ} (ht : m.Holds t) (hfresh : c.Fresh m.nodes)
    (hbuilds : m.Builds c) :
    (heightLimit ≤ t.height ∧ m.call c = .error .overrun) ∨
      ∃ m' t', m.call c = .ok m' ∧ m'.Holds t' := by
  cases c with
  | insert supply data =>
      rcases insert_cases ht hfresh hbuilds with ⟨htall, hover⟩ | ⟨m', t', _, hok, hfollows⟩
      · exact .inl ⟨htall, by rw [call, hover]; rfl⟩
      · exact .inr ⟨m', t', by rw [call, hok]; rfl, hfollows.holds⟩
  | remove data =>
      by_cases hne : data = none ∨ t ≠ .nil
      · rcases remove_cases ht hne with ⟨htall, hover⟩ | ⟨m', t', _, hok, hfollows⟩
        · exact .inl ⟨htall, by rw [call, hover]; rfl⟩
        · exact .inr ⟨m', t', by rw [call, hok]; rfl, hfollows.holds⟩
      · right
        rw [not_or, not_not] at hne
        obtain ⟨hsome, rfl⟩ := hne
        obtain ⟨data, rfl⟩ := Option.ne_none_iff_exists'.mp hsome
        refine ⟨{ m with size := m.size - 1 }, .nil, ?_, ht.resize (m.size - 1)⟩
        rw [call, remove_empty ht]
        rfl
  | clear rounds => exact hbuilds.elim

theorem Holds.sound (ht : m.Holds t) : m.Sound := by
  refine ⟨ht.anderson, ?_, ?_⟩
  · intro c hfresh hbuilds
    rcases call_cases ht hfresh hbuilds with ⟨_, hover⟩ | ⟨m', _, hok, _⟩
    · exact .inr hover
    · exact .inl ⟨m', hok⟩
  · intro hfew
    have hheight := ht.height_le hfew
    have hlimit : t.height < heightLimit := by
      rw [heightLimit]
      omega
    refine ⟨?_, ?_⟩
    · intro c hfresh hbuilds
      rcases call_cases ht hfresh hbuilds with ⟨htall, _⟩ | ⟨m', _, hok, _⟩
      · omega
      · exact ⟨m', hok⟩
    · intro dir dirs
      exact ⟨_, travel_eq ht (Nat.le_of_lt hlimit) dir dirs⟩

/-- Every state of a run that builds a map is sound. -/
theorem sound_throughout (nodes : Nodes δ) (cmp : δ → δ → ℤ) (copies releases : Bool)
    {calls : List (NodeCall δ)}
    (hbuilds : Respects step Builds (init nodes cmp copies releases) calls) :
    Throughout step Sound (init nodes cmp copies releases) calls := by
  have hstep : ∀ (m : NodeMap δ) c m', (∃ t, m.Holds t) → m.Builds c → m.step c = some m' →
      ∃ t', m'.Holds t' := by
    intro m c m' ⟨t, ht⟩ hbuilds hstep
    obtain ⟨hfresh, hcall⟩ := step_eq_some.mp hstep
    rcases call_cases ht hfresh hbuilds with ⟨_, hover⟩ | ⟨next, t', hok, hholds⟩
    · rw [hover] at hcall
      cases hcall
    · rw [hok] at hcall
      cases hcall
      exact ⟨t', hholds⟩
  exact throughout_of_respects hstep (fun m ⟨t, ht⟩ => ht.sound)
    ⟨.nil, holds_init nodes cmp copies releases⟩ hbuilds

/-- Four ascending keys, with `dup` and `rel`, and a removal after which the root is split. -/
theorem sound_throughout_ascending : Throughout step Sound
    (init (fun _ => none) (fun x y : ℤ => x - y) true true)
    [.insert ⟨some 1, .ok 1⟩ (some 1), .insert ⟨some 2, .ok 2⟩ (some 2),
      .insert ⟨some 3, .ok 3⟩ (some 3), .insert ⟨some 4, .ok 4⟩ (some 4), .remove (some 1)] := by
  refine sound_throughout _ _ _ _ (Respects.mono (fun _ _ h => h.1)
    ((sorted_init compares_sub _ _ _).respects ?_ ?_ ?_ ?_))
  · simp [toList]
  · decide
  · simp [NodeCall.Clones]
  · simp

end NodeMap

end Casting
