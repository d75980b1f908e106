import Casting.Map.Clearing
import Casting.Map.Runs

/-!
# The size of a map

`size` is a counter beside the tree.  `map_remove` counts it down on an empty map, and `map_clear`
leaves it, and the root, as they are.
-/

namespace Casting

open MapNode Transition

variable {δ : Type}

namespace NodeMap

variable {m m' : NodeMap δ} {t : MapNode (Entry δ)}

/-- `map_size` is the number of entries that can be reached. -/
def Counts (m : NodeMap δ) : Prop := m.size = m.entries.ncard

/-- The map is as `map_init` makes it. -/
structure Empty (m : NodeMap δ) : Prop where
  root : m.root = sentinal
  size : m.size = 0

/-- A call of `map_clear` leaves an empty map. -/
def Empties (m : NodeMap δ) (c : NodeCall δ) : Prop :=
  ∀ rounds, c = .clear rounds → ∀ m' ∈ m.step c, m'.Empty

/-- The call is no removal from an empty map, and no `map_clear` of another one. -/
def Tracks (m : NodeMap δ) : NodeCall δ → Prop
  | .insert _ _ => True
  | .remove data => data = none ∨ m.root ≠ sentinal
  | .clear _ => m.root = sentinal

/-- An empty map answers every call as a new one does. -/
theorem Empty.eq_init (h : m.Empty) :
    m = { init m.nodes m.cmp m.copies m.releases with released := m.released } := by
  obtain ⟨hroot, hsize⟩ := h
  cases m
  cases hroot
  cases hsize
  rfl

theorem Empty.find (h : m.Empty) (rounds : Nat) (data : Option δ) :
    m.find rounds data = .ok none := by
  cases data with
  | none => rfl
  | some data =>
      rw [NodeMap.find, h.root]
      cases rounds <;> rfl

theorem Holds.counts_iff (ht : m.Holds t) : m.Counts ↔ m.size - t.toList.length = 0 := by
  rw [Counts, ht.ncard_entries, sub_eq_zero]

/-- After `map_clear` of a map with entries the root is freed, and nothing can be reached. -/
theorem entries_cleared (ht : m.Holds t) (hne : t ≠ .nil) {released : List δ} :
    entries { m with nodes := without m.nodes t, released := released } = ∅ := by
  have hdead : without m.nodes t t.addr = none := if_pos (addr_mem hne)
  have hlinked : ∀ n, Linked { m with nodes := without m.nodes t, released := released } n →
      n = t.addr := by
    intro n hn
    induction hn with
    | root => exact ht.root
    | link hn hlink hzero ih =>
        rw [ih] at hlink
        have haddr : t.addr ≠ sentinal := mt ht.laid.addr_eq_sentinal.mp hne
        simp only [Nodes.link, if_neg haddr, Nodes.cell, hdead] at hlink
        cases hlink
  ext n
  refine iff_of_false ?_ (Set.notMem_empty n)
  rintro ⟨hn, hlive⟩
  rw [hlinked n hn] at hlive
  exact hlive hdead

def Plain (m : NodeMap δ) : Prop := (∃ t, m.Holds t) ∧ m.copies = false

theorem clear_nil (ht : m.Holds .nil) (rounds : Nat) : m.clear rounds = .ok m := by
  rw [clear_eq ht, if_neg (by simp [clearingRounds])]
  have hheap : without m.nodes (.nil : MapNode (Entry δ)) = m.nodes := by
    funext n
    simp [without]
  rw [hheap, discarded_nil, List.append_nil]

theorem tracked_call {c : NodeCall δ} (hplain : m.Plain) (htracks : m.Tracks c)
    (hstep : m.step c = some m') : m'.Plain ∧ (m.Counts → m'.Counts) := by
  obtain ⟨⟨t, ht⟩, hcopies⟩ := hplain
  obtain ⟨hfresh, hcall⟩ := step_eq_some.mp hstep
  have hfollows : ∀ {m₁ t'}, Follows m t m₁ t' → m₁.Plain ∧ (m.Counts → m₁.Counts) := by
    intro m₁ t' h
    refine ⟨⟨⟨t', h.holds⟩, h.copies.trans hcopies⟩, ?_⟩
    rw [ht.counts_iff, h.holds.counts_iff, h.size]
    exact id
  cases c with
  | insert supply data =>
      have hbuilds : m.Builds (.insert supply data) := by
        intro htrue
        rw [hcopies] at htrue
        cases htrue
      rcases insert_cases ht hfresh hbuilds with ⟨_, hover⟩ | ⟨m₁, t', _, hok, h⟩
      · rw [call, hover] at hcall
        cases hcall
      · rw [call, hok] at hcall
        cases hcall
        exact hfollows h
  | remove data =>
      have hne : data = none ∨ t ≠ .nil := htracks.imp id (mt ht.root_eq_sentinal.mpr)
      rcases remove_cases ht hne with ⟨_, hover⟩ | ⟨m₁, t', _, hok, h⟩
      · rw [call, hover] at hcall
        cases hcall
      · rw [call, hok] at hcall
        cases hcall
        exact hfollows h
  | clear rounds =>
      have hnil := ht.root_eq_sentinal.mp htracks
      subst hnil
      rw [call, clear_nil ht] at hcall
      cases hcall
      exact ⟨⟨⟨.nil, ht⟩, hcopies⟩, id⟩

theorem untracked_call {c : NodeCall δ} (hplain : m.Plain) (hcounts : m.Counts)
    (htracks : ¬ m.Tracks c) (hstep : m.step c = some m') : ¬ m'.Counts := by
  obtain ⟨⟨t, ht⟩, _⟩ := hplain
  obtain ⟨_, hcall⟩ := step_eq_some.mp hstep
  cases c with
  | insert supply data => exact (htracks trivial).elim
  | remove data =>
      rw [Tracks, not_or, not_not] at htracks
      obtain ⟨hsome, hroot⟩ := htracks
      obtain ⟨data, rfl⟩ := Option.ne_none_iff_exists'.mp hsome
      have hnil := ht.root_eq_sentinal.mp hroot
      subst hnil
      rw [call, remove_empty ht] at hcall
      cases hcall
      have hleft : Holds { m with size := m.size - 1 } .nil := ht.resize (m.size - 1)
      rw [ht.counts_iff] at hcounts
      rw [hleft.counts_iff]
      simp only [toList, List.length_nil] at hcounts ⊢
      omega
  | clear rounds =>
      have hne : t ≠ .nil := mt ht.root_eq_sentinal.mpr htracks
      rw [call, clear_eq ht] at hcall
      split at hcall
      · cases hcall
      · cases hcall
        rw [Counts, entries_cleared ht hne, Set.ncard_empty]
        rw [ht.counts_iff] at hcounts
        have hlength : t.toList.length ≠ 0 := by
          cases t with
          | nil => exact (hne rfl).elim
          | node => simp [toList]
        change m.size ≠ _
        omega

/-- Throughout a run the size counts the entries, and `map_clear` empties the map, exactly when
nothing is removed from an empty map and only an empty map is cleared. -/
theorem counts_iff_tracks (nodes : Nodes δ) (cmp : δ → δ → ℤ) (releases : Bool)
    (calls : List (NodeCall δ)) :
    (Throughout step Counts (init nodes cmp false releases) calls ∧
        Respects step Empties (init nodes cmp false releases) calls) ↔
      Respects step Tracks (init nodes cmp false releases) calls := by
  have hplain : (init nodes cmp false releases).Plain :=
    ⟨⟨.nil, holds_init nodes cmp false releases⟩, rfl⟩
  have hcounts : (init nodes cmp false releases).Counts := by
    rw [(holds_init nodes cmp false releases).counts_iff]
    rfl
  have hiff : Throughout step Counts (init nodes cmp false releases) calls ↔
      Respects step Tracks (init nodes cmp false releases) calls := by
    apply throughout_iff_respects (I := fun m _ => m.Plain) _ _ hplain hcounts
    · intro m c _ m' hplain htracks hstep
      exact (tracked_call hplain htracks hstep).1
    · intro m c _ m' hplain hcounts hstep
      constructor
      · intro hcounts'
        by_contra htracks
        exact untracked_call hplain hcounts htracks hstep hcounts'
      · intro htracks
        exact (tracked_call hplain htracks hstep).2 hcounts
  rw [hiff]
  constructor
  · exact And.left
  · intro htracks
    refine ⟨htracks, htracks.mono_of_invariant (I := fun m => m.Plain ∧ m.Counts) ?_ ?_
      ⟨hplain, hcounts⟩⟩
    · rintro m c m' ⟨hplain, hcounts⟩ htracks hstep
      obtain ⟨hplain', hcounts'⟩ := tracked_call hplain htracks hstep
      exact ⟨hplain', hcounts' hcounts⟩
    · rintro m c ⟨hplain, hcounts⟩ htracks rounds rfl m' hstep
      obtain ⟨⟨t, ht⟩, _⟩ := hplain
      have hnil := ht.root_eq_sentinal.mp htracks
      subst hnil
      obtain ⟨_, hcall⟩ := step_eq_some.mp hstep
      rw [call, clear_nil ht] at hcall
      cases hcall
      rw [ht.counts_iff] at hcounts
      refine ⟨htracks, ?_⟩
      simpa [toList] using hcounts

/-- A removal from a new map counts its size down to -1. -/
theorem counts_fails : ¬ ∀ calls : List (NodeCall ℤ),
    Throughout step Counts (init (fun _ => none) (fun x y : ℤ => x - y) false false) calls ∧
      Respects step Empties (init (fun _ => none) (fun x y : ℤ => x - y) false false) calls := by
  intro hall
  have hrun := (hall [.remove (some 5)]).1.2 _ rfl
  have hsize : (-1 : ℤ) = _ := hrun
  omega

end NodeMap

end Casting
