import Casting.Map.Tall
import Casting.Map.Traversal
import Mathlib.Data.Set.Finite.Lattice

/-!
# A map too deep for its cursors

Insertions at the right end make the right path one node longer than a path array is.  Insertions
at the left end then rotate a node to the root, which pushes the right path down by one more, and
their own searches stay short.
-/

namespace Casting

open MapNode Transition

namespace MapNode

variable {α : Type} {n : Nat} {x : α} {a b c r t leaf : MapNode α}

/-! ### Both ends of a tree -/

def growLeft : MapNode α → MapNode α → MapNode α
  | .nil, leaf => leaf
  | .node level a x b, leaf => split (skew (.node level (a.growLeft leaf) x b))

theorem search_of_below {cmp : α → α → ℤ} {data : α} (leaf : MapNode α)
    (h : ∀ x ∈ t.toList, 0 < cmp x data) :
    t.find cmp data = none ∧ t.searchPath cmp data = t.leastPath ∧
      t.attach cmp data leaf = t.growLeft leaf := by
  induction t with
  | nil => exact ⟨rfl, rfl, rfl⟩
  | node level a x b iha _ =>
      have hx : 0 < cmp x data := h x (by simp [toList])
      have ha := iha fun y hy => h y (by simp [toList, hy])
      rw [find, searchPath, attach, growLeft, leastPath, if_neg hx.ne', if_neg hx.ne',
        if_neg hx.not_gt, if_neg hx.not_gt, if_neg hx.not_gt, ha.1, ha.2.1, ha.2.2]
      exact ⟨rfl, rfl, rfl⟩

theorem Balanced.fits_growLeft (ht : Balanced n t) (hleaf : Two 1 leaf) :
    Fits n (t.growLeft leaf) := by
  cases leaf with
  | nil => cases hleaf
  | node level a x b =>
      have hbelow : _ ∧ t.searchPath (fun _ _ => 1) x = t.leastPath ∧
          t.attach (fun _ _ => 1) x (.node level a x b) = t.growLeft (.node level a x b) :=
        search_of_below (.node level a x b) fun _ _ => Int.one_pos
      rw [← hbelow.2.2]
      exact fits_attach ht hleaf

theorem length_growLeft (t leaf : MapNode α) :
    (t.growLeft leaf).toList.length = leaf.toList.length + t.toList.length := by
  induction t with
  | nil => rfl
  | node level a x b iha _ =>
      simp only [growLeft, toList_split, toList_skew, toList, List.length_append,
        List.length_cons, iha]
      omega

theorem Balanced.leastPath_eq (ht : Balanced n t) : t.leastPath = n := by
  induction ht with
  | nil => rfl
  | two x _ _ iha _ => rw [leastPath, iha, Nat.add_comm]
  | three x y _ _ _ iha _ _ => rw [leastPath, iha, Nat.add_comm]

theorem length_outermost_right (fs : List (Frame α)) (t : MapNode α) :
    (outermost true fs t).1.length = fs.length + (t.rightPath - 1) := by
  induction t generalizing fs with
  | nil => rfl
  | node level a x b _ ihb =>
      rw [outermost, rightPath]
      split
      · rename_i hnil
        rw [isNil_iff.mp hnil]
        rfl
      · rename_i hnil
        have hpos : 0 < b.rightPath := by
          cases b with
          | nil => exact (hnil rfl).elim
          | node => simp only [rightPath]; omega
        rw [ihb, List.length_cons]
        omega

/-- A right end is raised only where every level has two nodes on the right path. -/
theorem Rising.rightPath_of_raised (ht : Rising n t) (hleaf : Risen 0 leaf)
    (h : ¬ Rising n (t.grow leaf)) : t.rightPath = 2 * n := by
  induction ht with
  | nil => rfl
  | two x ha hb _ => exact (h (rising_grow_two ha (hb.grow hleaf))).elim
  | @three n a b c x y ha hb hc ih =>
      have hc' : ¬ Rising n (c.grow leaf) := by
        intro hgrown
        have hinner : Rising (n + 1) _ := Rising.two y hb hgrown
        have houter : Rising (n + 1) _ := Rising.three x y ha hb hgrown
        apply h
        rw [grow_node ha, grow_node hb, hinner.balanced.split_eq, houter.balanced.split_eq]
        exact houter
      have hpath := ih hc'
      simp only [rightPath]
      omega

/-! ### Growing at both ends

Any collection of trees that is closed under insertions whose searches are short enough. -/

section Ends

variable {S : MapNode α → Prop} {limit : Nat}

/-- Insertions at the right end lead to a right path one node longer than the limit. -/
theorem exists_rightPath (hnil : S .nil)
    (hright : ∀ t, S t → t.rightPath ≤ limit → ∃ x, S (t.grow (.node 1 .nil x .nil))) :
    ∃ t n, S t ∧ Rising n t ∧ t.rightPath = limit + 1 ∧ 2 * n ≤ limit + 2 := by
  by_contra hnone
  have hall : ∀ k, ∃ t n, S t ∧ Rising n t ∧ t.rightPath ≤ limit ∧ 2 * n ≤ limit + 2 ∧
      t.toList.length = k := by
    intro k
    induction k with
    | zero => exact ⟨.nil, 0, hnil, .nil, Nat.zero_le _, Nat.zero_le _, rfl⟩
    | succ k ih =>
        obtain ⟨t, n, ht, hrising, hpath, hlevel, hlength⟩ := ih
        obtain ⟨x, hgrown⟩ := hright t ht hpath
        have hleaf : Risen 0 (.node 1 .nil x .nil) := .inr ⟨.nil, x, .nil, rfl, ⟨.nil, rfl⟩, .nil⟩
        have hone : (t.grow (.node 1 .nil x .nil)).rightPath ≤ t.rightPath + 1 :=
          hrising.rightPath_grow_le rfl
        obtain ⟨m, hm, hlevel'⟩ : ∃ m, Rising m (t.grow (.node 1 .nil x .nil)) ∧
            2 * m ≤ limit + 2 := by
          by_cases hsame : Rising n (t.grow (.node 1 .nil x .nil))
          · exact ⟨n, hsame, hlevel⟩
          · have hfull := hrising.rightPath_of_raised hleaf hsame
            rcases hrising.grow hleaf with hrisen | ⟨a, y, b, heq, ha, hb⟩
            · exact (hsame hrisen).elim
            · rw [heq]
              exact ⟨n + 1, .two y ha hb, by omega⟩
        refine ⟨_, m, hgrown, hm, ?_, hlevel', ?_⟩
        · by_contra hlong
          exact hnone ⟨_, m, hgrown, hm, by omega, hlevel'⟩
        · rw [toList_grow, List.length_append, hlength]
          rfl
  obtain ⟨t, n, _, hrising, _, hlevel, hlength⟩ := hall (3 ^ (limit + 2))
  have hsmall := hrising.balanced.length_lt
  have hmono : 3 ^ n ≤ 3 ^ (limit + 2) := Nat.pow_le_pow_right (by decide) (by omega)
  omega

theorem exists_raised
    (hleft : ∀ t, S t → t.leastPath ≤ limit → ∃ x, S (t.growLeft (.node 1 .nil x .nil)))
    (hroot : ∀ a, Balanced n a → Balanced (n + 1) (.node (n + 1) a x r)) (hn : n + 1 ≤ limit)
    (ha : Balanced n a) (ht : S (.node (n + 1) a x r)) :
    ∃ p, Two (n + 1) p ∧ S (split (skew (.node (n + 1) p x r))) := by
  by_contra hnone
  have hall : ∀ k, ∃ a, Balanced n a ∧ S (.node (n + 1) a x r) ∧ k ≤ a.toList.length := by
    intro k
    induction k with
    | zero => exact ⟨a, ha, ht, Nat.zero_le _⟩
    | succ k ih =>
        obtain ⟨a, ha, ht, hlength⟩ := ih
        obtain ⟨y, hgrown⟩ := hleft _ ht (by rw [(hroot a ha).leastPath_eq]; exact hn)
        rw [growLeft] at hgrown
        have hleaf : Two 1 (MapNode.node 1 .nil y .nil) := .mk y .nil .nil
        rcases ha.fits_growLeft hleaf with hfits | hraised
        · rw [(hroot _ hfits).skew_eq, (hroot _ hfits).split_eq] at hgrown
          refine ⟨_, hfits, hgrown, ?_⟩
          rw [length_growLeft]
          simp only [toList, List.length_append, List.length_cons, List.length_nil]
          omega
        · exact (hnone ⟨_, hraised, hgrown⟩).elim
  obtain ⟨a, ha, _, hlength⟩ := hall (3 ^ n)
  exact absurd ha.length_lt (Nat.not_lt_of_le hlength)

theorem exists_pushed
    (hleft : ∀ t, S t → t.leastPath ≤ limit → ∃ x, S (t.growLeft (.node 1 .nil x .nil)))
    (hbalanced : Balanced n t) (hn : n + 1 ≤ limit) (ht : S t) (hne : t ≠ .nil) :
    ∃ s, S s ∧ s.rightPath = t.rightPath + 1 := by
  have htwo : ∀ {n a x b}, n + 1 ≤ limit → Balanced n a → Balanced n b →
      S (.node ((n : ℤ) + 1) a x b) →
      ∃ s, S s ∧ s.rightPath = (MapNode.node ((n : ℤ) + 1) a x b).rightPath + 1 := by
    intro n a x b hn ha hb ht
    obtain ⟨p, ⟨y, hp, hq⟩, hs⟩ := exists_raised hleft (fun _ ha => .two x ha hb) hn ha ht
    have h : Balanced (n + 1) _ := Balanced.three y x hp hq hb
    rw [skew_node (by omega), h.split_eq] at hs
    refine ⟨_, hs, ?_⟩
    simp only [rightPath]
    omega
  cases hbalanced with
  | nil => exact (hne rfl).elim
  | two x ha hb => exact htwo (by omega) ha hb ht
  | @three n a b c x y ha hb hc =>
      -- the row of three nodes that comes first only raises the root
      obtain ⟨p, ⟨z, hp, hq⟩, hs⟩ :=
        exists_raised hleft (fun _ ha => .three x y ha hb hc) (by omega) ha ht
      rw [skew_node (by omega), split_node (by omega) (by simp [level])] at hs
      obtain ⟨s, hs, hpath⟩ := htwo (n := n + 1) hn (.two z hp hq) (.two y hb hc)
        (by exact_mod_cast hs)
      refine ⟨s, hs, ?_⟩
      rw [hpath]
      simp only [rightPath]

end Ends

end MapNode

/-! ## A map in memory -/

namespace NodeMap

variable {m m' : NodeMap ℤ} {t : MapNode (Entry ℤ)}

def emptyMap : NodeMap ℤ := init (fun _ => none) (fun x y => x - y) false false

/-- A run of insertions ends with the tree in memory, and nodes are left. -/
structure Reaches (calls : List (NodeCall ℤ)) (m : NodeMap ℤ) (t : MapNode (Entry ℤ)) : Prop where
  grows : Respects step (Grows id) emptyMap calls
  run : Transition.run step emptyMap calls = some m
  holds : m.Holds t
  cmp : m.cmp = emptyMap.cmp
  copies : m.copies = false
  unused : ∃ bound, ∀ n, bound ≤ n → m.nodes n = none

def Reached (t : MapNode (Entry ℤ)) : Prop := ∃ calls m, Reaches calls m t

theorem reached_nil : Reached .nil :=
  ⟨[], emptyMap, trivial, rfl, holds_init _ _ _ _, rfl, rfl, 0, fun _ _ => rfl⟩

theorem Reached.insert (ht : Reached t) {data : ℤ}
    (hfits : t.searchPath (keyed emptyMap.cmp) (sentinal, data) ≤ heightLimit)
    (habsent : t.find (keyed emptyMap.cmp) (sentinal, data) = none) :
    ∃ e, Reached (t.attach (keyed emptyMap.cmp) (sentinal, data) (.node 1 .nil e .nil)) := by
  obtain ⟨calls, m, h⟩ := ht
  obtain ⟨bound, hunused⟩ := h.unused
  let supply : Supply ℤ := ⟨some (bound + 1), .error 0⟩
  have hfresh : supply.Fresh m.nodes := by
    intro n hn
    cases hn
    exact ⟨Nat.succ_ne_zero bound, hunused _ (Nat.le_succ bound)⟩
  have hsupplied : m.supplied supply data = .ok (bound + 1, data) := by
    rw [supplied, h.copies]
    rfl
  rw [← h.cmp] at hfits habsent ⊢
  obtain ⟨h', r, hinsert, hholds, hother⟩ :=
    insert_absent h.holds hfresh hfits habsent hsupplied
  have hstep : m.step (.insert supply (some data)) =
      some { m with nodes := h', root := r, size := m.size + 1 } :=
    step_eq_some.mpr ⟨hfresh, congrArg (Except.map Prod.fst) hinsert⟩
  have hgrows : m.Grows id (.insert supply (some data)) := by
    constructor
    · intro hcopies
      rw [h.copies] at hcopies
      cases hcopies
    · intro hcopies
      rw [h.copies] at hcopies
      cases hcopies
  refine ⟨(bound + 1, data), calls ++ [.insert supply (some data)], _, ?_, ?_, hholds, h.cmp,
    h.copies, ?_⟩
  · exact h.grows.then h.run fun _ _ => ⟨hgrows, trivial⟩
  · rw [run_append, h.run]
    exact run_cons_eq_some.mpr ⟨_, hstep, rfl⟩
  · obtain ⟨top, htop⟩ := (List.finite_toSet
      (t.attach (keyed m.cmp) (sentinal, data) (leaf (bound + 1, data))).refs).bddAbove
    refine ⟨max bound (top + 1), ?_⟩
    intro n hn
    refine (hother n ?_).trans (hunused n ((le_max_left _ _).trans hn))
    intro hmem
    exact Nat.not_succ_le_self top (((le_max_right _ _).trans hn).trans (htop hmem))

theorem exists_above (t : MapNode (Entry ℤ)) : ∃ data : ℤ, ∀ x ∈ t.toList, x.2 < data := by
  obtain ⟨top, htop⟩ := (List.finite_toSet (t.toList.map Prod.snd)).bddAbove
  refine ⟨top + 1, ?_⟩
  intro x hx
  have : x.2 ≤ top := htop (List.mem_map_of_mem hx)
  omega

theorem exists_below (t : MapNode (Entry ℤ)) : ∃ data : ℤ, ∀ x ∈ t.toList, data < x.2 := by
  obtain ⟨low, hlow⟩ := (List.finite_toSet (t.toList.map Prod.snd)).bddBelow
  refine ⟨low - 1, ?_⟩
  intro x hx
  have : low ≤ x.2 := hlow (List.mem_map_of_mem hx)
  omega

theorem Reached.right (ht : Reached t) (hfits : t.rightPath ≤ heightLimit) :
    ∃ e, Reached (t.grow (.node 1 .nil e .nil)) := by
  obtain ⟨data, habove⟩ := exists_above t
  have hleft : ∀ x ∈ t.toList, keyed emptyMap.cmp x (sentinal, data) < 0 :=
    fun x hx => sub_neg.mpr (habove x hx)
  have hsearch := fun leaf => search_of_above leaf hleft
  obtain ⟨habsent, hpath, _⟩ := hsearch .nil
  obtain ⟨e, he⟩ := ht.insert (hpath.trans_le hfits) habsent
  rw [(hsearch _).2.2] at he
  exact ⟨e, he⟩

theorem Reached.left (ht : Reached t) (hfits : t.leastPath ≤ heightLimit) :
    ∃ e, Reached (t.growLeft (.node 1 .nil e .nil)) := by
  obtain ⟨data, hbelow⟩ := exists_below t
  have hright : ∀ x ∈ t.toList, 0 < keyed emptyMap.cmp x (sentinal, data) :=
    fun x hx => sub_pos.mpr (hbelow x hx)
  have hsearch := fun leaf => search_of_below leaf hright
  obtain ⟨habsent, hpath, _⟩ := hsearch .nil
  obtain ⟨e, he⟩ := ht.insert (hpath.trans_le hfits) habsent
  rw [(hsearch _).2.2] at he
  exact ⟨e, he⟩

/-- Some run of insertions ends with a map whose last entry has too many entries above it. -/
theorem exists_deep : ∃ calls m, Respects step (Grows id) emptyMap calls ∧
    run step emptyMap calls = some m ∧ ¬ m.Shallow := by
  obtain ⟨t, n, ht, hrising, hpath, hlevel⟩ :=
    exists_rightPath reached_nil fun _ ht hfits => Reached.right ht hfits
  have hne : t ≠ .nil := by
    rintro rfl
    cases hpath
  have hlow : n + 1 ≤ heightLimit := by
    rw [heightLimit] at hlevel ⊢
    omega
  obtain ⟨s, ⟨calls, m, hs⟩, hdeep⟩ :=
    exists_pushed (fun _ ht hfits => Reached.left ht hfits) hrising.balanced hlow ht hne
  refine ⟨calls, m, hs.grows, hs.run, ?_⟩
  rw [hs.holds.shallow_iff]
  intro hfits
  have hs' : s ≠ .nil := by
    rintro rfl
    cases hdeep
  have hlast := hfits (outermost true [] s) (at_outermost hs' (plug_nil s))
  rw [length_outermost_right, hdeep, hpath, List.length_nil] at hlast
  omega

/-- A map of more than `2 ^ 32` entries with one that a cursor cannot reach. -/
theorem traversesInOrder_fails : ¬ ∀ calls : List (NodeCall ℤ),
    Respects step (Grows id) emptyMap calls →
      Throughout step (TraversesInOrder id) emptyMap calls := by
  intro hall
  obtain ⟨calls, m, hgrows, hrun, hdeep⟩ := exists_deep
  have hiff : Throughout step (fun m => m.TraversesInOrder id ↔ m.Shallow) emptyMap calls :=
    throughout_of_sorted (fun h => h.traverses_iff) compares_sub _ _ _ hgrows
  exact hdeep ((hiff.last hrun).mp ((hall calls hgrows).last hrun))

end NodeMap

end Casting
