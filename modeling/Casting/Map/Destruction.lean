import Casting.Map.Clearing
import Casting.Map.Contents

/-!
# Freeing a map

`map_free` of a map that insertions and removals built.  Reading, linking or freeing a node that is
not allocated is a fault, and nothing is allocated on the way, so a call that ends well frees a node
at most once and follows no link of a node that it has freed.
-/

namespace Casting

open MapNode Transition

variable {δ : Type} {κ : Type*} [LinearOrder κ]

namespace NodeMap

variable {key : δ → κ} {m : NodeMap δ} {t : MapNode (Entry δ)}

/-- `map_free`: the nodes that are still allocated, and what `rel` was called with.  The map
itself is freed too. -/
def free (m : NodeMap δ) (rounds : Nat) : Except MapFault (Nodes δ × List δ) := do
  let m ← m.clear rounds
  .ok (m.nodes, m.released)

/-- The call ends, gives `rel` the data of the entries in ascending order, and frees the nodes of
the entries and no others. -/
structure Destroys (m : NodeMap δ) (es : List (Entry δ)) (rounds : Nat) (h : Nodes δ)
    (released : List δ) : Prop where
  ends : m.free rounds = .ok (h, released)
  released : released = m.released ++ if m.releases then es.map Prod.snd else []
  freed : ∀ n ∈ es.map Prod.fst, m.nodes n ≠ none ∧ h n = none
  kept : ∀ n, n ∉ es.map Prod.fst → h n = m.nodes n

/-- From some number of rounds on, `map_free` destroys all entries. -/
def FreesAll (key : δ → κ) (m : NodeMap δ) : Prop :=
  ∃ es, m.InOrder key es ∧ ∃ bound h released, ∀ rounds, bound ≤ rounds →
    m.Destroys es rounds h released

theorem free_eq (ht : m.Holds t) {rounds : Nat} (hrounds : t.clearingRounds ≤ rounds) :
    m.free rounds = .ok (without m.nodes t, m.released ++ discarded m.releases t) := by
  rw [free, clear_eq ht, if_neg (Nat.not_lt_of_le hrounds), MapFault.ok_bind]

theorem Sorted.freesAll (h : m.Sorted key t) : m.FreesAll key := by
  refine ⟨t.toList, h.inOrder, t.clearingRounds, without m.nodes t,
    m.released ++ discarded m.releases t, ?_⟩
  intro rounds hrounds
  refine ⟨free_eq h.holds hrounds, ?_, ?_, ?_⟩
  · rw [discarded]
  · intro n hn
    exact ⟨h.holds.laid.live hn, if_pos hn⟩
  · intro n hn
    exact if_neg hn

/-- In every state of a run that builds a map, `map_free` destroys all entries. -/
theorem freesAll_throughout {cmp : δ → δ → ℤ} (hcmp : Compares cmp key) (nodes : Nodes δ)
    (copies releases : Bool) {calls : List (NodeCall δ)}
    (hgrows : Respects step (Grows key) (init nodes cmp copies releases) calls) :
    Throughout step (FreesAll key) (init nodes cmp copies releases) calls :=
  throughout_of_sorted (fun h => h.freesAll) hcmp nodes copies releases hgrows

/-- Two insertions into a map with `dup` and `rel`. -/
theorem freesAll_throughout_pair : Throughout step (FreesAll (id : ℤ → ℤ))
    (init (fun _ => none) (fun x y => x - y) true true)
    [.insert ⟨some 1, .ok 5⟩ (some 5), .insert ⟨some 2, .ok 3⟩ (some 3)] := by
  refine freesAll_throughout compares_sub _ _ _
    ((sorted_init compares_sub _ _ _).respects ?_ ?_ ?_ ?_)
  · simp [toList]
  · decide
  · simp [NodeCall.Clones]
  · simp

end NodeMap

end Casting
