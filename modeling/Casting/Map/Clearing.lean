import Casting.Map.Operations

/-!
# Destruction by rotation

The loop of `map_clear` rotates the first left child up until there is none, and removes the node
it is then at.  A rotation moves one node over to the right side, from where it is only removed.
-/

namespace Casting

open MapNode

variable {δ : Type}

namespace MapNode

/-- The rounds of the loop: a rotation and a removal for each node on a left side, and a removal
for each node on the right side. -/
def clearingRounds {α : Type*} : MapNode α → Nat
  | .nil => 0
  | .node _ a _ b => 2 * a.toList.length + 1 + b.clearingRounds

end MapNode

namespace NodeMap

variable {m : NodeMap δ} {h : Nodes δ} {t a b c : MapNode (Entry δ)} {l k : ℤ} {x y : Entry δ}

def without (h : Nodes δ) (t : MapNode (Entry δ)) : Nodes δ :=
  fun n => if n ∈ t.refs then none else h n

/-- What `rel` is called with for a whole tree. -/
def discarded (releases : Bool) (t : MapNode (Entry δ)) : List δ :=
  if releases then t.toList.map Prod.snd else []

theorem discarded_nil (releases : Bool) :
    discarded releases (.nil : MapNode (Entry δ)) = [] := by
  cases releases <;> rfl

theorem without_node_nil (h : Nodes δ) :
    without (Function.update h x.1 none) b = without h (.node l .nil x b) := by
  funext n
  simp only [without, refs_node, refs_nil, List.nil_append, List.mem_cons]
  by_cases hb : n ∈ b.refs
  · rw [if_pos hb, if_pos (.inr hb)]
  · rw [if_neg hb]
    by_cases hx : n = x.1
    · rw [hx, Function.update_self, if_pos (.inl rfl)]
    · rw [Function.update_of_ne hx, if_neg (by simp [hx, hb])]

theorem discarded_node_nil (releases : Bool) (released : List δ) :
    (if releases then released ++ [x.2] else released) ++ discarded releases b =
      released ++ discarded releases (.node l .nil x b) := by
  cases releases <;> simp [discarded, toList]

theorem rotated_rounds :
    (MapNode.node l (.node k a x b) y c).clearingRounds =
      (MapNode.node k a x (.node l b y c)).clearingRounds + 1 := by
  simp only [clearingRounds, toList, List.length_append, List.length_cons]
  omega

/-- The loop removes every node of the tree, in order, in exactly its rounds. -/
theorem clearLoop_laid (releases : Bool) (ht : t.Laid h) (hnodup : t.refs.Nodup) (rounds : Nat)
    (released : List δ) :
    clearLoop releases rounds t.addr h released =
      if rounds < t.clearingRounds then .error .rounds
      else .ok (without h t, released ++ discarded releases t) := by
  induction rounds generalizing t h released with
  | zero =>
      cases t with
      | nil =>
          rw [discarded_nil, List.append_nil]
          rfl
      | node l a x b =>
          rw [if_pos (by rw [clearingRounds]; omega), addr_node, clearLoop, if_neg ht.1]
  | succ rounds ih =>
      cases t with
      | nil =>
          rw [discarded_nil, List.append_nil]
          rfl
      | node l s y c =>
          obtain ⟨hy, hcell, hs, hc⟩ := ht
          have hleft : h.link y.1 false = .ok s.addr := Nodes.link_eq hy hcell false
          rw [addr_node, clearLoop, if_neg hy, hleft]
          simp only [MapFault.ok_bind]
          cases s with
          | nil =>
              have hright : h.link y.1 true = .ok c.addr := Nodes.link_eq hy hcell true
              have hdata : h.data y.1 = .ok y.2 := Nodes.data_eq hy hcell
              obtain ⟨_, hcnodup, _, hyc, _⟩ := nodup_node.mp hnodup
              have hrest := ih (hc.update hyc none) hcnodup
                (if releases then released ++ [y.2] else released)
              have hrounds : rounds + 1 < (MapNode.node l .nil y c).clearingRounds ↔
                  rounds < c.clearingRounds := by
                simp only [clearingRounds, toList, List.length_nil]
                omega
              rw [without_node_nil (l := l), discarded_node_nil (l := l)] at hrest
              simp only [if_pos (show (MapNode.nil : MapNode (Entry δ)).addr = sentinal from rfl),
                hright, hdata, Nodes.free_eq hy hcell, MapFault.ok_bind, hrounds]
              exact hrest
          | node k a x b =>
              obtain ⟨h₁, h₂, hset₁, hset₂, hbecomes⟩ :=
                Nodes.rotate_laid ⟨hy, hcell, hs, hc⟩ hnodup
              have hinner : h.link x.1 true = .ok b.addr := Nodes.link_eq hs.1 hs.2.1 true
              have hrest := ih hbecomes.laid (hbecomes.nodup hnodup) released
              have hheap : without h₂ (.node k a x (.node l b y c)) =
                  without h (.node l (.node k a x b) y c) := by
                funext n
                simp only [without, hbecomes.refs]
                by_cases hn : n ∈ (MapNode.node l (.node k a x b) y c).refs
                · rw [if_pos hn, if_pos hn]
                · rw [if_neg hn, if_neg hn, hbecomes.other n hn]
              have hdiscarded : discarded releases (.node k a x (.node l b y c)) =
                  discarded releases (.node l (.node k a x b) y c) := by
                simp [discarded, toList]
              rw [hheap, hdiscarded, addr_node] at hrest
              simp only [addr_node, if_neg hs.1, hinner, hset₁, hset₂, MapFault.ok_bind,
                rotated_rounds, Nat.add_lt_add_iff_right]
              exact hrest

/-- `map_clear` frees the nodes and leaves the rest of the map alone. -/
theorem clear_eq (ht : m.Holds t) (rounds : Nat) :
    m.clear rounds =
      if rounds < t.clearingRounds then .error .rounds
      else .ok { m with
        nodes := without m.nodes t
        released := m.released ++ discarded m.releases t } := by
  rw [clear, ht.root, clearLoop_laid m.releases ht.laid ht.nodup]
  split <;> rfl

end NodeMap

end Casting
