import Casting.Framework.Refinement
import Casting.Queue
import Casting.Queue.Nodes
import Mathlib.Algebra.Group.Nat.Defs
import Mathlib.Data.List.Induction

/-!
# Queues of nodes are queues

The nodes of a queue hold a list, `tail` leads to the last of them, and what the functions of
`queue.c` return is what the list says.
-/

namespace Casting

open Refinement

variable {δ : Type}

/-! ## Lists -/

/-- What is kept of the data that is pushed: the data, or the copy of it. -/
def NodeQueue.Supply.element (copies : Bool) (supply : NodeQueue.Supply δ) (p : Option δ) :
    Option δ :=
  if copies then supply.copy.toOption else p

/-- A queue with all the elements that were passed to `rel`. -/
abbrev ReleasingQueue (δ : Type) := Queue δ × List δ

def ReleasingQueue.call (copies releases : Bool) (q : ReleasingQueue δ) :
    QueueCall δ → Option (ReleasingQueue δ × QueueResult δ)
  | .push supply p =>
      (supply.element copies p).map fun x => ((queuePush q.1 x, q.2), .code .success)
  | .pop => some (((queuePop q.1).2, q.2), .pointer (queuePop q.1).1)
  | .peek => some (q, .pointer q.1.head?)
  | .clear =>
      some (((queueClear q.1).1, q.2 ++ if releases then (queueClear q.1).2 else []),
        .code .success)

/-! ## Chains -/

/-- Where the tail of a queue leads: to the last node, or to the one in the queue. -/
def lastNode (ns : List (ℕ × Option δ)) : QTail :=
  match ns.getLast? with
  | none => .head
  | some n => .node n.1

theorem lastNode_concat (ns : List (ℕ × Option δ)) (n : ℕ × Option δ) :
    lastNode (ns ++ [n]) = .node n.1 := by
  simp [lastNode]

/-- The nodes from the head of the queue on hold just these elements. -/
structure NodeQueue.Holds (q : NodeQueue δ) (ns : List (ℕ × Option δ)) (xs : Queue δ) : Prop where
  linked : Chain.Linked q.nodes q.head.next ns
  data : ns.map Prod.snd = xs.map some
  tail : q.tail = lastNode ns
  size : q.size = BitVec.ofNat 32 xs.length

namespace NodeQueue

variable {q q' : NodeQueue δ} {ns : List (ℕ × Option δ)} {xs : Queue δ}

theorem holds_init (nodes : ℕ → Option (QNode δ)) (copies releases : Bool) :
    (init nodes copies releases).Holds [] queueNew where
  linked := rfl
  data := rfl
  tail := rfl
  size := rfl

theorem Holds.length_eq (h : q.Holds ns xs) : ns.length = xs.length := by
  have hlength := congrArg List.length h.data
  rwa [List.length_map, List.length_map] at hlength

theorem Holds.isempty_iff (h : q.Holds ns xs) : q.isempty = true ↔ xs.length = 0 := by
  rw [isempty, decide_eq_true_eq, h.tail, ← h.length_eq]
  cases ns using List.reverseRecOn with
  | nil => simp [lastNode]
  | append_singleton ns n => simp [lastNode_concat]

/-- The elements are counted in an `int`. -/
theorem Holds.count_eq_queueSize (h : q.Holds ns xs) : q.count = queueSize xs := by
  rw [count, h.size, queueSize]

theorem Holds.count_eq (h : q.Holds ns xs) (hsmall : xs.length < 2 ^ 31) :
    q.count = xs.length := by
  rw [h.count_eq_queueSize, queueSize_of_small hsmall]

theorem newNode_eq {supply : Supply δ} {p : Option δ} {x : δ} {n : ℕ} (hp : p ≠ none)
    (halloc : supply.alloc = some n) (hx : supply.element q.copies p = some x) :
    q.newNode supply p = some (Function.update q.nodes n (some ⟨none, some x⟩), n) := by
  obtain ⟨d, rfl⟩ := Option.ne_none_iff_exists'.mp hp
  rw [newNode, halloc]
  unfold Supply.element at hx
  cases hcopies : q.copies with
  | false =>
    rw [hcopies] at hx
    cases hx
    rfl
  | true =>
    rw [hcopies, if_pos rfl] at hx
    cases hcopy : supply.copy with
    | error err =>
      rw [hcopy] at hx
      cases hx
    | ok copy =>
      rw [hcopy] at hx
      cases hx
      rfl

theorem Holds.push (h : q.Holds ns xs) {supply : Supply δ} {p : Option δ} {x : δ} {n : ℕ}
    (hp : p ≠ none) (halloc : supply.alloc = some n) (hfresh : q.nodes n = none)
    (hx : supply.element q.copies p = some x) :
    ∃ q', q.push supply p = some (q', .success) ∧
      q'.Holds (ns ++ [(n, some x)]) (queuePush xs x) ∧ q'.copies = q.copies ∧
      q'.releases = q.releases ∧ q'.released = q.released := by
  have hdata : (ns ++ [(n, some x)]).map Prod.snd = (queuePush xs x).map some := by
    simp [queuePush, h.data]
  have hsize : q.size + 1 = BitVec.ofNat 32 (queuePush xs x).length := by
    rw [h.size, queuePush, List.length_append, List.length_singleton, BitVec.ofNat_add]
    rfl
  rw [NodeQueue.push, newNode_eq hp halloc hx]
  simp only [Option.bind_eq_bind, Option.bind_some, linkTail, h.tail]
  cases ns using List.reverseRecOn with
  | nil =>
    -- the chain starts with the new node
    refine ⟨_, rfl, ⟨?_, hdata, rfl, hsize⟩, rfl, rfl, rfl⟩
    exact ⟨rfl, none, Function.update_self .., rfl⟩
  | append_singleton ns m =>
    have hne : m.1 ≠ n := by
      rintro rfl
      exact h.linked.allocated (by simp) hfresh
    have hlast : Function.update q.nodes n (some ⟨none, some x⟩) m.1 = some ⟨none, m.2⟩ := by
      rw [Function.update_of_ne hne]
      exact h.linked.last
    simp only [lastNode_concat, hlast, Option.map_some, Option.bind_some]
    refine ⟨_, rfl, ⟨?_, hdata, ?_, hsize⟩, rfl, rfl, rfl⟩
    · have hsnoc := h.linked.snoc (y := some x) hfresh
      rw [List.append_assoc]
      exact hsnoc
    · exact (lastNode_concat (ns ++ [m]) (n, some x)).symm

theorem Holds.pop_nil (h : q.Holds ns []) : q.pop = some (q, none) := by
  have hns : ns = [] := List.length_eq_zero_iff.mp h.length_eq
  subst hns
  have hnext : q.head.next = none := h.linked
  rw [NodeQueue.pop, hnext]

theorem Holds.pop_cons {x : δ} (h : q.Holds ns (x :: xs)) :
    ∃ q' ns', q.pop = some (q', some x) ∧ q'.Holds ns' xs ∧ q'.copies = q.copies ∧
      q'.releases = q.releases ∧ q'.released = q.released := by
  cases ns with
  | nil => cases h.data
  | cons n ns =>
    obtain ⟨m, y⟩ := n
    obtain ⟨rfl, hdata⟩ := List.cons.inj h.data
    obtain ⟨next, hnext, hm, hrest⟩ := h.linked.tail
    rw [NodeQueue.pop, hnext]
    simp only [hm, Option.bind_eq_bind, Option.bind_some]
    refine ⟨_, ns, rfl, ⟨hrest, hdata, ?_, ?_⟩, rfl, rfl, rfl⟩
    · change (if q.tail = .node m then QTail.head else q.tail) = lastNode ns
      rw [h.tail]
      cases ns using List.reverseRecOn with
      | nil => simp [lastNode]
      | append_singleton ns k =>
        have hnodup := h.linked.nodup
        have hne : k.1 ≠ m := by
          rintro rfl
          simp at hnodup
        rw [← List.cons_append, lastNode_concat, lastNode_concat, if_neg]
        intro heq
        exact hne (QTail.node.inj heq)
    · change q.size - 1 = _
      rw [h.size, List.length_cons, BitVec.ofNat_add]
      exact BitVec.add_sub_cancel _ _

theorem Holds.peek (h : q.Holds ns xs) : q.peek = some xs.head? := by
  cases xs with
  | nil =>
    have hns : ns = [] := List.length_eq_zero_iff.mp h.length_eq
    subst hns
    have hnext : q.head.next = none := h.linked
    rw [NodeQueue.peek, hnext]
    rfl
  | cons x xs =>
    cases ns with
    | nil => cases h.data
    | cons n ns =>
      obtain ⟨hn, -⟩ := List.cons.inj h.data
      obtain ⟨hnext, next, hnode, -⟩ := h.linked
      rw [NodeQueue.peek, hnext]
      simp only [hnode, Option.map_some, hn, List.head?_cons]

theorem Holds.release (h : q.Holds ns xs) (x : δ) :
    (q.release x).Holds ns xs ∧ (q.release x).copies = q.copies ∧
      (q.release x).releases = q.releases ∧
      (q.release x).released = q.released ++ if q.releases then [x] else [] := by
  unfold NodeQueue.release
  cases hreleases : q.releases with
  | false => exact ⟨h, rfl, hreleases, (List.append_nil _).symm⟩
  | true => exact ⟨⟨h.linked, h.data, h.tail, h.size⟩, rfl, rfl, rfl⟩

/-- `queue_clear` ends when there is no element left. -/
theorem Holds.clear (h : q.Holds ns xs) {fuel : ℕ} (hfuel : xs.length < fuel) :
    ∃ q', NodeQueue.clear fuel q = some (q', .success) ∧ q'.Holds [] (queueClear xs).1 ∧
      q'.copies = q.copies ∧ q'.releases = q.releases ∧
      q'.released = q.released ++ if q.releases then (queueClear xs).2 else [] := by
  induction xs generalizing q ns fuel with
  | nil =>
    obtain ⟨fuel, rfl⟩ := Nat.exists_eq_succ_of_ne_zero (Nat.ne_of_gt hfuel)
    have hns : ns = [] := List.length_eq_zero_iff.mp h.length_eq
    subst hns
    refine ⟨q, ?_, h, rfl, rfl, by simp [queueClear]⟩
    simp only [NodeQueue.clear, h.pop_nil, Option.bind_eq_bind, Option.bind_some]
  | cons x xs ih =>
    obtain ⟨fuel, rfl⟩ := Nat.exists_eq_succ_of_ne_zero (Nat.ne_of_gt (Nat.zero_lt_of_lt hfuel))
    obtain ⟨q₁, ns₁, hpop, hholds, hcopies, hreleases, hreleased⟩ := h.pop_cons
    obtain ⟨hholds₂, hcopies₂, hreleases₂, hreleased₂⟩ := hholds.release x
    obtain ⟨q', hclear, hholds', hcopies', hreleases', hreleased'⟩ :=
      ih hholds₂ (Nat.lt_of_succ_lt_succ hfuel)
    refine ⟨q', ?_, hholds', ?_, ?_, ?_⟩
    · simp only [NodeQueue.clear, hpop, Option.bind_eq_bind, Option.bind_some]
      exact hclear
    · rw [hcopies', hcopies₂, hcopies]
    · rw [hreleases', hreleases₂, hreleases]
    · rw [hreleased', hreleased₂, hreleases₂, hreleases, hreleased, List.append_assoc]
      cases q.releases <;> rfl

/-! ## Calls -/

/-- A queue of nodes and a list with the same elements; the fuel is enough for the calls that
are still to come. -/
structure Tracks (copies releases : Bool) (fuel : ℕ) (q : NodeQueue δ) (m : ReleasingQueue δ)
    (calls : List (QueueCall δ)) : Prop where
  holds : ∃ ns, q.Holds ns m.1
  copies : q.copies = copies
  releases : q.releases = releases
  released : q.released = m.2
  fuel : m.1.length + calls.length < fuel

theorem tracks_call {copies releases : Bool} {fuel : ℕ} (q : NodeQueue δ) (m : ReleasingQueue δ)
    (c : QueueCall δ) (calls : List (QueueCall δ))
    (h : Tracks copies releases fuel q m (c :: calls)) (hsupplied : q.Supplied c) :
    ∃ q' r m', q.call fuel c = some (q', r) ∧
      ReleasingQueue.call copies releases m c = some (m', r) ∧
      Tracks copies releases fuel q' m' calls := by
  obtain ⟨⟨ns, hholds⟩, rfl, rfl, hreleased, hfuel⟩ := h
  obtain ⟨xs, released⟩ := m
  rw [List.length_cons] at hfuel
  change xs.length + (calls.length + 1) < fuel at hfuel
  change q.Holds ns xs at hholds
  cases c with
  | push supply p =>
    obtain ⟨hp, ⟨n, halloc, hfresh⟩, hcopy⟩ := hsupplied
    obtain ⟨x, hx⟩ : ∃ x, supply.element q.copies p = some x := by
      unfold Supply.element
      cases hcopies : q.copies with
      | false => exact Option.ne_none_iff_exists'.mp hp
      | true =>
        obtain ⟨copy, hcopy⟩ := hcopy hcopies
        exact ⟨copy, by rw [hcopy]; rfl⟩
    obtain ⟨q', hpush, hholds', hcopies', hreleases', hreleased'⟩ := hholds.push hp halloc hfresh hx
    refine ⟨q', .code .success, (queuePush xs x, released), by rw [NodeQueue.call, hpush]; rfl, ?_,
      ⟨_, hholds'⟩, hcopies', hreleases', hreleased'.trans hreleased, ?_⟩
    · simp only [ReleasingQueue.call, hx, Option.map_some]
    · rw [queuePush, List.length_append, List.length_singleton]
      omega
  | pop =>
    cases xs with
    | nil =>
      refine ⟨q, _, _, by rw [NodeQueue.call, hholds.pop_nil]; rfl, rfl,
        ⟨ns, hholds⟩, rfl, rfl, hreleased, ?_⟩
      exact Nat.lt_of_succ_lt hfuel
    | cons x xs =>
      obtain ⟨q', ns', hpop, hholds', hcopies', hreleases', hreleased'⟩ := hholds.pop_cons
      refine ⟨q', _, _, by rw [NodeQueue.call, hpop]; rfl, rfl,
        ⟨ns', hholds'⟩, hcopies', hreleases', hreleased'.trans hreleased, ?_⟩
      rw [List.length_cons] at hfuel
      simp only [queuePop_cons]
      omega
  | peek =>
    refine ⟨q, _, _, by rw [NodeQueue.call, hholds.peek]; rfl, rfl,
      ⟨ns, hholds⟩, rfl, rfl, hreleased, ?_⟩
    exact Nat.lt_of_succ_lt hfuel
  | clear =>
    have hends : xs.length < fuel := by omega
    obtain ⟨q', hclear, hholds', hcopies', hreleases', hreleased'⟩ := hholds.clear hends
    refine ⟨q', _, _, by rw [NodeQueue.call, hclear]; rfl, rfl,
      ⟨[], hholds'⟩, hcopies', hreleases', ?_, ?_⟩
    · rw [hreleased', hreleased]
    · change 0 + calls.length < fuel
      omega

theorem calls_refine {copies releases : Bool} {fuel : ℕ} {nodes : ℕ → Option (QNode δ)}
    {calls : List (QueueCall δ)} (hfuel : calls.length < fuel)
    (hsupplied : Allowed (call fuel) Supplied (init nodes copies releases) calls) :
    ∃ q xs released rs, results (call fuel) (init nodes copies releases) calls = some (q, rs) ∧
      results (ReleasingQueue.call copies releases) (queueNew, []) calls =
        some ((xs, released), rs) ∧
      (∃ ns, q.Holds ns xs) ∧ q.released = released := by
  have hinit : Tracks copies releases fuel (init nodes copies releases)
      (queueNew, ([] : List δ)) calls :=
    ⟨⟨[], holds_init nodes copies releases⟩, rfl, rfl, rfl, by simpa [queueNew] using hfuel⟩
  obtain ⟨q, rs, ⟨xs, released⟩, hresults, hpermits, htracks⟩ :=
    results_permitted tracks_call hinit hsupplied
  exact ⟨q, xs, released, rs, hresults, permits_iff_results.mp hpermits, htracks.holds,
    htracks.released⟩

/-! ### Many pushes -/

/-- `n` pushes, each with a node of its own from `start` on. -/
def pushes (start n : ℕ) : List (QueueCall ℕ) :=
  (List.range' start n).map fun i => .push ⟨some i, .error 0⟩ (some i)

theorem length_pushes (start n : ℕ) : (pushes start n).length = n := by
  simp [pushes]

theorem pushes_succ (start n : ℕ) :
    pushes start (n + 1) = .push ⟨some start, .error 0⟩ (some start) :: pushes (start + 1) n := by
  simp [pushes, List.range'_succ]

theorem allocated_push {q q' : NodeQueue ℕ} {rc : ReturnCode} {n d : ℕ}
    (hcopies : q.copies = false) (h : q.push ⟨some n, .error 0⟩ (some d) = some (q', rc)) :
    q'.copies = false ∧ ∀ i, q'.nodes i ≠ none → i = n ∨ q.nodes i ≠ none := by
  have hnode : q.newNode ⟨some n, .error 0⟩ (some d) =
      some (Function.update q.nodes n (some ⟨none, some d⟩), n) := by
    simp [newNode, hcopies]
  have hnew : ∀ i, Function.update q.nodes n (some ⟨none, some d⟩) i ≠ none →
      i = n ∨ q.nodes i ≠ none := by
    intro i hi
    by_cases hin : i = n
    · exact .inl hin
    · rw [Function.update_of_ne hin] at hi
      exact .inr hi
  rw [NodeQueue.push, hnode] at h
  simp only [Option.bind_eq_bind, Option.bind_some, linkTail] at h
  cases htail : q.tail with
  | head =>
    rw [htail] at h
    cases h
    exact ⟨hcopies, hnew⟩
  | node m =>
    rw [htail] at h
    obtain ⟨linked, hlinked, heq⟩ := Option.bind_eq_some_iff.mp h
    obtain ⟨node, hm, rfl⟩ := Option.map_eq_some_iff.mp hlinked
    cases heq
    refine ⟨hcopies, ?_⟩
    intro i hi
    by_cases him : i = m
    · subst him
      apply hnew
      rw [hm]
      exact Option.some_ne_none node
    · apply hnew
      simpa [Function.update_of_ne him] using hi

theorem allowed_pushes (fuel start n : ℕ) (q : NodeQueue ℕ) (hcopies : q.copies = false)
    (hfree : ∀ i, start ≤ i → q.nodes i = none) :
    Allowed (call fuel) Supplied q (pushes start n) := by
  induction n generalizing q start with
  | zero => trivial
  | succ n ih =>
    rw [pushes_succ]
    refine ⟨⟨Option.some_ne_none start, ⟨start, rfl, hfree start (Nat.le_refl start)⟩, ?_⟩, ?_⟩
    · intro hcopied
      rw [hcopies] at hcopied
      cases hcopied
    · intro next hnext
      obtain ⟨⟨q', rc⟩, hpush, rfl⟩ := Option.map_eq_some_iff.mp hnext
      obtain ⟨hcopies', hnodes⟩ := allocated_push hcopies hpush
      apply ih (start + 1) q' hcopies'
      intro i hi
      by_contra hne
      rcases hnodes i hne with heq | hold
      · omega
      · exact hold (hfree i (Nat.le_of_succ_le hi))

theorem length_of_pushes {start n : ℕ} {m m' : ReleasingQueue ℕ} {rs : List (QueueResult ℕ)}
    (h : results (ReleasingQueue.call false false) m (pushes start n) = some (m', rs)) :
    m'.1.length = m.1.length + n := by
  induction n generalizing start m rs with
  | zero =>
    cases h
    rfl
  | succ n ih =>
    rw [pushes_succ] at h
    obtain ⟨next, r, rest, hcall, hrest, -⟩ := results_cons_eq_some.mp h
    cases hcall
    have hlength := ih hrest
    rw [queuePush, List.length_append, List.length_singleton] at hlength
    omega

theorem size_pushes (n : ℕ) :
    ∃ q xs rs, results (call (n + 1)) (init (fun _ => none) false false) (pushes 0 n) =
        some (q, rs) ∧
      results (ReleasingQueue.call false false) (queueNew, []) (pushes 0 n) =
        some ((xs, q.released), rs) ∧
      xs.length = n ∧ q.size = BitVec.ofNat 32 n := by
  have hfuel : (pushes 0 n).length < n + 1 := by
    rw [length_pushes]
    exact Nat.lt_succ_self n
  obtain ⟨q, xs, released, rs, hresults, hlist, ⟨ns, hholds⟩, rfl⟩ :=
    calls_refine hfuel (allowed_pushes (n + 1) 0 n (init (fun _ => none) false false) rfl
      fun _ _ => rfl)
  have hlength : xs.length = n := by
    rw [length_of_pushes hlist]
    exact Nat.zero_add n
  refine ⟨q, xs, rs, hresults, hlist, hlength, ?_⟩
  rw [hholds.size, hlength]

end NodeQueue

/-- After any calls on a new queue, its nodes hold what a list with the same calls holds: the tail
is the last of them, the size is their number as far as an `int` counts it, the results have been
those of the list, and all that `queue_clear` popped was released in order. -/
theorem queue_refines_list {δ : Type} (nodes : ℕ → Option (QNode δ)) (copies releases : Bool)
    (q₀ : NodeQueue δ)
    (hnew : q₀ = NodeQueue.init nodes copies releases ∨
      NodeQueue.new true nodes copies releases = some q₀)
    (fuel : ℕ) (calls : List (QueueCall δ)) (hfuel : calls.length < fuel)
    (hsupplied : Allowed (NodeQueue.call fuel) NodeQueue.Supplied q₀ calls) :
    ∃ q xs rs, results (NodeQueue.call fuel) q₀ calls = some (q, rs) ∧
      results (ReleasingQueue.call copies releases) (queueNew, []) calls =
        some ((xs, q.released), rs) ∧
      (∃ ns, Chain.Linked q.nodes q.head.next ns ∧ ns.map Prod.snd = xs.map some ∧
        q.tail = lastNode ns) ∧
      (xs.length < 2 ^ 31 → q.count = xs.length) ∧
      (q.isempty = true ↔ xs.length = 0) := by
  obtain rfl : q₀ = NodeQueue.init nodes copies releases := by
    rcases hnew with hinit | hnew
    · exact hinit
    · exact (Option.some.inj hnew).symm
  obtain ⟨q, xs, released, rs, hresults, hlist, ⟨ns, hholds⟩, rfl⟩ :=
    NodeQueue.calls_refine hfuel hsupplied
  exact ⟨q, xs, rs, hresults, hlist, ⟨ns, hholds.linked, hholds.data, hholds.tail⟩,
    hholds.count_eq, hholds.isempty_iff⟩

/-- Two elements that are released, and one that is pushed where one of them was. -/
def clearedCalls : List (QueueCall ℕ) :=
  [.push ⟨some 0, .error 0⟩ (some 7), .push ⟨some 1, .error 0⟩ (some 8), .clear,
    .push ⟨some 1, .error 0⟩ (some 9), .pop]

theorem queue_refines_list_cleared :
    ∃ q xs rs,
      results (NodeQueue.call 6) (NodeQueue.init (fun _ => none) false true) clearedCalls =
        some (q, rs) ∧
      results (ReleasingQueue.call false true) (queueNew, []) clearedCalls =
        some ((xs, q.released), rs) ∧
      (∃ ns, Chain.Linked q.nodes q.head.next ns ∧ ns.map Prod.snd = xs.map some ∧
        q.tail = lastNode ns) ∧
      (xs.length < 2 ^ 31 → q.count = xs.length) ∧
      (q.isempty = true ↔ xs.length = 0) := by
  apply queue_refines_list (fun _ => none) false true (NodeQueue.init (fun _ => none) false true)
    (.inl rfl) 6 clearedCalls (by decide)
  refine .cons ⟨by decide, ⟨0, rfl, rfl⟩, nofun⟩ rfl ?_
  refine .cons ⟨by decide, ⟨1, rfl, rfl⟩, nofun⟩ rfl ?_
  refine .cons trivial rfl ?_
  refine .cons ⟨by decide, ⟨1, rfl, rfl⟩, nofun⟩ rfl ?_
  exact .cons trivial rfl trivial

/-- The counter of a queue of 2^31 elements is negative. -/
theorem queue_size_fails :
    ∃ q xs rs,
      results (NodeQueue.call (2 ^ 31 + 1)) (NodeQueue.init (fun _ => none) false false)
          (NodeQueue.pushes 0 (2 ^ 31)) = some (q, rs) ∧
        Allowed (NodeQueue.call (2 ^ 31 + 1)) NodeQueue.Supplied
          (NodeQueue.init (fun _ => none) false false) (NodeQueue.pushes 0 (2 ^ 31)) ∧
        results (ReleasingQueue.call false false) (queueNew, []) (NodeQueue.pushes 0 (2 ^ 31)) =
          some ((xs, q.released), rs) ∧
        q.count ≠ xs.length := by
  obtain ⟨q, xs, rs, hresults, hlist, hlength, hsize⟩ := NodeQueue.size_pushes (2 ^ 31)
  refine ⟨q, xs, rs, hresults, ?_, hlist, ?_⟩
  · exact NodeQueue.allowed_pushes _ _ _ _ rfl fun _ _ => rfl
  · have hcount : q.count = -2147483648 := by
      rw [NodeQueue.count, hsize]
      decide
    rw [hcount]
    omega

end Casting
