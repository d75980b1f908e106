import Casting.Error
import Casting.Framework.Chain

/-!
# The nodes of a queue in memory

The functions of `queue.c` on a queue that is there, with its nodes behind pointers.  The chain
starts at the node in the queue itself, to which `tail` leads as long as there is no other.  What
`lc_alloc` and the `copy` callback do in a call is given with the call; `released` records the
elements that were passed to `rel`.  Writing through `NULL` or to a freed node has no outcome.
-/

namespace Casting

/-- `q_node_t`; the data `none` is `NULL`. -/
abbrev QNode (δ : Type) := Chain.Node ℕ (Option δ)

/-- The node in the queue itself, or an allocated one. -/
inductive QTail
  | head
  | node (n : ℕ)
  deriving DecidableEq, Repr

/-- `queue_t`; `copies` and `releases` tell whether there is a `copy` and a `rel`. -/
structure NodeQueue (δ : Type) where
  nodes : ℕ → Option (QNode δ)
  head : QNode δ
  tail : QTail
  copies : Bool
  releases : Bool
  size : BitVec 32
  released : List δ

namespace NodeQueue

variable {δ : Type}

/-- `queue_init`. -/
def init (nodes : ℕ → Option (QNode δ)) (copies releases : Bool) : NodeQueue δ where
  nodes := nodes
  head := ⟨none, none⟩
  tail := .head
  copies := copies
  releases := releases
  size := 0
  released := []

/-- `queue_new`, which sets the same fields, if `lc_alloc` succeeds. -/
def new (alloc : Bool) (nodes : ℕ → Option (QNode δ)) (copies releases : Bool) :
    Option (NodeQueue δ) :=
  if alloc then some (init nodes copies releases) else none

/-- The environment of a `queue_push`: the node that `lc_alloc` gives, and the copy that `copy`
makes or the code that it fails with. -/
structure Supply (δ : Type) where
  alloc : Option ℕ
  copy : Except ℤ δ

/-- `new_node`, which writes to the node also where there is none any more. -/
def newNode (q : NodeQueue δ) (supply : Supply δ) (data : Option δ) :
    Option ((ℕ → Option (QNode δ)) × ℕ) :=
  match supply.alloc with
  | none => none
  | some n =>
      let node (data : Option δ) : QNode δ := ⟨none, data⟩
      match data with
      | some d =>
          if q.copies then
            match supply.copy with
            | .ok copy => some (Function.update q.nodes n (some (node (some copy))), n)
            | .error _ => none
          else some (Function.update q.nodes n (some (node (some d))), n)
      | none => some (Function.update q.nodes n (some (node none)), n)

/-- `q->tail->next = n`. -/
def linkTail (q : NodeQueue δ) (n : ℕ) : Option (NodeQueue δ) :=
  match q.tail with
  | .head => some { q with head := { q.head with next := some n } }
  | .node m =>
      (q.nodes m).map fun node =>
        { q with nodes := Function.update q.nodes m (some { node with next := some n }) }

/-- `queue_push`. -/
def push (q : NodeQueue δ) (supply : Supply δ) (p : Option δ) :
    Option (NodeQueue δ × ReturnCode) := do
  let (nodes, n) ← q.newNode supply p
  let q ← linkTail { q with nodes } n
  some ({ q with tail := .node n, size := q.size + 1 }, .success)

/-- `queue_pop`. -/
def pop (q : NodeQueue δ) : Option (NodeQueue δ × Option δ) :=
  match q.head.next with
  | none => some (q, none)
  | some n => do
      let node ← q.nodes n
      some
        ({ q with
            tail := if q.tail = .node n then .head else q.tail
            head := { q.head with next := node.next }
            nodes := Function.update q.nodes n none
            size := q.size - 1 },
          node.data)

/-- `queue_peek`. -/
def peek (q : NodeQueue δ) : Option (Option δ) :=
  match q.head.next with
  | none => some none
  | some n => (q.nodes n).map Chain.Node.data

/-- `q->rel ? q->rel(d) : (void) 0`. -/
def release (q : NodeQueue δ) (d : δ) : NodeQueue δ :=
  if q.releases then { q with released := q.released ++ [d] } else q

/-- `queue_clear`, whose loop ends with the first `NULL` that is popped. -/
def clear : ℕ → NodeQueue δ → Option (NodeQueue δ × ReturnCode)
  | 0, _ => none
  | fuel + 1, q => do
      let (q, d) ← q.pop
      match d with
      | none => some (q, .success)
      | some d => clear fuel (q.release d)

/-- `queue_isempty`. -/
def isempty (q : NodeQueue δ) : Bool := q.tail = .head

/-- What `queue_size` returns. -/
def count (q : NodeQueue δ) : ℤ := q.size.toInt

end NodeQueue

/-! ## Calls -/

inductive QueueCall (δ : Type)
  | push (supply : NodeQueue.Supply δ) (p : Option δ)
  | pop
  | peek
  | clear

inductive QueueResult (δ : Type)
  | code (rc : ReturnCode)
  | pointer (p : Option δ)

namespace NodeQueue

variable {δ : Type}

/-- One call on a queue, with what it returns. -/
def call (fuel : ℕ) (q : NodeQueue δ) : QueueCall δ → Option (NodeQueue δ × QueueResult δ)
  | .push supply p => (q.push supply p).map fun r => (r.1, .code r.2)
  | .pop => q.pop.map fun r => (r.1, .pointer r.2)
  | .peek => q.peek.map fun p => (q, .pointer p)
  | .clear => (clear fuel q).map fun r => (r.1, .code r.2)

/-- A push of something, for which there are a node that is not in use and a copy. -/
def Supplied (q : NodeQueue δ) : QueueCall δ → Prop
  | .push supply p =>
      p ≠ none ∧ (∃ n, supply.alloc = some n ∧ q.nodes n = none) ∧
        (q.copies = true → ∃ copy, supply.copy = .ok copy)
  | _ => True

end NodeQueue

end Casting
