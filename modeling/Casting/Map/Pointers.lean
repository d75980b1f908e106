import Casting.Map.Nodes

/-!
# The functions of a map on its nodes

The functions of `map.c` on nodes in memory.  What `lc_alloc` and the `dup` callback do in a call
is given with the call; `released` records the elements that were passed to `rel`.  A path array is
a list with its last entry first, beside the number of entries that are still free.
-/

namespace Casting

/-- `map_t`; `copies` and `releases` tell whether there is a `dup` and a `rel`. -/
structure NodeMap (δ : Type) where
  nodes : Nodes δ
  root : NodeRef
  cmp : δ → δ → ℤ
  copies : Bool
  releases : Bool
  size : ℤ
  released : List δ

/-- A path array: its entries, the last one first. -/
abbrev NodePath := List NodeRef

namespace NodeMap

variable {δ : Type}

def init (nodes : Nodes δ) (cmp : δ → δ → ℤ) (copies releases : Bool) : NodeMap δ where
  nodes := nodes
  root := sentinal
  cmp := cmp
  copies := copies
  releases := releases
  size := 0
  released := []

/-- `ERR_INVAL` and `ERR_NOMEM` as numbers. -/
def invalid : ℤ := ReturnCode.errInval.toInt
def noMemory : ℤ := ReturnCode.errNoMem.toInt

/-- The environment of a `map_insert`: the node that `lc_alloc` gives, and the copy that `dup`
makes or the code that it fails with. -/
structure Supply (δ : Type) where
  alloc : Option NodeRef
  copy : Except ℤ δ

/-- `lc_alloc` gives a node that is not in use. -/
def Supply.Fresh (supply : Supply δ) (h : Nodes δ) : Prop :=
  ∀ n ∈ supply.alloc, n ≠ sentinal ∧ h n = none

/-- `new_node`.  Where `dup` fails, the node is freed again. -/
def newNode (m : NodeMap δ) (supply : Supply δ) (data : δ) : Except ℤ (Nodes δ × NodeRef) :=
  match supply.alloc with
  | none => .error noMemory
  | some n =>
      let node (data : δ) : NodeCell δ := ⟨1, data, sentinal, sentinal⟩
      if m.copies then
        match supply.copy with
        | .ok copy => .ok (Function.update m.nodes n (some (node copy)), n)
        | .error err => .error err
      else .ok (Function.update m.nodes n (some (node data)), n)

/-! ### Insertion -/

/-- Where the search of `map_insert` ends. -/
inductive Spot
  | found (node : NodeRef)
  | place (node : NodeRef) (dir : Bool) (path : NodePath)

/-- The search of `map_insert`.  The path ends with the node that it stops at. -/
def spot (cmp : δ → δ → ℤ) (h : Nodes δ) (data : δ) :
    Nat → NodeRef → NodePath → Except MapFault Spot
  | 0, _, _ => .error .overrun
  | room + 1, node, path => do
      let x ← h.data node
      if cmp x data = 0 then .ok (.found node)
      else
        let dir : Bool := cmp x data < 0
        let next ← h.link node dir
        if next = sentinal then .ok (.place node dir (node :: path))
        else spot cmp h data room next (node :: path)

/-- The walk back of `map_insert` and `map_remove`. -/
def walkBack (fix : Nodes δ → NodeRef → Except MapFault (Nodes δ × NodeRef)) :
    NodePath → NodeMap δ → Except MapFault (NodeMap δ)
  | [], m => .ok m
  | [up], m => do
      let (h, up) ← fix m.nodes up
      .ok { m with nodes := h, root := up }
  | up :: parent :: path, m => do
      let right ← m.nodes.link parent true
      let (h, top) ← fix m.nodes up
      let h ← h.setLink parent (right = up) top
      walkBack fix (parent :: path) { m with nodes := h }

/-- A key that is there: `rel` gets the old element before it is replaced. -/
def replace (m : NodeMap δ) (supply : Supply δ) (data : δ) (node : NodeRef) :
    Except MapFault (NodeMap δ × ℤ) := do
  let old ← m.nodes.data node
  let released := if m.releases then m.released ++ [old] else m.released
  if m.copies then
    match supply.copy with
    | .ok _ => .error .element
    | .error err =>
        let h ← m.nodes.free node
        .ok ({ m with nodes := h, released }, err)
  else
    let h ← m.nodes.setData node data
    .ok ({ m with nodes := h, released }, m.size)

/-- `map_insert`, with the number that it returns.  The data `none` is `NULL`. -/
def insert (m : NodeMap δ) (supply : Supply δ) :
    Option δ → Except MapFault (NodeMap δ × ℤ)
  | none => .ok (m, invalid)
  | some data =>
      if m.root = sentinal then
        match m.newNode supply data with
        | .error err => .ok (m, err)
        | .ok (h, n) =>
            .ok ({ m with nodes := h, root := n, size := m.size + 1 }, m.size + 1)
      else do
        match ← spot m.cmp m.nodes data heightLimit m.root [] with
        | .found node => m.replace supply data node
        | .place node dir path =>
            match m.newNode supply data with
            | .error err => .ok (m, err)
            | .ok (h, n) =>
                let h ← h.setLink node dir n
                let m ← walkBack Nodes.fixInserted path { m with nodes := h }
                .ok ({ m with size := m.size + 1 }, m.size + 1)

/-! ### Removal -/

/-- The node that the search of `map_remove` finds, with the direction of the last step and the
path before the node. -/
structure Hit where
  node : NodeRef
  dir : Bool
  path : NodePath
  room : Nat

/-- The search of `map_remove`, which saves the sentinel too. -/
def hit (cmp : δ → δ → ℤ) (h : Nodes δ) (data : δ) :
    Nat → NodeRef → Bool → NodePath → Except MapFault (Option Hit)
  | 0, _, _, _ => .error .overrun
  | room + 1, node, dir, path =>
      if node = sentinal then .ok none
      else do
        let x ← h.data node
        if cmp x data = 0 then .ok (some ⟨node, dir, path, room⟩)
        else
          let dir : Bool := cmp x data < 0
          let next ← h.link node dir
          hit cmp h data room next dir (node :: path)

/-- The search for the heir: the heir, the node before it and the path to that node. -/
def heir (h : Nodes δ) : Nat → NodeRef → NodeRef → NodePath →
    Except MapFault (NodeRef × NodeRef × NodePath)
  | room, node, prev, path => do
      let left ← h.link node false
      if left = sentinal then .ok (node, prev, path)
      else
        match room with
        | 0 => .error .overrun
        | room + 1 => heir h room left node (node :: path)

/-- Take a found node with a missing child out of the tree.  At the root its right child takes
its place. -/
def unlinkSingle (m : NodeMap δ) (found : Hit) : Except MapFault (NodeMap δ) := do
  let left ← m.nodes.link found.node false
  let child ← m.nodes.link found.node (left = sentinal)
  let m ← match found.path with
    | [] => do
        let right ← m.nodes.link found.node true
        .ok { m with root := right }
    | parent :: _ => do
        let h ← m.nodes.setLink parent found.dir child
        .ok { m with nodes := h }
  let h ← m.nodes.free found.node
  .ok { m with nodes := h }

/-- Move the element of the heir into a found node with two children, and free the heir.  The
path to walk back comes with the map. -/
def unlinkHeir (m : NodeMap δ) (found : Hit) : Except MapFault (NodeMap δ × NodePath) := do
  let right ← m.nodes.link found.node true
  let (node, prev, path) ←
    heir m.nodes found.room right found.node (found.node :: found.path)
  let x ← m.nodes.data node
  let h ← m.nodes.setData found.node x
  let next ← h.link node true
  let h ← h.setLink prev (prev = found.node) next
  let h ← h.free node
  .ok ({ m with nodes := h }, path)

/-- `map_remove`.  The size is counted down for an empty map too, and not for a key that the
search misses. -/
def remove (m : NodeMap δ) : Option δ → Except MapFault (NodeMap δ × Option δ)
  | none => .ok (m, none)
  | some data =>
      if m.root = sentinal then .ok ({ m with size := m.size - 1 }, none)
      else do
        match ← hit m.cmp m.nodes data heightLimit m.root false [] with
        | none => .ok (m, none)
        | some found =>
            let ret ← m.nodes.data found.node
            let left ← m.nodes.link found.node false
            let right ← m.nodes.link found.node true
            let (m, path) ←
              if left = sentinal ∨ right = sentinal then do
                let m ← m.unlinkSingle found
                .ok (m, found.path)
              else m.unlinkHeir found
            let m ← walkBack Nodes.fixRemoved path m
            .ok ({ m with size := m.size - 1 }, some ret)

/-! ### Destruction -/

/-- The loop of `map_clear`: rotate right, or remove a node without a left child. -/
def clearLoop (releases : Bool) : Nat → NodeRef → Nodes δ → List δ →
    Except MapFault (Nodes δ × List δ)
  | rounds, it, h, released =>
      if it = sentinal then .ok (h, released)
      else
        match rounds with
        | 0 => .error .rounds
        | rounds + 1 => do
            let left ← h.link it false
            if left = sentinal then
              let save ← h.link it true
              let x ← h.data it
              let h ← h.free it
              clearLoop releases rounds save h (if releases then released ++ [x] else released)
            else
              let save := left
              let inner ← h.link save true
              let h ← h.setLink it false inner
              let h ← h.setLink save true it
              clearLoop releases rounds save h released

/-- `map_clear`.  It leaves `root` and `size` as they are. -/
def clear (m : NodeMap δ) (rounds : Nat) : Except MapFault (NodeMap δ) := do
  let (h, released) ← clearLoop m.releases rounds m.root m.nodes m.released
  .ok { m with nodes := h, released }

/-! ### Searching and visiting -/

/-- The loop of `map_find`. -/
def findLoop (cmp : δ → δ → ℤ) (h : Nodes δ) (data : δ) :
    Nat → NodeRef → Except MapFault (Option δ)
  | rounds, it =>
      if it = sentinal then .ok none
      else
        match rounds with
        | 0 => .error .rounds
        | rounds + 1 => do
            let x ← h.data it
            if cmp x data = 0 then .ok (some x)
            else
              let next ← h.link it (cmp x data < 0)
              findLoop cmp h data rounds next

/-- `map_find`. -/
def find (m : NodeMap δ) (rounds : Nat) : Option δ → Except MapFault (Option δ)
  | none => .ok none
  | some data => findLoop m.cmp m.nodes data rounds m.root

/-- `anode_ordered`: the elements that `fn` is called with, to a depth of recursion. -/
def orderedFrom (h : Nodes δ) : Nat → NodeRef → Except MapFault (List δ)
  | depth, node =>
      if node = sentinal then .ok []
      else
        match depth with
        | 0 => .error .rounds
        | depth + 1 => do
            let left ← h.link node false
            let before ← orderedFrom h depth left
            let x ← h.data node
            let right ← h.link node true
            let after ← orderedFrom h depth right
            .ok (before ++ x :: after)

/-- `map_ordered`. -/
def ordered (m : NodeMap δ) (depth : Nat) : Except MapFault (List δ) :=
  orderedFrom m.nodes depth m.root

/-! ### Cursors -/

/-- `map_cursor_t` on a map; `top` is the number of entries of `path`. -/
structure Cursor where
  it : NodeRef
  path : NodePath
  deriving DecidableEq, Repr

/-- What a cursor gives: the data of its node, `NULL` at the sentinel. -/
def Cursor.value (cur : Cursor) (h : Nodes δ) : Except MapFault (Option δ) :=
  if cur.it = sentinal then .ok none else (h.data cur.it).map some

/-- The loops that go down one side, with the number of free entries of `path`. -/
def slide (h : Nodes δ) (dir : Bool) : Nat → NodeRef → NodePath → Except MapFault Cursor
  | room, it, path => do
      let next ← h.link it dir
      if next = sentinal then .ok ⟨it, path⟩
      else
        match room with
        | 0 => .error .overrun
        | room + 1 => slide h dir room next (it :: path)

/-- `start`. -/
def start (m : NodeMap δ) (dir : Bool) : Except MapFault Cursor :=
  if m.root = sentinal then .ok ⟨m.root, []⟩ else slide m.nodes dir heightLimit m.root []

/-- The loop of `move` that goes up until it comes from the other side. -/
def ascend (h : Nodes δ) (dir : Bool) : NodeRef → NodePath → Except MapFault Cursor
  | _, [] => .ok ⟨sentinal, []⟩
  | last, it :: path => do
      let next ← h.link it dir
      if last = next then ascend h dir it path else .ok ⟨it, path⟩

/-- `move`. -/
def move (m : NodeMap δ) (cur : Cursor) (dir : Bool) : Except MapFault Cursor := do
  let next ← m.nodes.link cur.it dir
  if next = sentinal then ascend m.nodes dir cur.it cur.path
  else
    match heightLimit - cur.path.length with
    | 0 => .error .overrun
    | room + 1 => slide m.nodes (!dir) room next (cur.it :: cur.path)

/-- `map_first` or `map_last`, and a sequence of `map_next` and `map_prev`. -/
def travel (m : NodeMap δ) (dir : Bool) (dirs : List Bool) : Except MapFault Cursor := do
  let cur ← m.start dir
  dirs.foldlM m.move cur

end NodeMap

end Casting
