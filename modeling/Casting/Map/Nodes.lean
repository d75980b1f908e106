import Casting.Map.Removal
import Mathlib.Logic.Function.Basic

/-!
# The nodes of a map in memory

`map.c` with its nodes behind pointers.  The tree of a map is what can be reached from its root,
and an assignment to a link changes it for everybody who gets there.
-/

namespace Casting

/-- A `map_node_t *`. -/
abbrev NodeRef := Nat

/-- The static node `nil`.  It has level 0 and no data, and both of its links lead to itself. -/
def sentinal : NodeRef := 0

/-- An allocated `map_node_t`. -/
structure NodeCell (δ : Type) where
  level : ℤ
  data : δ
  left : NodeRef
  right : NodeRef
  deriving DecidableEq, Repr

/-- `link[dir]`. -/
def NodeCell.link {δ : Type} (dir : Bool) (c : NodeCell δ) : NodeRef :=
  match dir with
  | false => c.left
  | true => c.right

def NodeCell.setLink {δ : Type} (dir : Bool) (target : NodeRef) (c : NodeCell δ) : NodeCell δ :=
  match dir with
  | false => { c with left := target }
  | true => { c with right := target }

/-- What leaves the behaviour of a call undefined, and the end of the rounds that a loop without
a bound of its own is given. -/
inductive MapFault
  /-- The sentinel is written to, freed or taken for an entry. -/
  | sentinal
  /-- A node is used that is not allocated. -/
  | dangling
  /-- A path array is written behind its `HEIGHT_LIMIT` entries. -/
  | overrun
  /-- `dup` writes its copy through an element, taken for the place of one. -/
  | element
  | rounds
  deriving DecidableEq, Repr

namespace MapFault

variable {β γ : Type}

@[simp]
theorem ok_bind (x : β) (f : β → Except MapFault γ) : (.ok x >>= f) = f x := rfl

@[simp]
theorem error_bind (fault : MapFault) (f : β → Except MapFault γ) :
    (.error fault >>= f) = .error fault := rfl

@[simp]
theorem map_ok (x : β) (f : β → γ) :
    (Except.ok x : Except MapFault β).map f = .ok (f x) := rfl

theorem map_eq_ok {x : Except MapFault β} {f : β → γ} {y : γ} :
    x.map f = .ok y ↔ ∃ z, x = .ok z ∧ f z = y := by
  cases x with
  | error fault => simp [Except.map]
  | ok z => simp

end MapFault

/-- The nodes that are allocated. -/
abbrev Nodes (δ : Type) := NodeRef → Option (NodeCell δ)

namespace Nodes

variable {δ : Type}

def cell (h : Nodes δ) (n : NodeRef) : Except MapFault (NodeCell δ) :=
  match h n with
  | some c => .ok c
  | none => .error .dangling

/-! ### Reading and writing fields -/

def level (h : Nodes δ) (n : NodeRef) : Except MapFault ℤ :=
  if n = sentinal then .ok 0 else (h.cell n).map NodeCell.level

def link (h : Nodes δ) (n : NodeRef) (dir : Bool) : Except MapFault NodeRef :=
  if n = sentinal then .ok sentinal else (h.cell n).map (NodeCell.link dir)

def data (h : Nodes δ) (n : NodeRef) : Except MapFault δ :=
  if n = sentinal then .error .sentinal else (h.cell n).map NodeCell.data

def update (h : Nodes δ) (n : NodeRef) (f : NodeCell δ → NodeCell δ) :
    Except MapFault (Nodes δ) :=
  if n = sentinal then .error .sentinal
  else (h.cell n).map fun c => Function.update h n (some (f c))

def setLevel (h : Nodes δ) (n : NodeRef) (level : ℤ) : Except MapFault (Nodes δ) :=
  h.update n fun c => { c with level }

def setData (h : Nodes δ) (n : NodeRef) (data : δ) : Except MapFault (Nodes δ) :=
  h.update n fun c => { c with data }

def setLink (h : Nodes δ) (n : NodeRef) (dir : Bool) (target : NodeRef) :
    Except MapFault (Nodes δ) :=
  h.update n (NodeCell.setLink dir target)

/-- `lc_free`. -/
def free (h : Nodes δ) (n : NodeRef) : Except MapFault (Nodes δ) :=
  if n = sentinal then .error .sentinal
  else (h.cell n).map fun _ => Function.update h n none

/-! ### Rebalancing

The macros assign to the expression they are given only when they rotate.  They return what they
assign. -/

/-- `skew`: remove left horizontal links. -/
def skew (h : Nodes δ) (t : NodeRef) : Except MapFault (Nodes δ × Option NodeRef) := do
  let left ← h.link t false
  let leftLevel ← h.level left
  let level ← h.level t
  if leftLevel = level ∧ level ≠ 0 then
    let save := left
    let inner ← h.link save true
    let h ← h.setLink t false inner
    let h ← h.setLink save true t
    .ok (h, some save)
  else .ok (h, none)

/-- `split`: remove consecutive horizontal links. -/
def split (h : Nodes δ) (t : NodeRef) : Except MapFault (Nodes δ × Option NodeRef) := do
  let right ← h.link t true
  let outer ← h.link right true
  let outerLevel ← h.level outer
  let level ← h.level t
  if outerLevel = level ∧ level ≠ 0 then
    let save := right
    let inner ← h.link save false
    let h ← h.setLink t true inner
    let h ← h.setLink save false t
    let raised ← h.level save
    let h ← h.setLevel save (raised + 1)
    .ok (h, some save)
  else .ok (h, none)

/-- A macro on the link `up->link[1]`. -/
def onRight (rotate : Nodes δ → NodeRef → Except MapFault (Nodes δ × Option NodeRef))
    (h : Nodes δ) (up : NodeRef) : Except MapFault (Nodes δ) := do
  let right ← h.link up true
  match ← rotate h right with
  | (h, none) => .ok h
  | (h, some save) => h.setLink up true save

/-- A macro on a variable. -/
def onNode (rotate : Nodes δ → NodeRef → Except MapFault (Nodes δ × Option NodeRef))
    (h : Nodes δ) (up : NodeRef) : Except MapFault (Nodes δ × NodeRef) := do
  match ← rotate h up with
  | (h, none) => .ok (h, up)
  | (h, some save) => .ok (h, save)

/-- The rebalancing of one node in `map_insert`. -/
def fixInserted (h : Nodes δ) (up : NodeRef) : Except MapFault (Nodes δ × NodeRef) := do
  let (h, up) ← h.onNode skew up
  h.onNode split up

/-- The three `skew`s and the two `split`s of one rebalancing in `map_remove`. -/
def relink (h : Nodes δ) (up : NodeRef) : Except MapFault (Nodes δ × NodeRef) := do
  let (h, up) ← h.onNode skew up
  let h ← h.onRight skew up
  let right ← h.link up true
  let h ← h.onRight skew right
  let (h, up) ← h.onNode split up
  let h ← h.onRight split up
  .ok (h, up)

/-- `if ( t->level > bound ) t->level = bound`. -/
def lower (h : Nodes δ) (t : NodeRef) (bound : ℤ) : Except MapFault (Nodes δ) := do
  let level ← h.level t
  if bound < level then h.setLevel t bound else .ok h

/-- The rebalancing of one node in `map_remove`. -/
def fixRemoved (h : Nodes δ) (up : NodeRef) : Except MapFault (Nodes δ × NodeRef) := do
  let left ← h.link up false
  let leftLevel ← h.level left
  let right ← h.link up true
  let rightLevel ← h.level right
  let level ← h.level up
  if leftLevel < level - 1 ∨ rightLevel < level - 1 then
    let h ← h.setLevel up (level - 1)
    let h ← h.lower right (level - 1)
    h.relink up
  else .ok (h, up)

end Nodes

end Casting
