import Casting.Map.Balance
import Mathlib.Data.List.Basic

/-!
# Trees with a hole

A path array names the nodes above a subtree.  With what hangs off them to the other side they
are frames, from which the tree is built up again.  The walks back of `map_insert` and
`map_remove` mend every tree on the way.
-/

namespace Casting

variable {α β : Type*}

/-- A node without the subtree at `link[0]` or at `link[1]`. -/
inductive Frame (α : Type*)
  | left (level : ℤ) (data : α) (right : MapNode α)
  | right (level : ℤ) (left : MapNode α) (data : α)

namespace Frame

def fill : Frame α → MapNode α → MapNode α
  | .left level x b, t => .node level t x b
  | .right level a x, t => .node level a x t

def data : Frame α → α
  | .left _ x _ => x
  | .right _ _ x => x

def level : Frame α → ℤ
  | .left level _ _ => level
  | .right level _ _ => level

def sibling : Frame α → MapNode α
  | .left _ _ b => b
  | .right _ a _ => a

def dir : Frame α → Bool
  | .left _ _ _ => false
  | .right _ _ _ => true

end Frame

namespace MapNode

/-- Apply `f` to every tree from a subtree up; the innermost frame comes first. -/
def climb (f : MapNode α → MapNode α) (fs : List (Frame α)) (t : MapNode α) : MapNode α :=
  fs.foldl (fun t fr => f (fr.fill t)) t

def plug (fs : List (Frame α)) (t : MapNode α) : MapNode α := climb id fs t

def before : List (Frame α) → List α
  | [] => []
  | .left _ _ _ :: fs => before fs
  | .right _ a x :: fs => before fs ++ (a.toList ++ [x])

def behind : List (Frame α) → List α
  | [] => []
  | .left _ x b :: fs => x :: b.toList ++ behind fs
  | .right _ _ _ :: fs => behind fs

/-- The mending of one tree in `map_insert`. -/
def fixInserted (t : MapNode α) : MapNode α := split (skew t)

@[simp]
theorem climb_nil (f : MapNode α → MapNode α) (t : MapNode α) : climb f [] t = t := rfl

@[simp]
theorem climb_cons (f : MapNode α → MapNode α) (fr : Frame α) (fs : List (Frame α))
    (t : MapNode α) : climb f (fr :: fs) t = climb f fs (f (fr.fill t)) := rfl

theorem climb_append (f : MapNode α → MapNode α) (fs gs : List (Frame α)) (t : MapNode α) :
    climb f (fs ++ gs) t = climb f gs (climb f fs t) := List.foldl_append

@[simp]
theorem plug_nil (t : MapNode α) : plug [] t = t := rfl

@[simp]
theorem plug_cons (fr : Frame α) (fs : List (Frame α)) (t : MapNode α) :
    plug (fr :: fs) t = plug fs (fr.fill t) := rfl

theorem plug_append (fs gs : List (Frame α)) (t : MapNode α) :
    plug (fs ++ gs) t = plug gs (plug fs t) := climb_append id fs gs t

@[simp]
theorem toList_fixInserted (t : MapNode α) : (fixInserted t).toList = t.toList := by
  rw [fixInserted, toList_split, toList_skew]

theorem toList_climb {f : MapNode α → MapNode α} (hf : ∀ t, (f t).toList = t.toList)
    (fs : List (Frame α)) (t : MapNode α) :
    (climb f fs t).toList = before fs ++ t.toList ++ behind fs := by
  induction fs generalizing t with
  | nil => simp [before, behind]
  | cons fr fs ih =>
      rw [climb_cons, ih, hf]
      cases fr <;> simp [Frame.fill, toList, before, behind]

theorem toList_plug (fs : List (Frame α)) (t : MapNode α) :
    (plug fs t).toList = before fs ++ t.toList ++ behind fs :=
  toList_climb (fun _ => rfl) fs t

theorem height_plug (fs : List (Frame α)) (t : MapNode α) :
    fs.length + t.height ≤ (plug fs t).height := by
  induction fs generalizing t with
  | nil => simp
  | cons fr fs ih =>
      have hfill : t.height + 1 ≤ (fr.fill t).height := by
        cases fr <;> simp only [Frame.fill, height] <;> omega
      have := ih (fr.fill t)
      rw [plug_cons, List.length_cons]
      omega

/-! ### The searches -/

section Seek

variable {cmp : α → α → ℤ} {data x : α} {level : ℤ} {a b t : MapNode α}

/-- The frames above the node that a search for `data` stops at, and the tree there. -/
def seek (cmp : α → α → ℤ) (data : α) :
    List (Frame α) → MapNode α → List (Frame α) × MapNode α
  | fs, .nil => (fs, .nil)
  | fs, .node level a x b =>
      if cmp x data = 0 then (fs, .node level a x b)
      else if cmp x data < 0 then seek cmp data (.right level a x :: fs) b
      else seek cmp data (.left level x b :: fs) a

theorem plug_seek (fs : List (Frame α)) (t : MapNode α) :
    plug (seek cmp data fs t).1 (seek cmp data fs t).2 = plug fs t := by
  induction t generalizing fs with
  | nil => rfl
  | node level a x b iha ihb =>
      rw [seek]
      split
      · rfl
      · split
        · rw [ihb]
          rfl
        · rw [iha]
          rfl

theorem find_of_seek {fs gs : List (Frame α)}
    (h : seek cmp data fs t = (gs, .node level a x b)) :
    t.find cmp data = some x ∧ cmp x data = 0 := by
  induction t generalizing fs with
  | nil => cases h
  | node l c y d ihc ihd =>
      rw [seek] at h
      rw [find]
      split at h
      · rename_i heq
        cases h
        exact ⟨if_pos heq, heq⟩
      · rename_i hne
        rw [if_neg hne]
        split at h
        · rename_i hlt
          rw [if_pos hlt]
          exact ihd h
        · rename_i hle
          rw [if_neg hle]
          exact ihc h

theorem find_of_seek_nil {fs gs : List (Frame α)} (h : seek cmp data fs t = (gs, .nil)) :
    t.find cmp data = none := by
  induction t generalizing fs with
  | nil => rfl
  | node l c y d ihc ihd =>
      rw [seek] at h
      rw [find]
      split at h
      · cases h
      · rename_i hne
        rw [if_neg hne]
        split at h
        · rename_i hlt
          rw [if_pos hlt]
          exact ihd h
        · rename_i hle
          rw [if_neg hle]
          exact ihc h

theorem seek_of_find (h : t.find cmp data = some x) :
    ∃ fs level a b, seek cmp data [] t = (fs, .node level a x b) ∧
      plug fs (.node level a x b) = t := by
  have hplug : plug (seek cmp data [] t).1 (seek cmp data [] t).2 = t := plug_seek [] t
  cases hseek : seek cmp data [] t with
  | mk fs s =>
      rw [hseek] at hplug
      cases s with
      | nil =>
          rw [find_of_seek_nil hseek] at h
          cases h
      | node level a y b =>
          rw [(find_of_seek hseek).1] at h
          cases h
          exact ⟨fs, level, a, b, rfl, hplug⟩

theorem seek_of_not_find (hne : t ≠ .nil) (h : t.find cmp data = none) :
    ∃ fr fs, seek cmp data [] t = (fr :: fs, .nil) ∧ plug (fr :: fs) .nil = t := by
  have hplug : plug (seek cmp data [] t).1 (seek cmp data [] t).2 = t := plug_seek [] t
  cases hseek : seek cmp data [] t with
  | mk fs s =>
      rw [hseek] at hplug
      cases s with
      | node level a y b =>
          rw [(find_of_seek hseek).1] at h
          cases h
      | nil =>
          cases fs with
          | nil => exact (hne hplug.symm).elim
          | cons fr fs => exact ⟨fr, fs, rfl, hplug⟩

theorem climb_attach {fs gs : List (Frame α)} {leaf : MapNode α}
    (h : seek cmp data fs t = (gs, .nil)) :
    climb fixInserted fs (t.attach cmp data leaf) = climb fixInserted gs leaf := by
  induction t generalizing fs with
  | nil =>
      cases h
      rfl
  | node l c y d ihc ihd =>
      rw [seek] at h
      rw [attach]
      split at h
      · cases h
      · split at h
        · rename_i hlt
          rw [if_pos hlt, ← ihd h]
          rfl
        · rename_i hle
          rw [if_neg hle, ← ihc h]
          rfl

theorem climb_remove {fs gs : List (Frame α)}
    (h : seek cmp data fs t = (gs, .node level a x b)) :
    climb rebalance fs (t.remove cmp data) = climb rebalance gs (unlink level a b) := by
  induction t generalizing fs with
  | nil => cases h
  | node l c y d ihc ihd =>
      rw [seek] at h
      rw [remove]
      split at h
      · rename_i heq
        cases h
        rw [if_pos heq]
      · rename_i hne
        rw [if_neg hne]
        split at h
        · rename_i hlt
          rw [if_pos hlt, ← ihd h]
          rfl
        · rename_i hle
          rw [if_neg hle, ← ihc h]
          rfl

theorem plug_overwrite {fs gs : List (Frame α)}
    (h : seek cmp data fs t = (gs, .node level a x b)) :
    plug fs (t.overwrite cmp data) = plug gs (.node level a data b) := by
  induction t generalizing fs with
  | nil => cases h
  | node l c y d ihc ihd =>
      rw [seek] at h
      rw [overwrite]
      split at h
      · rename_i heq
        cases h
        rw [if_pos heq]
      · rename_i hne
        rw [if_neg hne]
        split at h
        · rename_i hlt
          rw [if_pos hlt, ← ihd h]
          rfl
        · rename_i hle
          rw [if_neg hle, ← ihc h]
          rfl

theorem length_attach (leaf : MapNode α) (t : MapNode α) :
    (t.attach cmp data leaf).toList.length = t.toList.length + leaf.toList.length := by
  induction t with
  | nil => simp [attach, toList]
  | node l c y d ihc ihd =>
      rw [attach]
      split
      · simp only [toList_split, toList_skew, toList, List.length_append, List.length_cons, ihd]
        omega
      · simp only [toList_split, toList_skew, toList, List.length_append, List.length_cons, ihc]
        omega

theorem length_remove (h : t.find cmp data = some x) :
    (t.remove cmp data).toList.length + 1 = t.toList.length := by
  obtain ⟨before, after, hlist, hremoved⟩ := toList_remove h
  rw [hlist, hremoved, List.length_append, List.length_append, List.length_cons]
  omega

/-- The frames above the last node on one side, and the tree there. -/
def outermost (dir : Bool) : List (Frame α) → MapNode α → List (Frame α) × MapNode α
  | fs, .nil => (fs, .nil)
  | fs, .node level a x b =>
      match dir with
      | false =>
          if a.isNil then (fs, .node level a x b) else outermost dir (.left level x b :: fs) a
      | true =>
          if b.isNil then (fs, .node level a x b) else outermost dir (.right level a x :: fs) b

theorem isNil_iff : t.isNil ↔ t = .nil := by
  cases t <;> simp [isNil]

theorem plug_outermost (dir : Bool) (fs : List (Frame α)) (t : MapNode α) :
    plug (outermost dir fs t).1 (outermost dir fs t).2 = plug fs t := by
  induction t generalizing fs with
  | nil => rfl
  | node level a x b iha ihb =>
      cases dir
      · rw [outermost]
        split
        · rfl
        · rw [iha]
          rfl
      · rw [outermost]
        split
        · rfl
        · rw [ihb]
          rfl

theorem outermost_append (dir : Bool) (fs gs : List (Frame α)) (t : MapNode α) :
    outermost dir (fs ++ gs) t = ((outermost dir fs t).1 ++ gs, (outermost dir fs t).2) := by
  induction t generalizing fs with
  | nil => rfl
  | node level a x b iha ihb =>
      cases dir
      · simp only [outermost]
        split
        · rfl
        · exact iha (.left level x b :: fs)
      · simp only [outermost]
        split
        · rfl
        · exact ihb (.right level a x :: fs)

theorem outermost_dir {dir : Bool} {fs : List (Frame α)} (hfs : ∀ fr ∈ fs, fr.dir = dir)
    (t : MapNode α) : ∀ fr ∈ (outermost dir fs t).1, fr.dir = dir := by
  induction t generalizing fs with
  | nil => exact hfs
  | node level a x b iha ihb =>
      cases dir
      · rw [outermost]
        split
        · exact hfs
        · exact iha (List.forall_mem_cons.mpr ⟨rfl, hfs⟩)
      · rw [outermost]
        split
        · exact hfs
        · exact ihb (List.forall_mem_cons.mpr ⟨rfl, hfs⟩)

theorem length_outermost_left (fs : List (Frame α)) (t : MapNode α) :
    (outermost false fs t).1.length = fs.length + (t.leastPath - 1) := by
  induction t generalizing fs with
  | nil => rfl
  | node level a x b iha _ =>
      rw [outermost, leastPath]
      split
      · rename_i hnil
        rw [isNil_iff.mp hnil]
        rfl
      · rename_i hnil
        have hpos : 0 < a.leastPath := by
          cases a with
          | nil => exact (hnil rfl).elim
          | node => simp only [leastPath]; omega
        rw [iha, List.length_cons]
        omega

/-- The path of `map_remove` behind the node that it finds leads to the heir. -/
theorem removePath_of_seek {fs gs : List (Frame α)}
    (h : seek cmp data fs t = (gs, .node level a x b)) :
    t.removePath cmp data =
      t.searchPath cmp data + if a.isNil then 0 else b.leastPath - 1 := by
  induction t generalizing fs with
  | nil => cases h
  | node l c y d ihc ihd =>
      rw [seek] at h
      rw [removePath, searchPath]
      split at h
      · rename_i heq
        cases h
        rw [if_pos heq, if_pos heq]
      · rename_i hne
        rw [if_neg hne, if_neg hne]
        split at h
        · rename_i hlt
          rw [if_pos hlt, if_pos hlt, ihd h, Nat.add_assoc]
        · rename_i hle
          rw [if_neg hle, if_neg hle, ihc h, Nat.add_assoc]

/-- The heir is the last node to the left, and its second subtree takes its place. -/
theorem takeHeir_outermost (fs : List (Frame α)) (ht : t ≠ .nil) :
    ∃ gs l y c rest, outermost false fs t = (gs, .node l .nil y c) ∧
      t.takeHeir = some (y, rest) ∧ climb rebalance fs rest = climb rebalance gs c := by
  induction t generalizing fs with
  | nil => exact (ht rfl).elim
  | node level a x b iha _ =>
      by_cases ha : a = .nil
      · subst ha
        exact ⟨fs, level, x, b, b, rfl, rfl, rfl⟩
      · obtain ⟨gs, l, y, c, rest, hends, htaken, hclimb⟩ := iha (.left level x b :: fs) ha
        refine ⟨gs, l, y, c, rebalance (.node level rest x b), ?_, ?_, hclimb⟩
        · rw [outermost, if_neg (mt isNil_iff.mp ha)]
          exact hends
        · rw [takeHeir, htaken]

end Seek

/-! ### The shape of a tree

Mending looks at the levels only. -/

section Relabel

variable {g : α → β}

def relabel (g : α → β) : MapNode α → MapNode β
  | .nil => .nil
  | .node level a x b => .node level (a.relabel g) (g x) (b.relabel g)

end Relabel

end MapNode

def Frame.relabel (g : α → β) : Frame α → Frame β
  | .left level x b => .left level (g x) (b.relabel g)
  | .right level a x => .right level (a.relabel g) (g x)

namespace MapNode

section Relabel

variable {g : α → β}

theorem length_relabel (t : MapNode α) : (t.relabel g).toList.length = t.toList.length := by
  induction t with
  | nil => rfl
  | node level a x b iha ihb =>
      simp only [relabel, toList, List.length_append, List.length_cons, iha, ihb]

@[simp]
theorem level_relabel (t : MapNode α) : (t.relabel g).level = t.level := by
  cases t <;> rfl

theorem skew_relabel (t : MapNode α) : (t.relabel g).skew = t.skew.relabel g := by
  cases t with
  | nil => rfl
  | node level a x b =>
      cases a with
      | nil => rfl
      | node l c y d =>
          simp only [relabel, skew]
          split <;> rfl

theorem split_relabel (t : MapNode α) : (t.relabel g).split = t.split.relabel g := by
  cases t with
  | nil => rfl
  | node level a x b =>
      cases b with
      | nil => rfl
      | node l c y d =>
          simp only [relabel, split, level_relabel]
          split <;> rfl

theorem onRight_relabel {f : MapNode α → MapNode α} {f' : MapNode β → MapNode β}
    (hf : ∀ t : MapNode α, f' (t.relabel g) = (f t).relabel g) (t : MapNode α) :
    (t.relabel g).onRight f' = (t.onRight f).relabel g := by
  cases t with
  | nil => rfl
  | node level a x b => simp only [relabel, onRight, hf]

theorem lower_relabel (bound : ℤ) (t : MapNode α) :
    (t.relabel g).lower bound = (t.lower bound).relabel g := by
  cases t with
  | nil => rfl
  | node level a x b =>
      simp only [relabel, lower]
      split <;> rfl

theorem relink_relabel (t : MapNode α) : (t.relabel g).relink = t.relink.relabel g := by
  simp only [relink, skew_relabel, split_relabel, onRight_relabel skew_relabel,
    onRight_relabel (onRight_relabel skew_relabel), onRight_relabel split_relabel]

theorem rebalance_relabel (t : MapNode α) : (t.relabel g).rebalance = t.rebalance.relabel g := by
  cases t with
  | nil => rfl
  | node level a x b =>
      simp only [relabel, rebalance, level_relabel]
      split
      · rw [← relink_relabel, relabel, lower_relabel]
      · rfl

theorem climb_relabel {f : MapNode α → MapNode α} {f' : MapNode β → MapNode β}
    (hf : ∀ t : MapNode α, f' (t.relabel g) = (f t).relabel g) (fs : List (Frame α))
    (t : MapNode α) :
    climb f' (fs.map (Frame.relabel g)) (t.relabel g) = (climb f fs t).relabel g := by
  induction fs generalizing t with
  | nil => rfl
  | cons fr fs ih =>
      have hfill : (fr.relabel g).fill (t.relabel g) = (fr.fill t).relabel g := by
        cases fr <;> rfl
      rw [List.map_cons, climb_cons, hfill, hf, ih, climb_cons]

theorem climb_relabel_congr {f : MapNode α → MapNode α} {f' : MapNode β → MapNode β}
    (hf : ∀ t : MapNode α, f' (t.relabel g) = (f t).relabel g) {fs gs : List (Frame α)}
    (hfs : fs.map (Frame.relabel g) = gs.map (Frame.relabel g)) {s t : MapNode α}
    (hst : s.relabel g = t.relabel g) :
    (climb f fs s).relabel g = (climb f gs t).relabel g := by
  rw [← climb_relabel hf, hfs, hst, climb_relabel hf]

theorem plug_relabel_congr (fs : List (Frame α)) {s t : MapNode α}
    (hst : s.relabel g = t.relabel g) : (plug fs s).relabel g = (plug fs t).relabel g := by
  have hid : ∀ t : MapNode α, id (t.relabel g) = (id t).relabel g := fun _ => rfl
  exact climb_relabel_congr hid rfl hst

theorem balanced_relabel_iff {n : Nat} {t : MapNode α} :
    Balanced n (t.relabel g) ↔ Balanced n t := by
  constructor
  · intro h
    generalize hs : t.relabel g = s at h
    induction h generalizing t with
    | nil =>
        cases t with
        | nil => exact .nil
        | node => cases hs
    | two x ha hb iha ihb =>
        cases t with
        | nil => cases hs
        | node l a y b =>
            cases hs
            exact .two y (iha rfl) (ihb rfl)
    | three x y ha hb hc iha ihb ihc =>
        cases t with
        | nil => cases hs
        | node l a z t =>
            cases t with
            | nil => cases hs
            | node l b w c =>
                cases hs
                exact .three z w (iha rfl) (ihb rfl) (ihc rfl)
  · intro h
    induction h with
    | nil => exact .nil
    | two x _ _ iha ihb => exact .two (g x) iha ihb
    | three x y _ _ _ iha ihb ihc => exact .three (g x) (g y) iha ihb ihc

theorem Balanced.of_relabel {n : Nat} {s t : MapNode α} (ht : Balanced n t)
    (hst : s.relabel g = t.relabel g) : Balanced n s := by
  rw [← balanced_relabel_iff (g := g), hst]
  exact balanced_relabel_iff.mpr ht

end Relabel

theorem Balanced.left_eq_nil {n : Nat} {l : ℤ} {a b : MapNode α} {x : α}
    (h : Balanced n (.node l a x b)) (hb : b = .nil) : a = .nil := by
  cases h with
  | two _ hp hq => exact hp.eq_nil_iff.mpr (hq.eq_nil_iff.mp hb)
  | three => cases hb

theorem Balanced.of_plug {n : Nat} {fs : List (Frame α)} {t : MapNode α}
    (h : Balanced n (plug fs t)) : ∃ m, Balanced m t := by
  induction fs generalizing t with
  | nil => exact ⟨n, h⟩
  | cons fr fs ih =>
      obtain ⟨m, hfill⟩ := ih h
      cases fr with
      | left level x b =>
          cases hfill with
          | two _ ha _ => exact ⟨_, ha⟩
          | three _ _ ha _ _ => exact ⟨_, ha⟩
      | right level a x => exact hfill.right_balanced

/-! ### Levels -/

def Positive : MapNode α → Prop
  | .nil => True
  | .node level a _ b => 0 < level ∧ a.Positive ∧ b.Positive

section Positive

variable {t : MapNode α}

theorem Positive.level_nonneg (h : t.Positive) : 0 ≤ t.level := by
  cases t with
  | nil => exact le_refl 0
  | node => exact le_of_lt h.1

theorem Positive.skew (h : t.Positive) : t.skew.Positive := by
  cases t with
  | nil => trivial
  | node level a x b =>
      cases a with
      | nil => exact h
      | node l c y d =>
          rw [MapNode.skew]
          split
          · exact ⟨h.2.1.1, h.2.1.2.1, h.1, h.2.1.2.2, h.2.2⟩
          · exact h

theorem Positive.split (h : t.Positive) : t.split.Positive := by
  cases t with
  | nil => trivial
  | node level a x b =>
      cases b with
      | nil => exact h
      | node l c y d =>
          rw [MapNode.split]
          split
          · exact ⟨by have := h.2.2.1; omega, ⟨h.1, h.2.1, h.2.2.2.1⟩, h.2.2.2.2⟩
          · exact h

theorem Positive.onRight {f : MapNode α → MapNode α}
    (hf : ∀ t : MapNode α, t.Positive → (f t).Positive) (h : t.Positive) :
    (t.onRight f).Positive := by
  cases t with
  | nil => trivial
  | node level a x b => exact ⟨h.1, h.2.1, hf b h.2.2⟩

theorem Positive.relink (h : t.Positive) : t.relink.Positive :=
  ((((h.skew.onRight fun _ => skew).onRight fun _ => onRight fun _ => skew).split).onRight
    fun _ => split)

theorem Positive.lower {bound : ℤ} (hb : 0 < bound) (h : t.Positive) :
    (t.lower bound).Positive := by
  cases t with
  | nil => trivial
  | node level a x b =>
      rw [MapNode.lower]
      split
      · exact ⟨hb, h.2⟩
      · exact h

theorem Positive.rebalance (h : t.Positive) : t.rebalance.Positive := by
  cases t with
  | nil => trivial
  | node level a x b =>
      rw [MapNode.rebalance]
      split
      · rename_i hlow
        have ha := h.2.1.level_nonneg
        have hb := h.2.2.level_nonneg
        have hpos : 0 < level - 1 := by omega
        exact Positive.relink ⟨hpos, h.2.1, h.2.2.lower hpos⟩
      · exact h

theorem Balanced.positive {n : Nat} (h : Balanced n t) : t.Positive := by
  induction h with
  | nil => trivial
  | two x _ _ iha ihb => exact ⟨by omega, iha, ihb⟩
  | three x y _ _ _ iha ihb ihc => exact ⟨by omega, iha, by omega, ihb, ihc⟩

theorem Positive.of_plug {fs : List (Frame α)} (h : (plug fs t).Positive) : t.Positive := by
  induction fs generalizing t with
  | nil => exact h
  | cons fr fs ih =>
      have hfill := ih h
      cases fr with
      | left => exact hfill.2.1
      | right => exact hfill.2.2

theorem Positive.plug_congr {s : MapNode α} {fs : List (Frame α)} (h : (plug fs t).Positive)
    (hs : s.Positive) : (plug fs s).Positive := by
  induction fs generalizing s t with
  | nil => exact hs
  | cons fr fs ih =>
      have hfill : (fr.fill t).Positive := Positive.of_plug h
      apply ih h
      cases fr with
      | left => exact ⟨hfill.1, hs, hfill.2.2⟩
      | right => exact ⟨hfill.1, hfill.2.1, hs⟩

end Positive

end MapNode

end Casting
