import Casting.Map.Frames
import Casting.Map.Pointers

/-!
# Trees in memory

A tree whose elements say which node they are kept at is laid out in memory when every such node
holds its level, its data and the links to its subtrees.  No node is used twice, so a rotation
changes one place of the tree only.
-/

namespace Casting

variable {δ : Type}

/-- An element and the node it is kept at. -/
abbrev Entry (δ : Type) := NodeRef × δ

namespace MapNode

def addr : MapNode (Entry δ) → NodeRef
  | .nil => sentinal
  | .node _ _ x _ => x.1

def refs (t : MapNode (Entry δ)) : List NodeRef := t.toList.map Prod.fst

def Laid (h : Nodes δ) : MapNode (Entry δ) → Prop
  | .nil => True
  | .node level a x b =>
      x.1 ≠ sentinal ∧ h x.1 = some ⟨level, x.2, a.addr, b.addr⟩ ∧ a.Laid h ∧ b.Laid h

end MapNode

/-! ## One node -/

namespace Nodes

variable {h : Nodes δ} {n : NodeRef} {c : NodeCell δ}

theorem level_eq (hn : n ≠ sentinal) (hc : h n = some c) : h.level n = .ok c.level := by
  rw [level, if_neg hn, cell, hc]
  rfl

theorem link_eq (hn : n ≠ sentinal) (hc : h n = some c) (dir : Bool) :
    h.link n dir = .ok (c.link dir) := by
  rw [link, if_neg hn, cell, hc]
  rfl

theorem data_eq (hn : n ≠ sentinal) (hc : h n = some c) : h.data n = .ok c.data := by
  rw [data, if_neg hn, cell, hc]
  rfl

theorem update_eq (hn : n ≠ sentinal) (hc : h n = some c) (f : NodeCell δ → NodeCell δ) :
    h.update n f = .ok (Function.update h n (some (f c))) := by
  rw [update, if_neg hn, cell, hc]
  rfl

theorem free_eq (hn : n ≠ sentinal) (hc : h n = some c) :
    h.free n = .ok (Function.update h n none) := by
  rw [free, if_neg hn, cell, hc]
  rfl

@[simp]
theorem level_sentinal : h.level sentinal = .ok 0 := rfl

@[simp]
theorem link_sentinal (dir : Bool) : h.link sentinal dir = .ok sentinal := rfl

end Nodes

namespace MapNode

variable {h h' h'' : Nodes δ} {level : ℤ} {a b t t' t'' : MapNode (Entry δ)} {x : Entry δ}

@[simp]
theorem addr_node : (MapNode.node level a x b).addr = x.1 := rfl

@[simp]
theorem refs_nil : (.nil : MapNode (Entry δ)).refs = [] := rfl

@[simp]
theorem refs_node : (MapNode.node level a x b).refs = a.refs ++ x.1 :: b.refs := by
  simp [refs, toList]

theorem refs_of_toList (ht : t'.toList = t.toList) : t'.refs = t.refs := by
  rw [refs, ht, refs]

theorem nodup_node : (MapNode.node level a x b).refs.Nodup ↔
    a.refs.Nodup ∧ b.refs.Nodup ∧ x.1 ∉ a.refs ∧ x.1 ∉ b.refs ∧ ∀ n ∈ a.refs, n ∉ b.refs := by
  rw [refs_node, List.nodup_append, List.nodup_cons]
  constructor
  · intro ⟨ha, ⟨hx, hb⟩, hab⟩
    refine ⟨ha, hb, ?_, hx, ?_⟩
    · intro hxa
      exact hab _ hxa _ List.mem_cons_self rfl
    · intro n hna hnb
      exact hab n hna n (List.mem_cons_of_mem _ hnb) rfl
  · intro ⟨ha, hb, hxa, hx, hab⟩
    refine ⟨ha, ⟨hx, hb⟩, ?_⟩
    rintro n hn m hm rfl
    rcases List.mem_cons.mp hm with rfl | hm
    · exact hxa hn
    · exact hab n hn hm

theorem addr_mem (ht : t ≠ .nil) : t.addr ∈ t.refs := by
  cases t with
  | nil => exact (ht rfl).elim
  | node level a x b => simp [addr]

theorem Laid.kept (ht : t.Laid h) {n : NodeRef} (hn : n ∈ t.refs) :
    n ≠ sentinal ∧ ∃ c, h n = some c := by
  induction t with
  | nil => simp at hn
  | node level a x b iha ihb =>
      rw [refs_node, List.mem_append, List.mem_cons] at hn
      rcases hn with hn | rfl | hn
      · exact iha ht.2.2.1 hn
      · exact ⟨ht.1, _, ht.2.1⟩
      · exact ihb ht.2.2.2 hn

theorem Laid.ne_sentinal (ht : t.Laid h) {n : NodeRef} (hn : n ∈ t.refs) : n ≠ sentinal :=
  (ht.kept hn).1

theorem Laid.live (ht : t.Laid h) {n : NodeRef} (hn : n ∈ t.refs) : h n ≠ none := by
  obtain ⟨_, c, hc⟩ := ht.kept hn
  rw [hc]
  exact Option.some_ne_none c

theorem Laid.addr_eq_sentinal (ht : t.Laid h) : t.addr = sentinal ↔ t = .nil := by
  cases t with
  | nil => exact iff_of_true rfl rfl
  | node level a x b => exact iff_of_false ht.1 (by simp)

theorem Laid.congr (ht : t.Laid h) (heq : ∀ n ∈ t.refs, h' n = h n) : t.Laid h' := by
  induction t with
  | nil => trivial
  | node level a x b iha ihb =>
      simp only [refs_node, List.mem_append, List.mem_cons] at heq
      obtain ⟨hx, hcell, ha, hb⟩ := ht
      refine ⟨hx, ?_, iha ha fun n hn => heq n (.inl hn), ihb hb fun n hn => heq n (.inr (.inr hn))⟩
      rw [heq x.1 (.inr (.inl rfl)), hcell]

theorem Laid.update (ht : t.Laid h) {n : NodeRef} (hn : n ∉ t.refs)
    (c : Option (NodeCell δ)) : t.Laid (Function.update h n c) := by
  apply ht.congr
  intro m hm
  apply Function.update_of_ne
  rintro rfl
  exact hn hm

theorem Laid.level_addr (ht : t.Laid h) : h.level t.addr = .ok t.level := by
  cases t with
  | nil => rfl
  | node level a x b => exact Nodes.level_eq ht.1 ht.2.1

theorem Laid.link_right (ht : t.Laid h) : h.link t.addr true = .ok t.right.addr := by
  cases t with
  | nil => rfl
  | node level a x b => exact Nodes.link_eq ht.1 ht.2.1 true

/-! ## A tree becomes another one -/

/-- The memory of a tree is changed so that it holds another tree of the same nodes. -/
structure Becomes (h h' : Nodes δ) (t t' : MapNode (Entry δ)) : Prop where
  laid : t'.Laid h'
  refs : t'.refs = t.refs
  other : ∀ n ∉ t.refs, h' n = h n

theorem Laid.becomes (ht : t.Laid h) : Becomes h h t t := ⟨ht, rfl, fun _ _ => rfl⟩

theorem Becomes.nodup (hb : Becomes h h' t t') (hnodup : t.refs.Nodup) : t'.refs.Nodup := by
  rw [hb.refs]
  exact hnodup

theorem Becomes.trans (h₁ : Becomes h h' t t') (h₂ : Becomes h' h'' t' t'') :
    Becomes h h'' t t'' where
  laid := h₂.laid
  refs := h₂.refs.trans h₁.refs
  other n hn := by
    rw [h₂.other n (by rw [h₁.refs]; exact hn), h₁.other n hn]

theorem Becomes.right (ht : (MapNode.node level a x b).Laid h)
    (hnodup : (MapNode.node level a x b).refs.Nodup) {b' : MapNode (Entry δ)}
    (hb : Becomes h h' b b') (haddr : b'.addr = b.addr) :
    Becomes h h' (.node level a x b) (.node level a x b') := by
  obtain ⟨_, _, _, hxb, hab⟩ := nodup_node.mp hnodup
  obtain ⟨hx, hcell, ha, _⟩ := ht
  refine ⟨⟨hx, ?_, ?_, hb.laid⟩, ?_, ?_⟩
  · rw [hb.other _ hxb, hcell, haddr]
  · exact ha.congr fun n hn => hb.other n (hab n hn)
  · simp [hb.refs]
  · intro n hn
    apply hb.other
    simp only [refs_node, List.mem_append, List.mem_cons, not_or] at hn
    exact hn.2.2

theorem Becomes.setRight (ht : (MapNode.node level a x b).Laid h)
    (hnodup : (MapNode.node level a x b).refs.Nodup) {b' : MapNode (Entry δ)}
    (hb : Becomes h h' b b') :
    ∃ h'', h'.setLink x.1 true b'.addr = .ok h'' ∧
      Becomes h h'' (.node level a x b) (.node level a x b') := by
  obtain ⟨_, _, hxa, hxb, hab⟩ := nodup_node.mp hnodup
  obtain ⟨hx, hcell, ha, _⟩ := ht
  have hcell' : h' x.1 = some ⟨level, x.2, a.addr, b.addr⟩ := by rw [hb.other _ hxb, hcell]
  refine ⟨_, Nodes.update_eq hx hcell' _, ⟨hx, ?_, ?_, ?_⟩, ?_, ?_⟩
  · rw [Function.update_self]
    rfl
  · exact (ha.congr fun n hn => hb.other n (hab n hn)).update hxa _
  · exact hb.laid.update (by rw [hb.refs]; exact hxb) _
  · simp [hb.refs]
  · intro n hn
    simp only [refs_node, List.mem_append, List.mem_cons, not_or] at hn
    rw [Function.update_of_ne hn.2.1, hb.other n hn.2.2]

end MapNode

/-! ## The macros -/

namespace Nodes

open MapNode

variable {h : Nodes δ} {t : MapNode (Entry δ)}

/-- A macro computes a function on trees. -/
def Rotates (rotate : Nodes δ → NodeRef → Except MapFault (Nodes δ × Option NodeRef))
    (f : MapNode (Entry δ) → MapNode (Entry δ)) : Prop :=
  ∀ (h : Nodes δ) (t : MapNode (Entry δ)), t.Laid h → t.refs.Nodup →
    ∃ h' save, rotate h t.addr = .ok (h', save) ∧ Becomes h h' t (f t) ∧
      save.getD t.addr = (f t).addr ∧ (t = .nil → save = none)

theorem rotate_laid {h : Nodes δ} {k l : ℤ} {a b c : MapNode (Entry δ)} {x y : Entry δ}
    (ht : (MapNode.node l (.node k a x b) y c).Laid h)
    (hnodup : (MapNode.node l (.node k a x b) y c).refs.Nodup) :
    ∃ h₁ h₂, h.setLink y.1 false b.addr = .ok h₁ ∧ h₁.setLink x.1 true y.1 = .ok h₂ ∧
      Becomes h h₂ (.node l (.node k a x b) y c) (.node k a x (.node l b y c)) := by
  obtain ⟨hleft, _, hyleft, hyc, hdisjoint⟩ := nodup_node.mp hnodup
  obtain ⟨_, _, hxa, hxb, _⟩ := nodup_node.mp hleft
  obtain ⟨hy, hcell, ⟨hx, hcell₀, ha, hb⟩, hc⟩ := ht
  simp only [refs_node, List.mem_append, List.mem_cons, not_or] at hyleft hdisjoint
  have hxy : x.1 ≠ y.1 := fun heq => hyleft.2.1 heq.symm
  have hxc : x.1 ∉ c.refs := hdisjoint x.1 (.inr (.inl rfl))
  have hcell₁ : Function.update h y.1 (some (NodeCell.setLink false b.addr
      ⟨l, y.2, x.1, c.addr⟩)) x.1 = some ⟨k, x.2, a.addr, b.addr⟩ := by
    rw [Function.update_of_ne hxy, hcell₀]
  refine ⟨_, _, update_eq hy hcell _, update_eq hx hcell₁ _,
    ⟨⟨hx, ?_, ?_, hy, ?_, ?_, ?_⟩, ?_, ?_⟩⟩
  · exact Function.update_self ..
  · exact (ha.update hyleft.1 _).update hxa _
  · rw [Function.update_of_ne hxy.symm, Function.update_self]
    rfl
  · exact (hb.update hyleft.2.2 _).update hxb _
  · exact (hc.update hyc _).update hxc _
  · simp
  · intro n hn
    simp only [refs_node, List.mem_append, List.mem_cons, not_or] at hn
    rw [Function.update_of_ne hn.1.2.1, Function.update_of_ne hn.2.1]

theorem rotates_skew : Rotates (δ := δ) skew MapNode.skew := by
  intro h t ht hnodup
  cases t with
  | nil => exact ⟨h, none, rfl, Laid.becomes trivial, rfl, fun _ => rfl⟩
  | node level s y c =>
      obtain ⟨hy, hcell, hs, hc⟩ := ht
      have hlink : h.link y.1 false = .ok s.addr := link_eq hy hcell false
      have hlevel : h.level y.1 = .ok level := level_eq hy hcell
      cases s with
      | nil =>
          have hkept : ¬ ((0 : ℤ) = level ∧ level ≠ 0) := by omega
          refine ⟨h, none, ?_, Laid.becomes ⟨hy, hcell, hs, hc⟩, rfl, by simp⟩
          simp only [skew, addr, hlink, hlevel, MapFault.ok_bind, level_sentinal, if_neg hkept]
      | node l a x b =>
          have hlevel₀ : h.level x.1 = .ok l := level_eq hs.1 hs.2.1
          have hinner : h.link x.1 true = .ok b.addr := link_eq hs.1 hs.2.1 true
          rw [addr_node] at hlink
          simp only [skew, addr_node, hlink, hlevel, hlevel₀, MapFault.ok_bind, MapNode.skew]
          by_cases hflat : l = level ∧ level ≠ 0
          · obtain ⟨h₁, h₂, hset₁, hset₂, hbecomes⟩ := rotate_laid ⟨hy, hcell, hs, hc⟩ hnodup
            simp only [if_pos hflat, hinner, MapFault.ok_bind, hset₁, hset₂]
            exact ⟨h₂, some x.1, rfl, hbecomes, rfl, by simp⟩
          · simp only [if_neg hflat]
            exact ⟨h, none, rfl, Laid.becomes ⟨hy, hcell, hs, hc⟩, rfl, fun _ => rfl⟩

theorem rotates_split : Rotates (δ := δ) split MapNode.split := by
  intro h t ht hnodup
  cases t with
  | nil => exact ⟨h, none, rfl, Laid.becomes trivial, rfl, fun _ => rfl⟩
  | node level a x s =>
      obtain ⟨hx, hcell, ha, hs⟩ := ht
      have hlink : h.link x.1 true = .ok s.addr := link_eq hx hcell true
      have hlevel : h.level x.1 = .ok level := level_eq hx hcell
      cases s with
      | nil =>
          have hkept : ¬ ((0 : ℤ) = level ∧ level ≠ 0) := by omega
          refine ⟨h, none, ?_, Laid.becomes ⟨hx, hcell, ha, hs⟩, rfl, by simp⟩
          simp only [split, addr, hlink, hlevel, MapFault.ok_bind, link_sentinal, level_sentinal,
            if_neg hkept]
      | node l b y c =>
          obtain ⟨hy, hcell₀, hb, hc⟩ := hs
          rw [addr_node] at hlink hcell
          have houter : h.link y.1 true = .ok c.addr := link_eq hy hcell₀ true
          simp only [split, addr_node, hlink, hlevel, houter, hc.level_addr, MapFault.ok_bind,
            MapNode.split]
          by_cases hflat : c.level = level ∧ level ≠ 0
          · obtain ⟨_, hright, hxa, hxright, hdisjoint⟩ := nodup_node.mp hnodup
            obtain ⟨_, _, hyb, hyc, hbc⟩ := nodup_node.mp hright
            simp only [refs_node, List.mem_append, List.mem_cons, not_or] at hxright hdisjoint
            have hyx : y.1 ≠ x.1 := fun heq => hxright.2.1 heq.symm
            have hya : y.1 ∉ a.refs := fun hya => (hdisjoint y.1 hya).2.1 rfl
            have hinner : h.link y.1 false = .ok b.addr := link_eq hy hcell₀ false
            have hcell₁ : Function.update h x.1 (some (NodeCell.setLink true b.addr
                ⟨level, x.2, a.addr, y.1⟩)) y.1 = some ⟨l, y.2, b.addr, c.addr⟩ := by
              rw [Function.update_of_ne hyx, hcell₀]
            simp only [if_pos hflat, hinner, MapFault.ok_bind, setLink, update_eq hx hcell,
              update_eq hy hcell₁, level_eq hy (Function.update_self ..), setLevel,
              update_eq hy (Function.update_self ..), Function.update_idem]
            refine ⟨_, _, rfl, ⟨⟨hy, ?_, ⟨hx, ?_, ?_, ?_⟩, ?_⟩, ?_, ?_⟩, rfl, by simp⟩
            · rw [Function.update_self]
              rfl
            · rw [Function.update_of_ne hyx.symm, Function.update_self]
              rfl
            · exact (ha.update hxa _).update hya _
            · exact (hb.update hxright.1 _).update hyb _
            · exact (hc.update hxright.2.2 _).update hyc _
            · simp
            · intro n hn
              simp only [refs_node, List.mem_append, List.mem_cons, not_or] at hn
              rw [Function.update_of_ne hn.2.2.2.1, Function.update_of_ne hn.2.1]
          · simp only [if_neg hflat]
            exact ⟨h, none, rfl, Laid.becomes ⟨hx, hcell, ha, ⟨hy, hcell₀, hb, hc⟩⟩, rfl,
              fun _ => rfl⟩

section Rotates

variable {rotate : Nodes δ → NodeRef → Except MapFault (Nodes δ × Option NodeRef)}
  {f : MapNode (Entry δ) → MapNode (Entry δ)}

theorem Rotates.onNode (hf : Rotates rotate f) (ht : t.Laid h) (hnodup : t.refs.Nodup) :
    ∃ h', h.onNode rotate t.addr = .ok (h', (f t).addr) ∧ Becomes h h' t (f t) := by
  obtain ⟨h', save, hrun, hbecomes, haddr, _⟩ := hf h t ht hnodup
  refine ⟨h', ?_, hbecomes⟩
  rw [Nodes.onNode, hrun, ← haddr]
  cases save <;> rfl

theorem Rotates.onRight (hf : Rotates rotate f) (ht : t.Laid h) (hnodup : t.refs.Nodup) :
    ∃ h', h.onRight rotate t.addr = .ok h' ∧ Becomes h h' t (t.onRight f) := by
  cases t with
  | nil =>
      obtain ⟨h', save, hrun, hbecomes, _, hsave⟩ := hf h .nil trivial List.nodup_nil
      refine ⟨h', ?_, trivial, rfl, fun n _ => hbecomes.other n List.not_mem_nil⟩
      rw [hsave rfl] at hrun
      rw [Nodes.onRight, addr, link_sentinal, MapFault.ok_bind, ← addr, hrun]
      rfl
  | node level a x b =>
      have hlink : h.link x.1 true = .ok b.addr := link_eq ht.1 ht.2.1 true
      have hb := (nodup_node.mp hnodup).2.1
      obtain ⟨h', save, hrun, hbecomes, haddr, _⟩ := hf h b ht.2.2.2 hb
      rw [Nodes.onRight, addr, hlink, MapFault.ok_bind, hrun]
      cases save with
      | none => exact ⟨h', rfl, .right ht hnodup hbecomes haddr.symm⟩
      | some save =>
          obtain ⟨h'', hset, hbecomes⟩ := Becomes.setRight ht hnodup hbecomes
          rw [← haddr] at hset
          exact ⟨h'', hset, hbecomes⟩

end Rotates

theorem addr_onRight (f : MapNode (Entry δ) → MapNode (Entry δ)) :
    (t.onRight f).addr = t.addr := by
  cases t <;> rfl

/-- The rebalancing of one node computes a function on trees. -/
def Mends (fix : Nodes δ → NodeRef → Except MapFault (Nodes δ × NodeRef))
    (f : MapNode (Entry δ) → MapNode (Entry δ)) : Prop :=
  ∀ (h : Nodes δ) (t : MapNode (Entry δ)), t.Laid h → t.refs.Nodup → t.Positive →
    ∃ h', fix h t.addr = .ok (h', (f t).addr) ∧ Becomes h h' t (f t)

theorem mends_fixInserted : Mends (δ := δ) fixInserted MapNode.fixInserted := by
  intro h t ht hnodup _
  obtain ⟨h₁, hskew, hb₁⟩ := rotates_skew.onNode ht hnodup
  obtain ⟨h₂, hsplit, hb₂⟩ := rotates_split.onNode hb₁.laid (hb₁.nodup hnodup)
  refine ⟨h₂, ?_, hb₁.trans hb₂⟩
  rw [fixInserted, hskew]
  exact hsplit

theorem Rotates.onRightRight
    {rotate : Nodes δ → NodeRef → Except MapFault (Nodes δ × Option NodeRef)}
    {f : MapNode (Entry δ) → MapNode (Entry δ)} (hf : Rotates rotate f) (ht : t.Laid h)
    (hnodup : t.refs.Nodup) :
    ∃ h', h.onRight rotate t.right.addr = .ok h' ∧
      Becomes h h' t (t.onRight fun b => b.onRight f) := by
  cases t with
  | nil =>
      obtain ⟨h', hrun, hbecomes⟩ := hf.onRight (h := h) (t := .nil) trivial List.nodup_nil
      exact ⟨h', hrun, hbecomes⟩
  | node level a x b =>
      have hb := (nodup_node.mp hnodup).2.1
      obtain ⟨h', hrun, hbecomes⟩ := hf.onRight ht.2.2.2 hb
      exact ⟨h', hrun, .right ht hnodup hbecomes (addr_onRight f)⟩

theorem relink_laid (ht : t.Laid h) (hnodup : t.refs.Nodup) :
    ∃ h', h.relink t.addr = .ok (h', t.relink.addr) ∧ Becomes h h' t t.relink := by
  obtain ⟨h₁, hrun₁, hb₁⟩ := rotates_skew.onNode ht hnodup
  obtain ⟨h₂, hrun₂, hb₂⟩ := rotates_skew.onRight hb₁.laid (hb₁.nodup hnodup)
  have hb₂ := hb₁.trans hb₂
  obtain ⟨h₃, hrun₃, hb₃⟩ := rotates_skew.onRightRight hb₂.laid (hb₂.nodup hnodup)
  have hb₃ := hb₂.trans hb₃
  obtain ⟨h₄, hrun₄, hb₄⟩ := rotates_split.onNode hb₃.laid (hb₃.nodup hnodup)
  have hb₄ := hb₃.trans hb₄
  obtain ⟨h₅, hrun₅, hb₅⟩ := rotates_split.onRight hb₄.laid (hb₄.nodup hnodup)
  have hlink := hb₂.laid.link_right
  rw [addr_onRight] at hlink
  rw [addr_onRight, addr_onRight] at hrun₄
  refine ⟨h₅, ?_, hb₄.trans hb₅⟩
  simp only [relink, hrun₁, hrun₂, hlink, hrun₃, hrun₄, hrun₅, MapFault.ok_bind,
    MapNode.relink, addr_onRight]

theorem setLevel_laid {l : ℤ} {a b : MapNode (Entry δ)} {x : Entry δ}
    (ht : (MapNode.node l a x b).Laid h) (hnodup : (MapNode.node l a x b).refs.Nodup)
    (level : ℤ) :
    ∃ h', h.setLevel x.1 level = .ok h' ∧ Becomes h h' (.node l a x b) (.node level a x b) := by
  obtain ⟨_, _, hxa, hxb, _⟩ := nodup_node.mp hnodup
  obtain ⟨hx, hcell, ha, hb⟩ := ht
  refine ⟨_, update_eq hx hcell _, ⟨hx, ?_, ha.update hxa _, hb.update hxb _⟩, by simp, ?_⟩
  · rw [Function.update_self]
  · intro n hn
    simp only [refs_node, List.mem_append, List.mem_cons, not_or] at hn
    rw [Function.update_of_ne hn.2.1]

theorem lower_laid {bound : ℤ} (ht : t.Laid h) (hnodup : t.refs.Nodup) (hbound : 0 ≤ bound) :
    ∃ h', h.lower t.addr bound = .ok h' ∧ Becomes h h' t (t.lower bound) ∧
      (t.lower bound).addr = t.addr := by
  rw [lower, ht.level_addr, MapFault.ok_bind]
  cases t with
  | nil =>
      have hkept : ¬ bound < (MapNode.nil : MapNode (Entry δ)).level := not_lt_of_ge hbound
      exact ⟨h, if_neg hkept, Laid.becomes trivial, rfl⟩
  | node level a x b =>
      rw [MapNode.level, MapNode.lower]
      by_cases hlow : bound < level
      · obtain ⟨h', hset, hbecomes⟩ := setLevel_laid ht hnodup bound
        rw [if_pos hlow, if_pos hlow]
        exact ⟨h', hset, hbecomes, rfl⟩
      · rw [if_neg hlow, if_neg hlow]
        exact ⟨h, rfl, ht.becomes, rfl⟩

theorem mends_fixRemoved : Mends (δ := δ) fixRemoved rebalance := by
  intro h t ht hnodup hpos
  cases t with
  | nil =>
      refine ⟨h, ?_, Laid.becomes trivial⟩
      rfl
  | node level a x b =>
      obtain ⟨hx, hcell, ha, hb⟩ := ht
      have hlevel : h.level x.1 = .ok level := level_eq hx hcell
      have hleft : h.link x.1 false = .ok a.addr := link_eq hx hcell false
      have hright : h.link x.1 true = .ok b.addr := link_eq hx hcell true
      simp only [fixRemoved, addr_node, hlevel, hleft, hright, ha.level_addr, hb.level_addr,
        MapFault.ok_bind, rebalance]
      by_cases hlow : a.level < level - 1 ∨ b.level < level - 1
      · have hbound : 0 ≤ level - 1 := by
          have := hpos.1
          omega
        have hbnodup := (nodup_node.mp hnodup).2.1
        obtain ⟨h₁, hset, hbecomes₁⟩ := setLevel_laid ⟨hx, hcell, ha, hb⟩ hnodup (level - 1)
        obtain ⟨h₂, hlower, hbecomes₂, haddr⟩ := lower_laid hbecomes₁.laid.2.2.2 hbnodup hbound
        have hlowered :=
          hbecomes₁.trans (.right hbecomes₁.laid (hbecomes₁.nodup hnodup) hbecomes₂ haddr)
        obtain ⟨h₃, hrelink, hbecomes₃⟩ := relink_laid hlowered.laid (hlowered.nodup hnodup)
        simp only [if_pos hlow, hset, hlower, MapFault.ok_bind]
        exact ⟨h₃, hrelink, hlowered.trans hbecomes₃⟩
      · simp only [if_neg hlow]
        exact ⟨h, rfl, Laid.becomes ⟨hx, hcell, ha, hb⟩⟩

end Nodes

end Casting
