import Casting.Map.Climbing

/-!
# Insertion and removal in memory

A map in memory holds a balanced tree.  `map_insert` and `map_remove` on its nodes are insertion
and removal on the tree, unless the search of a too tall tree runs behind its path array.
-/

namespace Casting

open MapNode

variable {δ : Type}

namespace NodeMap

variable {m : NodeMap δ} {t : MapNode (Entry δ)} {supply : Supply δ} {d x e : Entry δ}

/-- The map is the tree `t` in memory. -/
structure Holds (m : NodeMap δ) (t : MapNode (Entry δ)) : Prop where
  root : m.root = t.addr
  laid : t.Laid m.nodes
  nodup : t.refs.Nodup
  balanced : ∃ n, Balanced n t

theorem holds_init (nodes : Nodes δ) (cmp : δ → δ → ℤ) (copies releases : Bool) :
    (init nodes cmp copies releases).Holds .nil :=
  ⟨rfl, trivial, List.nodup_nil, 0, .nil⟩

theorem Holds.resize (ht : m.Holds t) (size : ℤ) : Holds { m with size := size } t :=
  ⟨ht.root, ht.laid, ht.nodup, ht.balanced⟩

theorem Holds.root_eq_sentinal (ht : m.Holds t) : m.root = sentinal ↔ t = .nil := by
  rw [ht.root]
  exact ht.laid.addr_eq_sentinal

theorem Holds.positive (ht : m.Holds t) : t.Positive := by
  obtain ⟨n, hn⟩ := ht.balanced
  exact hn.positive

theorem Holds.at_found (ht : m.Holds t) (hfound : t.find (keyed m.cmp) d = some x) :
    ∃ fs l a b, seek (keyed m.cmp) d [] t = (fs, .node l a x b) ∧
      plug fs (.node l a x b) = t ∧ (MapNode.node l a x b).Laid m.nodes := by
  obtain ⟨fs, l, a, b, hseek, hplug⟩ := seek_of_find hfound
  have hlaid := ht.laid
  rw [← hplug] at hlaid
  exact ⟨fs, l, a, b, hseek, hplug, (laid_plug.mp hlaid).1⟩

/-! ### Insertion -/

def supplied (m : NodeMap δ) (supply : Supply δ) (data : δ) : Except ℤ (Entry δ) :=
  match supply.alloc with
  | none => .error noMemory
  | some n => if m.copies then supply.copy.map fun copy => (n, copy) else .ok (n, data)

def leaf (e : Entry δ) : MapNode (Entry δ) := .node 1 .nil e .nil

theorem newNode_eq (m : NodeMap δ) (supply : Supply δ) (data : δ) :
    m.newNode supply data = (m.supplied supply data).map fun e =>
      (Function.update m.nodes e.1 (some ⟨1, e.2, sentinal, sentinal⟩), e.1) := by
  unfold newNode supplied
  cases supply.alloc with
  | none => rfl
  | some n =>
      cases m.copies with
      | false => rfl
      | true => cases supply.copy <;> rfl

theorem alloc_of_supplied {data : δ} (he : m.supplied supply data = .ok e) :
    supply.alloc = some e.1 := by
  unfold supplied at he
  cases halloc : supply.alloc with
  | none =>
      rw [halloc] at he
      cases he
  | some n =>
      simp only [halloc] at he
      cases hcopies : m.copies with
      | false =>
          rw [hcopies] at he
          cases he
          rfl
      | true =>
          rw [hcopies] at he
          cases hcopy : supply.copy with
          | error err =>
              rw [hcopy] at he
              cases he
          | ok copy =>
              rw [hcopy] at he
              cases he
              rfl

theorem Holds.spot_eq (ht : m.Holds t) (hne : t ≠ .nil) (d : Entry δ) :
    spot m.cmp m.nodes d.2 heightLimit m.root [] =
      if heightLimit < t.searchPath (keyed m.cmp) d then .error .overrun
      else .ok (spotOf (seek (keyed m.cmp) d [] t)) := by
  rw [ht.root]
  exact spot_laid ht.laid hne d heightLimit []

theorem insert_overrun (ht : m.Holds t) (hlong : heightLimit < t.searchPath (keyed m.cmp) d) :
    m.insert supply (some d.2) = .error .overrun := by
  have hne : t ≠ .nil := by
    rintro rfl
    cases hlong
  rw [insert, if_neg (mt ht.root_eq_sentinal.mp hne), ht.spot_eq hne, if_pos hlong]
  rfl

theorem insert_found (ht : m.Holds t) (hfits : t.searchPath (keyed m.cmp) d ≤ heightLimit)
    (hfound : t.find (keyed m.cmp) d = some x) :
    m.insert supply (some d.2) = m.replace supply d.2 x.1 := by
  have hne : t ≠ .nil := by
    rintro rfl
    cases hfound
  obtain ⟨fs, l, a, b, hseek, _⟩ := seek_of_find hfound
  rw [insert, if_neg (mt ht.root_eq_sentinal.mp hne), ht.spot_eq hne,
    if_neg (Nat.not_lt_of_le hfits), MapFault.ok_bind, hseek]
  rfl

theorem insert_failed (ht : m.Holds t) (hfits : t.searchPath (keyed m.cmp) d ≤ heightLimit)
    (habsent : t.find (keyed m.cmp) d = none) {err : ℤ}
    (herr : m.supplied supply d.2 = .error err) :
    m.insert supply (some d.2) = .ok (m, err) := by
  have hnode : m.newNode supply d.2 = .error err := by
    rw [newNode_eq, herr]
    rfl
  by_cases hne : t = .nil
  · rw [insert, if_pos (ht.root_eq_sentinal.mpr hne), hnode]
  · obtain ⟨fr, fs, hseek, _⟩ := seek_of_not_find hne habsent
    rw [insert, if_neg (mt ht.root_eq_sentinal.mp hne), ht.spot_eq hne,
      if_neg (Nat.not_lt_of_le hfits), MapFault.ok_bind, hseek]
    simp only [spotOf, hnode]

theorem graft {h : Nodes δ} {fr : Frame (Entry δ)} {fs : List (Frame (Entry δ))}
    (hlaid : (plug (fr :: fs) .nil).Laid h) (hnodup : (plug (fr :: fs) .nil).refs.Nodup)
    (hzero : e.1 ≠ sentinal) (hunused : h e.1 = none) :
    ∃ h', Nodes.setLink (Function.update h e.1 (some ⟨1, e.2, sentinal, sentinal⟩)) fr.node fr.dir
        e.1 = .ok h' ∧
      (plug (fr :: fs) (leaf e)).Laid h' ∧ (plug (fr :: fs) (leaf e)).refs.Nodup ∧
      ∀ n ∉ (plug (fr :: fs) (leaf e)).refs, h' n = h n := by
  have hnew : e.1 ∉ above (fr :: fs) := by
    intro hmem
    exact hlaid.live ((refs_plug (fr :: fs) .nil).symm.mem_iff.mp hmem) hunused
  obtain ⟨_, hhangs⟩ := laid_plug.mp hlaid
  rw [(refs_plug _ _).nodup_iff, refs_nil, List.nil_append] at hnodup
  have hhangs₁ : Hangs (Function.update h e.1 (some ⟨1, e.2, sentinal, sentinal⟩))
      (fr :: fs) sentinal := hhangs.update hnew _
  obtain ⟨h', hset, hhangs', hother⟩ := hhangs₁.setLink hnodup e.1
  have hapart : e.1 ≠ fr.node := by
    intro heq
    rw [heq] at hnew
    exact hnew List.mem_cons_self
  have hleaf : (leaf e).Laid h' := by
    refine ⟨hzero, ?_, trivial, trivial⟩
    rw [hother _ hapart, Function.update_self]
    rfl
  refine ⟨h', hset, laid_plug.mpr ⟨hleaf, hhangs'⟩, ?_, ?_⟩
  · rw [(refs_plug _ _).nodup_iff]
    exact List.nodup_cons.mpr ⟨hnew, hnodup⟩
  · intro n hn
    rw [(refs_plug _ _).mem_iff, List.mem_append, not_or] at hn
    have hnode : n ≠ e.1 := by
      rintro rfl
      exact hn.1 (addr_mem (by simp [leaf]))
    have hparent : n ≠ fr.node := by
      rintro rfl
      exact hn.2 List.mem_cons_self
    rw [hother n hparent, Function.update_of_ne hnode]

theorem insert_absent (ht : m.Holds t) (hfresh : supply.Fresh m.nodes)
    (hfits : t.searchPath (keyed m.cmp) d ≤ heightLimit)
    (habsent : t.find (keyed m.cmp) d = none) (he : m.supplied supply d.2 = .ok e) :
    ∃ h' r, m.insert supply (some d.2) =
        .ok ({ m with nodes := h', root := r, size := m.size + 1 }, m.size + 1) ∧
      Holds { m with nodes := h', root := r, size := m.size + 1 }
        (t.attach (keyed m.cmp) d (leaf e)) ∧
      ∀ n ∉ (t.attach (keyed m.cmp) d (leaf e)).refs, h' n = m.nodes n := by
  have halloc := alloc_of_supplied he
  obtain ⟨hzero, hunused⟩ := hfresh e.1 halloc
  obtain ⟨n, hbalanced⟩ := ht.balanced
  have hattached : ∃ k, Balanced k (t.attach (keyed m.cmp) d (leaf e)) :=
    balanced_attach hbalanced
  have hnode : m.newNode supply d.2 =
      .ok (Function.update m.nodes e.1 (some ⟨1, e.2, sentinal, sentinal⟩), e.1) := by
    rw [newNode_eq, he]
    rfl
  by_cases hne : t = .nil
  · subst hne
    refine ⟨Function.update m.nodes e.1 (some ⟨1, e.2, sentinal, sentinal⟩), e.1, ?_,
      ⟨rfl, ⟨hzero, ?_, trivial, trivial⟩, by simp [attach, leaf], hattached⟩, ?_⟩
    · rw [insert, if_pos (ht.root_eq_sentinal.mpr rfl), hnode]
    · exact Function.update_self ..
    · intro n hn
      exact Function.update_of_ne (by simpa [attach, leaf] using hn) _ _
  · obtain ⟨fr, fs, hseek, hplug⟩ := seek_of_not_find hne habsent
    have hclimb : climb MapNode.fixInserted [] (t.attach (keyed m.cmp) d (leaf e)) =
        climb MapNode.fixInserted (fr :: fs) (leaf e) := climb_attach hseek
    have hlaid := ht.laid
    have hnodup := ht.nodup
    have hpositive := ht.positive
    rw [← hplug] at hlaid hnodup hpositive
    obtain ⟨h₂, hset, hlaid₂, hplugged, hother⟩ := graft hlaid hnodup hzero hunused
    obtain ⟨h', hwalk, hbecomes⟩ := walkBack_plug (m := { m with nodes := h₂ })
      Nodes.mends_fixInserted (fun _ ht => ht.skew.split) toList_fixInserted
      hlaid₂ hplugged (hpositive.plug_congr ⟨by omega, trivial, trivial⟩)
    rw [← hclimb, climb_nil] at hwalk hbecomes
    refine ⟨h', (t.attach (keyed m.cmp) d (leaf e)).addr, ?_,
      ⟨rfl, hbecomes.laid, hbecomes.nodup hplugged, hattached⟩, ?_⟩
    · rw [insert, if_neg (mt ht.root_eq_sentinal.mp hne), ht.spot_eq hne,
        if_neg (Nat.not_lt_of_le hfits), MapFault.ok_bind, hseek]
      simp only [spotOf, hnode, hset, MapFault.ok_bind, hwalk]
    · intro n hn
      rw [hbecomes.refs] at hn
      exact (hbecomes.other n hn).trans (hother n hn)

/-! ### Removal -/

/-- A node without a left child is taken out of its frames and freed; its right child takes its
place. -/
theorem splice {h : Nodes δ} {fr : Frame (Entry δ)} {fs : List (Frame (Entry δ))} {l : ℤ}
    {y : Entry δ} {c : MapNode (Entry δ)}
    (hlaid : (plug (fr :: fs) (.node l .nil y c)).Laid h)
    (hnodup : (plug (fr :: fs) (.node l .nil y c)).refs.Nodup) :
    ∃ h₁ h₂, h.setLink fr.node fr.dir c.addr = .ok h₁ ∧ h₁.free y.1 = .ok h₂ ∧
      (plug (fr :: fs) c).Laid h₂ ∧ (plug (fr :: fs) c).refs.Nodup := by
  obtain ⟨⟨hy, hcell, _, hc⟩, hhangs⟩ := laid_plug.mp hlaid
  rw [(refs_plug _ _).nodup_iff, refs_node, refs_nil, List.nil_append, List.cons_append,
    List.nodup_cons, List.mem_append, not_or] at hnodup
  obtain ⟨⟨hyc, hyabove⟩, hrest⟩ := hnodup
  obtain ⟨_, habove, hdisjoint⟩ := List.nodup_append.mp hrest
  obtain ⟨h₁, hset, hhangs₁, hother⟩ := hhangs.setLink habove c.addr
  have hapart : y.1 ≠ fr.node := by
    intro heq
    rw [heq] at hyabove
    exact hyabove List.mem_cons_self
  have hcell₁ : h₁ y.1 = some ⟨l, y.2, sentinal, c.addr⟩ := by
    rw [hother _ hapart, hcell]
    rfl
  have hc₁ : c.Laid h₁ := by
    apply hc.congr
    intro k hk
    apply hother
    rintro rfl
    exact hdisjoint _ hk _ List.mem_cons_self rfl
  refine ⟨h₁, _, hset, Nodes.free_eq hy hcell₁,
    laid_plug.mpr ⟨hc₁.update hyc _, hhangs₁.update hyabove _⟩, ?_⟩
  rw [(refs_plug _ _).nodup_iff]
  exact hrest

theorem Holds.hit_eq (ht : m.Holds t) (d : Entry δ) :
    hit m.cmp m.nodes d.2 heightLimit m.root false [] =
      if heightLimit < hitPath m.cmp d t then .error .overrun
      else .ok (hitOf (heightLimit - hitPath m.cmp d t) (seek (keyed m.cmp) d [] t)) := by
  rw [ht.root]
  exact hit_laid ht.laid d heightLimit []

theorem remove_empty (ht : m.Holds .nil) (data : δ) :
    m.remove (some data) = .ok ({ m with size := m.size - 1 }, none) := by
  rw [remove, if_pos (ht.root_eq_sentinal.mpr rfl)]

theorem remove_missing (ht : m.Holds t) (hne : t ≠ .nil)
    (hfits : t.removePath (keyed m.cmp) d ≤ heightLimit)
    (hmissing : t.find (keyed m.cmp) d = none) : m.remove (some d.2) = .ok (m, none) := by
  obtain ⟨fr, fs, hseek, _⟩ := seek_of_not_find hne hmissing
  have hpath : hitPath m.cmp d t ≤ heightLimit := by
    rw [removePath_of_not_find hmissing] at hfits
    simp only [hitPath, hmissing, Option.isNone_none, if_true]
    exact hfits
  rw [remove, if_neg (mt ht.root_eq_sentinal.mp hne), ht.hit_eq,
    if_neg (Nat.not_lt_of_le hpath), MapFault.ok_bind, hseek]
  rfl

/-- The end of a removal below the root: a node without a left child is taken out, and the way up
is mended. -/
theorem walkBack_spliced {fr : Frame (Entry δ)} {fs : List (Frame (Entry δ))} {l : ℤ}
    {y : Entry δ} {c : MapNode (Entry δ)}
    (hlaid : (plug (fr :: fs) (.node l .nil y c)).Laid m.nodes)
    (hnodup : (plug (fr :: fs) (.node l .nil y c)).refs.Nodup)
    (hpositive : (plug (fr :: fs) (.node l .nil y c)).Positive) :
    ∃ h₁ h₂ h', m.nodes.setLink fr.node fr.dir c.addr = .ok h₁ ∧ h₁.free y.1 = .ok h₂ ∧
      walkBack Nodes.fixRemoved ((fr :: fs).map Frame.node) { m with nodes := h₂ } =
        .ok { m with nodes := h', root := (climb rebalance (fr :: fs) c).addr } ∧
      (climb rebalance (fr :: fs) c).Laid h' ∧ (climb rebalance (fr :: fs) c).refs.Nodup := by
  obtain ⟨h₁, h₂, hset, hfree, hlaid₂, hnodup₂⟩ := splice hlaid hnodup
  have hnode : (MapNode.node l .nil y c).Positive := Positive.of_plug hpositive
  obtain ⟨h', hwalk, hbecomes⟩ := walkBack_plug (m := { m with nodes := h₂ })
    Nodes.mends_fixRemoved (fun _ ht => ht.rebalance) toList_rebalance hlaid₂ hnodup₂
    (hpositive.plug_congr hnode.2.2)
  exact ⟨h₁, h₂, h', hset, hfree, hwalk, hbecomes.laid, hbecomes.nodup hnodup₂⟩

theorem setData_laid {h : Nodes δ} {fs : List (Frame (Entry δ))} {l : ℤ}
    {a b : MapNode (Entry δ)} (hlaid : (plug fs (.node l a x b)).Laid h)
    (hnodup : (plug fs (.node l a x b)).refs.Nodup) (data : δ) :
    ∃ h', h.setData x.1 data = .ok h' ∧ (plug fs (.node l a (x.1, data) b)).Laid h' ∧
      (plug fs (.node l a (x.1, data) b)).refs = (plug fs (.node l a x b)).refs := by
  obtain ⟨⟨hx, hcell, ha, hb⟩, hhangs⟩ := laid_plug.mp hlaid
  rw [(refs_plug _ _).nodup_iff] at hnodup
  obtain ⟨hnode, _, hdisjoint⟩ := List.nodup_append.mp hnodup
  obtain ⟨_, _, hxa, hxb, _⟩ := nodup_node.mp hnode
  have hxabove : x.1 ∉ above fs := fun hmem => hdisjoint _ (by simp) _ hmem rfl
  refine ⟨_, Nodes.update_eq hx hcell _, laid_plug.mpr ⟨⟨hx, ?_, ha.update hxa _,
    hb.update hxb _⟩, hhangs.update hxabove _⟩, ?_⟩
  · exact Function.update_self ..
  · simp [refs, toList_plug, toList]

theorem remove_single (ht : m.Holds t) {fs : List (Frame (Entry δ))} {l : ℤ}
    {b : MapNode (Entry δ)} (hplug : plug fs (.node l .nil x b) = t) (room : Nat) :
    ∃ m₁ h' r, m.unlinkSingle ⟨x.1, lastDir fs, fs.map Frame.node, room⟩ = .ok m₁ ∧
      walkBack Nodes.fixRemoved (fs.map Frame.node) m₁ =
        .ok { m with nodes := h', root := r } ∧
      r = (climb rebalance fs b).addr ∧ (climb rebalance fs b).Laid h' ∧
      (climb rebalance fs b).refs.Nodup := by
  have hlaid := ht.laid
  have hnodup := ht.nodup
  have hpositive := ht.positive
  rw [← hplug] at hlaid hnodup hpositive
  obtain ⟨hx, hcell, _, hb⟩ := (laid_plug.mp hlaid).1
  have hleft : m.nodes.link x.1 false = .ok sentinal := Nodes.link_eq hx hcell false
  have hright : m.nodes.link x.1 true = .ok b.addr := Nodes.link_eq hx hcell true
  cases fs with
  | nil =>
      obtain ⟨_, hbnodup, _, hxb, _⟩ := nodup_node.mp hnodup
      refine ⟨_, _, _, ?_, rfl, rfl, hb.update hxb none, hbnodup⟩
      simp only [unlinkSingle, hleft, hright, MapFault.ok_bind, List.map_nil, decide_true,
        Nodes.free_eq hx hcell, climb_nil]
  | cons fr fs =>
      obtain ⟨h₁, h₂, h', hset, hfree, hwalk, hlaid', hnodup'⟩ :=
        walkBack_spliced hlaid hnodup hpositive
      refine ⟨_, h', _, ?_, hwalk, rfl, hlaid', hnodup'⟩
      simp only [unlinkSingle, hleft, hright, MapFault.ok_bind, List.map_cons, decide_true,
        lastDir, hset, hfree]

theorem heir_laid {h : Nodes δ} {b : MapNode (Entry δ)} (hlaid : b.Laid h) (hb : b ≠ .nil)
    {room : Nat} (hroom : b.leastPath - 1 ≤ room) (fr : Frame (Entry δ))
    (fs : List (Frame (Entry δ))) :
    ∃ ks l y c rest, outermost false [] b = (ks, .node l .nil y c) ∧
      b.takeHeir = some (y, rest) ∧ rest = climb rebalance ks c ∧
      heir h room b.addr fr.node ((fr :: fs).map Frame.node) =
        .ok (y.1, ((ks ++ fr :: fs).map Frame.node).headD fr.node,
          (ks ++ fr :: fs).map Frame.node) := by
  obtain ⟨ks, l, y, c, rest, hends, htaken, hclimb⟩ := takeHeir_outermost [] hb
  have houter := outermost_append false [] (fr :: fs) b
  have hlength := length_outermost_left (fr :: fs) b
  rw [hends, List.nil_append] at houter
  refine ⟨ks, l, y, c, rest, hends, htaken, hclimb, ?_⟩
  have hslide := slide_laid false hlaid room (fr :: fs)
  rw [hlength, if_neg (by omega), houter] at hslide
  rw [List.map_cons, heir_eq_slide, ← List.map_cons, hslide]
  rfl

/-- A found node with two children gets the element of its heir, which is taken out. -/
theorem remove_heir (ht : m.Holds t) {fs : List (Frame (Entry δ))} {l : ℤ}
    {a b : MapNode (Entry δ)} (hplug : plug fs (.node l a x b) = t) (ha : a ≠ .nil)
    (hb : b ≠ .nil) {room : Nat} (hroom : b.leastPath - 1 ≤ room) :
    ∃ m₁ path h', ∃ t' : MapNode (Entry δ),
      m.unlinkHeir ⟨x.1, lastDir fs, fs.map Frame.node, room⟩ = .ok (m₁, path) ∧
      walkBack Nodes.fixRemoved path m₁ = .ok { m with nodes := h', root := t'.addr } ∧
      t'.Laid h' ∧ t'.refs.Nodup ∧
      t'.relabel Prod.snd = (climb rebalance fs (unlink l a b)).relabel Prod.snd := by
  have hlaid := ht.laid
  have hnodup := ht.nodup
  have hpositive := ht.positive
  rw [← hplug] at hlaid hnodup hpositive
  obtain ⟨hx, hcell, _, hblaid⟩ := (laid_plug.mp hlaid).1
  have hright : m.nodes.link x.1 true = .ok b.addr := Nodes.link_eq hx hcell true
  have hxb : x.1 ∉ b.refs := by
    have hperm := (refs_plug fs (.node l a x b)).nodup_iff.mp hnodup
    exact (nodup_node.mp (List.nodup_append.mp hperm).1).2.2.2.1
  obtain ⟨ks, lh, y, c, rest, hends, htaken, hrest, hheir⟩ :=
    heir_laid hblaid hb hroom (.right l a x) fs
  have hbplug := plug_outermost false [] b
  rw [hends, plug_nil] at hbplug
  -- the heir in the tree before and after its element is copied
  have hregroup : ∀ v s, plug (ks ++ .right l a v :: fs) s = plug fs (.node l a v (plug ks s)) :=
    fun v s => plug_append ks (.right l a v :: fs) s
  obtain ⟨h₁, hset, hlaid₁, hrefs₁⟩ := setData_laid hlaid hnodup y.2
  have hnodup₁ := hnodup
  rw [← hrefs₁] at hnodup₁
  have hnode : (MapNode.node l a x b).Positive := Positive.of_plug hpositive
  have hpositive₁ : (plug fs (.node l a (x.1, y.2) b)).Positive := hpositive.plug_congr hnode
  have hdata : m.nodes.data y.1 = .ok y.2 := by
    rw [← hbplug, ← hregroup] at hlaid
    obtain ⟨hy, hycell, _⟩ := (laid_plug.mp hlaid).1
    exact Nodes.data_eq hy hycell
  rw [← hbplug, ← hregroup] at hlaid₁ hnodup₁ hpositive₁
  obtain ⟨hy, hycell, _⟩ := (laid_plug.mp hlaid₁).1
  have hnext : h₁.link y.1 true = .ok c.addr := Nodes.link_eq hy hycell true
  -- the last entry of the path is the found node exactly when the heir is its right child
  obtain ⟨fr, gs, hframes, hpath, hdir⟩ : ∃ fr gs,
      ks ++ .right l a (x.1, y.2) :: fs = fr :: gs ∧
        (ks ++ .right l a x :: fs).map Frame.node = (fr :: gs).map Frame.node ∧
        decide (fr.node = x.1) = fr.dir := by
    cases ks with
    | nil => exact ⟨.right l a (x.1, y.2), fs, rfl, rfl, decide_eq_true rfl⟩
    | cons k ks =>
        refine ⟨k, ks ++ .right l a (x.1, y.2) :: fs, rfl, by simp [Frame.node, Frame.data], ?_⟩
        have hleft : ∀ fr ∈ (outermost false [] b).1, fr.dir = false :=
          outermost_dir (fun _ hfr => (List.not_mem_nil hfr).elim) b
        rw [hends] at hleft
        rw [hleft k List.mem_cons_self]
        apply decide_eq_false
        intro heq
        apply hxb
        rw [← heq, ← hbplug, (refs_plug _ _).mem_iff, List.mem_append]
        exact .inr List.mem_cons_self
  rw [hframes] at hlaid₁ hnodup₁ hpositive₁
  obtain ⟨h₂, h₃, h', hlink, hfree, hwalk, hlaid', hnodup'⟩ :=
    walkBack_spliced (m := { m with nodes := h₁ }) hlaid₁ hnodup₁ hpositive₁
  refine ⟨{ m with nodes := h₃ }, (fr :: gs).map Frame.node, h',
    climb rebalance (fr :: gs) c, ?_, hwalk, hlaid', hnodup', ?_⟩
  · have hfound : heir m.nodes room b.addr x.1 (x.1 :: fs.map Frame.node) =
        .ok (y.1, fr.node, (fr :: gs).map Frame.node) := by
      rw [hpath] at hheir
      exact hheir
    simp only [unlinkHeir, hright, MapFault.ok_bind, hfound, hdata, hset, hnext, hdir, hlink,
      hfree]
  · have hunlink : unlink l a b = rebalance (.node l a y rest) := by
      cases a with
      | nil => exact (ha rfl).elim
      | node => rw [unlink, htaken]
    rw [hunlink, hrest, ← hframes]
    have hafter : climb rebalance fs (rebalance (.node l a y (climb rebalance ks c))) =
        climb rebalance (ks ++ .right l a y :: fs) c := by
      rw [climb_append]
      rfl
    rw [hafter]
    exact climb_relabel_congr rebalance_relabel (by simp [Frame.relabel]) rfl

theorem hitPath_of_found (hfound : t.find (keyed m.cmp) d = some x) :
    hitPath m.cmp d t = t.searchPath (keyed m.cmp) d := by
  rw [hitPath, hfound]
  rfl

theorem remove_found (ht : m.Holds t) (hfits : t.removePath (keyed m.cmp) d ≤ heightLimit)
    (hfound : t.find (keyed m.cmp) d = some x) :
    ∃ h', ∃ t' : MapNode (Entry δ), m.remove (some d.2) =
        .ok ({ m with nodes := h', root := t'.addr, size := m.size - 1 }, some x.2) ∧
      Holds { m with nodes := h', root := t'.addr, size := m.size - 1 } t' ∧
      t'.relabel Prod.snd = (t.remove (keyed m.cmp) d).relabel Prod.snd := by
  obtain ⟨fs, l, a, b, hseek, hplug, hx, hcell, ha, hb⟩ := ht.at_found hfound
  have hremove : t.remove (keyed m.cmp) d = climb rebalance fs (unlink l a b) :=
    climb_remove hseek
  have hpath := removePath_of_seek hseek
  have hhit := hitPath_of_found hfound
  have hne : t ≠ .nil := by
    rintro rfl
    cases hfound
  obtain ⟨n, hbalanced⟩ := ht.balanced
  obtain ⟨k, hremoved⟩ : ∃ k, Balanced k (t.remove (keyed m.cmp) d) :=
    balanced_remove hbalanced
  rw [← hplug] at hbalanced
  obtain ⟨j, hsub⟩ := hbalanced.of_plug
  have hdata : m.nodes.data x.1 = .ok x.2 := Nodes.data_eq hx hcell
  have hleft : m.nodes.link x.1 false = .ok a.addr := Nodes.link_eq hx hcell false
  have hright : m.nodes.link x.1 true = .ok b.addr := Nodes.link_eq hx hcell true
  have hfits' : ¬ heightLimit < hitPath m.cmp d t := by omega
  by_cases hnil : a = .nil
  · subst hnil
    obtain ⟨m₁, h', r, hunlink, hwalk, rfl, hlaid', hnodup'⟩ :=
      remove_single ht hplug (heightLimit - hitPath m.cmp d t)
    refine ⟨h', climb rebalance fs b, ?_, ⟨rfl, hlaid', hnodup', k, ?_⟩, ?_⟩
    · have hsingle : (MapNode.nil : MapNode (Entry δ)).addr = sentinal ∨ b.addr = sentinal :=
        .inl rfl
      rw [remove, if_neg (mt ht.root_eq_sentinal.mp hne), ht.hit_eq, if_neg hfits', hseek]
      simp only [MapFault.ok_bind, hitOf, hdata, hleft, hright, if_pos hsingle, hunlink, hwalk]
    · rw [hremove] at hremoved
      exact hremoved
    · rw [hremove]
      rfl
  · have hb' : b ≠ .nil := fun hbnil => hnil (hsub.left_eq_nil hbnil)
    rw [if_neg (mt isNil_iff.mp hnil)] at hpath
    have hroom : b.leastPath - 1 ≤ heightLimit - hitPath m.cmp d t := by omega
    obtain ⟨m₁, path, h', t', hunlink, hwalk, hlaid', hnodup', hrelabel⟩ :=
      remove_heir ht hplug hnil hb' hroom
    rw [← hremove] at hrelabel
    refine ⟨h', t', ?_, ⟨rfl, hlaid', hnodup', k, hremoved.of_relabel hrelabel⟩, hrelabel⟩
    have hboth : ¬ (a.addr = sentinal ∨ b.addr = sentinal) := by
      rw [ha.addr_eq_sentinal, hb.addr_eq_sentinal, not_or]
      exact ⟨hnil, hb'⟩
    rw [remove, if_neg (mt ht.root_eq_sentinal.mp hne), ht.hit_eq, if_neg hfits', hseek]
    simp only [MapFault.ok_bind, hitOf, hdata, hleft, hright, if_neg hboth, hunlink, hwalk]

/-- The search of a too tall tree, or the search for the heir in it. -/
theorem remove_overrun (ht : m.Holds t) (hne : t ≠ .nil)
    (hlong : heightLimit < t.removePath (keyed m.cmp) d) :
    m.remove (some d.2) = .error .overrun := by
  by_cases hhit : heightLimit < hitPath m.cmp d t
  · rw [remove, if_neg (mt ht.root_eq_sentinal.mp hne), ht.hit_eq, if_pos hhit]
    rfl
  cases hfind : t.find (keyed m.cmp) d with
  | none =>
      rw [removePath_of_not_find hfind] at hlong
      simp only [hitPath, hfind, Option.isNone_none, if_true] at hhit
      exact (hhit hlong).elim
  | some x =>
      obtain ⟨fs, l, a, b, hseek, _, hx, hcell, ha, hb⟩ := ht.at_found hfind
      have hpath := removePath_of_seek hseek
      have hdata : m.nodes.data x.1 = .ok x.2 := Nodes.data_eq hx hcell
      have hleft : m.nodes.link x.1 false = .ok a.addr := Nodes.link_eq hx hcell false
      have hright : m.nodes.link x.1 true = .ok b.addr := Nodes.link_eq hx hcell true
      have hsame := hitPath_of_found hfind
      split at hpath
      · omega
      · rename_i hnil
        have hb' : b ≠ .nil := by
          rintro rfl
          simp only [leastPath] at hpath
          omega
        have hboth : ¬ (a.addr = sentinal ∨ b.addr = sentinal) := by
          rw [ha.addr_eq_sentinal, hb.addr_eq_sentinal, not_or]
          exact ⟨mt isNil_iff.mpr hnil, hb'⟩
        have hheir : heir m.nodes (heightLimit - hitPath m.cmp d t) b.addr x.1
            (x.1 :: fs.map Frame.node) = .error .overrun := by
          have hslide := slide_laid false hb (heightLimit - hitPath m.cmp d t)
            (.right l a x :: fs)
          rw [length_outermost_left, if_pos (by omega)] at hslide
          rw [heir_eq_slide]
          exact congrArg (Except.map _) hslide
        rw [remove, if_neg (mt ht.root_eq_sentinal.mp hne), ht.hit_eq, if_neg hhit, hseek]
        simp only [MapFault.ok_bind, hitOf, hdata, hleft, hright, if_neg hboth, unlinkHeir, hheir,
          MapFault.error_bind]

/-! ### Replacement -/

theorem replace_found (ht : m.Holds t) (hcopies : m.copies = false)
    (hfound : t.find (keyed m.cmp) d = some x) (supply : Supply δ) :
    ∃ h', ∃ t' : MapNode (Entry δ), m.replace supply d.2 x.1 =
        .ok ({ m with
          nodes := h'
          released := if m.releases then m.released ++ [x.2] else m.released }, m.size) ∧
      Holds { m with
        nodes := h'
        released := if m.releases then m.released ++ [x.2] else m.released } t' ∧
      t'.refs = t.refs ∧
      t'.relabel Prod.snd = (t.overwrite (keyed m.cmp) d).relabel Prod.snd := by
  obtain ⟨fs, l, a, b, hseek, hplug, hx, hcell, _⟩ := ht.at_found hfound
  have hoverwrite : t.overwrite (keyed m.cmp) d = plug fs (.node l a d b) := plug_overwrite hseek
  have hlaid := ht.laid
  have hnodup := ht.nodup
  obtain ⟨n, hbalanced⟩ := ht.balanced
  rw [← hplug] at hlaid hnodup hbalanced
  obtain ⟨h', hset, hlaid', hrefs⟩ := setData_laid hlaid hnodup d.2
  have hdata : m.nodes.data x.1 = .ok x.2 := Nodes.data_eq hx hcell
  have hrelabel : (plug fs (.node l a (x.1, d.2) b)).relabel (fun _ => ()) =
      (plug fs (.node l a x b)).relabel fun _ => () :=
    plug_relabel_congr fs rfl
  refine ⟨h', plug fs (.node l a (x.1, d.2) b), ?_, ⟨?_, hlaid', ?_, n,
    hbalanced.of_relabel hrelabel⟩, ?_, ?_⟩
  · simp only [replace, hdata, MapFault.ok_bind, hcopies, hset]
    rfl
  · rw [ht.root, ← hplug]
    exact addr_plug_congr rfl
  · rw [hrefs]
    exact hnodup
  · rw [hrefs, hplug]
  · rw [hoverwrite]
    exact plug_relabel_congr fs rfl

end NodeMap

end Casting
