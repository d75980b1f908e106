import Casting.Map.Layout

/-!
# The path arrays

What a path array holds are the nodes of the frames above a subtree.  The searches fill it so, and
the walks back mend what is plugged into the frames.
-/

namespace Casting

variable {δ : Type}

/-! ## Frames in memory -/

namespace Frame

def node (fr : Frame (Entry δ)) : NodeRef := fr.data.1

/-- The node of a frame, with a subtree at `n`. -/
def cell (n : NodeRef) : Frame (Entry δ) → NodeCell δ
  | .left level x b => ⟨level, x.2, n, b.addr⟩
  | .right level a x => ⟨level, x.2, a.addr, n⟩

variable {fr : Frame (Entry δ)}

@[simp]
theorem setLink_cell (n m : NodeRef) : (fr.cell n).setLink fr.dir m = fr.cell m := by
  cases fr <;> rfl

end Frame

namespace MapNode

variable {h h' : Nodes δ} {n m : NodeRef} {t t' : MapNode (Entry δ)} {fr : Frame (Entry δ)}
  {fs gs : List (Frame (Entry δ))}

@[simp]
theorem addr_fill : (fr.fill t).addr = fr.node := by
  cases fr <;> rfl

theorem addr_plug_congr (h : t.addr = t'.addr) : (plug fs t).addr = (plug fs t').addr := by
  induction fs generalizing t t' with
  | nil => exact h
  | cons fr fs ih =>
      rw [plug_cons, plug_cons]
      apply ih
      rw [addr_fill, addr_fill]

/-- The nodes of the frames and of what hangs off them. -/
def above : List (Frame (Entry δ)) → List NodeRef
  | [] => []
  | fr :: fs => fr.node :: (fr.sibling.refs ++ above fs)

/-- Frames around a subtree at `n`. -/
def Hangs (h : Nodes δ) : List (Frame (Entry δ)) → NodeRef → Prop
  | [], _ => True
  | fr :: fs, n =>
      fr.node ≠ sentinal ∧ h fr.node = some (fr.cell n) ∧ fr.sibling.Laid h ∧ Hangs h fs fr.node

theorem refs_fill : (fr.fill t).refs.Perm (t.refs ++ (fr.node :: fr.sibling.refs)) := by
  cases fr with
  | left level x b =>
      rw [Frame.fill, refs_node]
      exact List.Perm.refl _
  | right level a x =>
      rw [Frame.fill, refs_node]
      exact List.perm_append_comm.trans (List.perm_middle.symm.trans
        (List.Perm.append_left _ (List.Perm.refl _)))

theorem refs_plug (fs : List (Frame (Entry δ))) (t : MapNode (Entry δ)) :
    (plug fs t).refs.Perm (t.refs ++ above fs) := by
  induction fs generalizing t with
  | nil => simp [above]
  | cons fr fs ih =>
      have hfill : ((fr.fill t).refs ++ above fs).Perm
          (t.refs ++ (fr.node :: fr.sibling.refs) ++ above fs) := refs_fill.append_right (above fs)
      rw [List.append_assoc, List.cons_append] at hfill
      exact (ih (fr.fill t)).trans hfill

theorem laid_fill : (fr.fill t).Laid h ↔
    t.Laid h ∧ fr.node ≠ sentinal ∧ h fr.node = some (fr.cell t.addr) ∧ fr.sibling.Laid h := by
  cases fr with
  | left level x b =>
      constructor
      · intro ⟨hx, hcell, ht, hb⟩
        exact ⟨ht, hx, hcell, hb⟩
      · intro ⟨ht, hx, hcell, hb⟩
        exact ⟨hx, hcell, ht, hb⟩
  | right level a x =>
      constructor
      · intro ⟨hx, hcell, ha, ht⟩
        exact ⟨ht, hx, hcell, ha⟩
      · intro ⟨ht, hx, hcell, ha⟩
        exact ⟨hx, hcell, ha, ht⟩

theorem laid_plug : (plug fs t).Laid h ↔ t.Laid h ∧ Hangs h fs t.addr := by
  induction fs generalizing t with
  | nil => simp [Hangs]
  | cons fr fs ih =>
      rw [plug_cons, ih, laid_fill, addr_fill, Hangs, and_assoc, and_assoc, and_assoc]

theorem Hangs.congr (hfs : Hangs h fs n) (heq : ∀ k ∈ above fs, h' k = h k) :
    Hangs h' fs n := by
  induction fs generalizing n with
  | nil => trivial
  | cons fr fs ih =>
      simp only [above, List.mem_cons, List.mem_append] at heq
      obtain ⟨hnode, hcell, hsibling, hrest⟩ := hfs
      refine ⟨hnode, ?_, ?_, ih hrest fun k hk => heq k (.inr (.inr hk))⟩
      · rw [heq fr.node (.inl rfl), hcell]
      · exact hsibling.congr fun k hk => heq k (.inr (.inl hk))

theorem Hangs.update (hfs : Hangs h fs n) {k : NodeRef} (hk : k ∉ above fs)
    (c : Option (NodeCell δ)) : Hangs (Function.update h k c) fs n := by
  apply hfs.congr
  intro j hj
  apply Function.update_of_ne
  rintro rfl
  exact hk hj

theorem mem_refs_of_find {cmp : Entry δ → Entry δ → ℤ} {d x : Entry δ}
    (h : t.find cmp d = some x) : x.1 ∈ t.refs := by
  obtain ⟨before, after, hlist, _⟩ := toList_remove h
  rw [refs, hlist]
  simp

theorem exists_plug (hn : n ∈ t.refs) :
    ∃ fs l a x b, plug fs (.node l a x b) = t ∧ x.1 = n := by
  induction t with
  | nil => simp at hn
  | node l a x b iha ihb =>
      rw [refs_node, List.mem_append, List.mem_cons] at hn
      rcases hn with hn | rfl | hn
      · obtain ⟨fs, k, c, y, d, hplug, hy⟩ := iha hn
        refine ⟨fs ++ [.left l x b], k, c, y, d, ?_, hy⟩
        rw [plug_append, hplug]
        rfl
      · exact ⟨[], l, a, x, b, rfl, rfl⟩
      · obtain ⟨fs, k, c, y, d, hplug, hy⟩ := ihb hn
        refine ⟨fs ++ [.right l a x], k, c, y, d, ?_, hy⟩
        rw [plug_append, hplug]
        rfl

theorem Hangs.setLink (hfs : Hangs h (fr :: fs) n) (hnodup : (above (fr :: fs)).Nodup)
    (m : NodeRef) :
    ∃ h', h.setLink fr.node fr.dir m = .ok h' ∧ Hangs h' (fr :: fs) m ∧
      ∀ k ≠ fr.node, h' k = h k := by
  obtain ⟨hnode, hcell, hsibling, hrest⟩ := hfs
  obtain ⟨hfresh, _⟩ := List.nodup_cons.mp hnodup
  rw [List.mem_append, not_or] at hfresh
  have hother : ∀ k ≠ fr.node, Function.update h fr.node (some (fr.cell m)) k = h k :=
    fun k hk => Function.update_of_ne hk _ _
  refine ⟨Function.update h fr.node (some (fr.cell m)), ?_, ⟨hnode, ?_, ?_, ?_⟩, hother⟩
  · rw [Nodes.setLink, Nodes.update_eq hnode hcell, Frame.setLink_cell]
  · rw [Function.update_self]
  · exact hsibling.update hfresh.1 _
  · apply hrest.congr
    intro k hk
    apply hother
    rintro rfl
    exact hfresh.2 hk

/-! ## The walk back -/

theorem Hangs.link_eq_iff (hfs : Hangs h (fr :: fs) n) (hn : n ≠ sentinal)
    (hsibling : n ∉ fr.sibling.refs) (dir : Bool) :
    ∃ next, h.link fr.node dir = .ok next ∧ (next = n ↔ fr.dir = dir) := by
  obtain ⟨hnode, hcell, _⟩ := hfs
  have hother : fr.sibling.addr ≠ n := by
    rintro rfl
    apply hsibling
    apply addr_mem
    intro hnil
    rw [hnil] at hn
    exact hn rfl
  refine ⟨_, Nodes.link_eq hnode hcell dir, ?_⟩
  cases fr with
  | left level x b =>
      cases dir with
      | false => exact iff_of_true rfl rfl
      | true => exact iff_of_false hother (by simp [Frame.dir])
  | right level a x =>
      cases dir with
      | false => exact iff_of_false hother (by simp [Frame.dir])
      | true => exact iff_of_true rfl rfl

/-- Walking back mends every tree on the path. -/
theorem walkBack_plug {fix : Nodes δ → NodeRef → Except MapFault (Nodes δ × NodeRef)}
    {f : MapNode (Entry δ) → MapNode (Entry δ)} (hfix : Nodes.Mends fix f)
    (hpos : ∀ t : MapNode (Entry δ), t.Positive → (f t).Positive)
    (hlist : ∀ t : MapNode (Entry δ), (f t).toList = t.toList) {m : NodeMap δ}
    (hlaid : (plug (fr :: fs) t).Laid m.nodes) (hnodup : (plug (fr :: fs) t).refs.Nodup)
    (hpositive : (plug (fr :: fs) t).Positive) :
    ∃ h', NodeMap.walkBack fix ((fr :: fs).map Frame.node) m =
        .ok { m with nodes := h', root := (climb f (fr :: fs) t).addr } ∧
      Becomes m.nodes h' (plug (fr :: fs) t) (climb f (fr :: fs) t) := by
  induction fs generalizing fr t m with
  | nil =>
      obtain ⟨h', hrun, hbecomes⟩ := hfix m.nodes (fr.fill t) hlaid hnodup hpositive
      rw [addr_fill] at hrun
      refine ⟨h', ?_, hbecomes⟩
      rw [List.map_cons, List.map_nil, NodeMap.walkBack, hrun]
      rfl
  | cons parent fs ih =>
      -- the tree of `fr`, in what is above it
      rw [plug_cons] at hlaid hnodup hpositive
      have hperm := refs_plug (parent :: fs) (fr.fill t)
      have hsplit := hperm.nodup_iff.mp hnodup
      obtain ⟨htop, habove, hdisjoint⟩ := List.nodup_append.mp hsplit
      obtain ⟨htree, hhangs⟩ := laid_plug.mp hlaid
      have htreepos : (fr.fill t).Positive := Positive.of_plug hpositive
      obtain ⟨h₁, hrun, hbecomes⟩ := hfix m.nodes (fr.fill t) htree htop htreepos
      have hmem : fr.node ∈ (fr.fill t).refs := by
        rw [refs_fill.mem_iff, List.mem_append]
        exact .inr List.mem_cons_self
      rw [addr_fill] at hhangs hrun
      obtain ⟨right, hlink, hright⟩ := hhangs.link_eq_iff (htree.ne_sentinal hmem)
        (fun hsibling => hdisjoint _ hmem _
          (List.mem_cons_of_mem _ (List.mem_append_left _ hsibling)) rfl) true
      have hdir : decide (right = fr.node) = parent.dir := by
        rw [Bool.eq_iff_iff, decide_eq_true_iff]
        exact hright
      have hhangs₁ : Hangs h₁ (parent :: fs) fr.node :=
        hhangs.congr fun k hk => hbecomes.other k fun hk' => hdisjoint k hk' k hk rfl
      obtain ⟨h₂, hset, hhangs₂, hother⟩ := hhangs₁.setLink habove (f (fr.fill t)).addr
      have hlaid₂ : (plug (parent :: fs) (f (fr.fill t))).Laid h₂ := by
        refine laid_plug.mpr ⟨hbecomes.laid.congr ?_, hhangs₂⟩
        intro k hk
        apply hother
        rintro rfl
        rw [hbecomes.refs] at hk
        exact hdisjoint _ hk _ List.mem_cons_self rfl
      have hrefs : (plug (parent :: fs) (f (fr.fill t))).refs.Perm
          (plug (parent :: fs) (fr.fill t)).refs := by
        refine (refs_plug _ _).trans (List.Perm.trans ?_ hperm.symm)
        rw [hbecomes.refs]
      obtain ⟨h', hwalk, hfinal⟩ := ih (m := { m with nodes := h₂ }) hlaid₂
        (hrefs.nodup_iff.mpr hnodup) (hpositive.plug_congr (hpos _ htreepos))
      refine ⟨h', ?_, hfinal.laid, ?_, ?_⟩
      · simp only [List.map_cons, NodeMap.walkBack, hlink, hdir, hrun, hset, MapFault.ok_bind]
        exact hwalk
      · apply refs_of_toList
        rw [toList_climb hlist, toList_plug]
      · intro k hk
        rw [plug_cons] at hk
        have hk' := mt hrefs.mem_iff.mp hk
        rw [hfinal.other k hk']
        rw [hperm.mem_iff, List.mem_append, not_or] at hk
        rw [← hbecomes.other k hk.1]
        apply hother
        rintro rfl
        exact hk.2 List.mem_cons_self

end MapNode

/-! ## The searches -/

namespace NodeMap

open MapNode

variable {h : Nodes δ} {t : MapNode (Entry δ)} {cmp : δ → δ → ℤ}

/-- The callback on elements with their nodes. -/
def keyed (cmp : δ → δ → ℤ) (x y : Entry δ) : ℤ := cmp x.2 y.2

/-- The spot that a search of the tree ends at. -/
def spotOf : List (Frame (Entry δ)) × MapNode (Entry δ) → Spot
  | (_, .node _ _ x _) => .found x.1
  | (fr :: fs, .nil) => .place fr.node fr.dir ((fr :: fs).map Frame.node)
  | ([], .nil) => .place sentinal false []

theorem spot_laid (ht : t.Laid h) (hne : t ≠ .nil) (d : Entry δ) (room : Nat)
    (gs : List (Frame (Entry δ))) :
    spot cmp h d.2 room t.addr (gs.map Frame.node) =
      if room < t.searchPath (keyed cmp) d then .error .overrun
      else .ok (spotOf (seek (keyed cmp) d gs t)) := by
  induction t generalizing room gs with
  | nil => exact (hne rfl).elim
  | node level a x b iha ihb =>
      obtain ⟨hx, hcell, ha, hb⟩ := ht
      have hdata : h.data x.1 = .ok x.2 := Nodes.data_eq hx hcell
      have hlink := Nodes.link_eq hx hcell
      cases room with
      | zero =>
          rw [if_pos (by rw [searchPath]; omega)]
          rfl
      | succ room =>
          -- one step down, to a child that is there or not
          have hstep : ∀ (dir : Bool) (s : MapNode (Entry δ)) (fr : Frame (Entry δ)),
              fr.dir = dir → fr.node = x.1 →
              (s ≠ .nil → spot cmp h d.2 room s.addr ((fr :: gs).map Frame.node) =
                if room < s.searchPath (keyed cmp) d then .error .overrun
                else .ok (spotOf (seek (keyed cmp) d (fr :: gs) s))) →
              s.Laid h →
              (if s.addr = sentinal then
                  (.ok (.place x.1 dir (x.1 :: gs.map Frame.node)) : Except MapFault Spot)
                else spot cmp h d.2 room s.addr (x.1 :: gs.map Frame.node)) =
                if room < s.searchPath (keyed cmp) d then .error .overrun
                else .ok (spotOf (seek (keyed cmp) d (fr :: gs) s)) := by
            rintro dir s fr rfl hnode ih hs
            rw [← hnode]
            by_cases hnil : s = .nil
            · subst hnil
              have hend : (MapNode.nil : MapNode (Entry δ)).addr = sentinal := rfl
              rw [if_pos hend]
              rfl
            · rw [if_neg (mt hs.addr_eq_sentinal.mp hnil)]
              exact ih hnil
          have hroom : ∀ k, room + 1 < 1 + k ↔ room < k := by omega
          simp only [addr_node, spot, hdata, MapFault.ok_bind, searchPath, seek, keyed, hroom]
          by_cases heq : cmp x.2 d.2 = 0
          · simp only [heq, if_true, spotOf, if_neg (Nat.not_lt_zero room)]
          · simp only [heq, if_false, hlink, MapFault.ok_bind]
            by_cases hlt : cmp x.2 d.2 < 0
            · simp only [hlt, decide_true, if_true, NodeCell.link]
              exact hstep true b (.right level a x) rfl rfl
                (fun hnil => ihb hb hnil room (.right level a x :: gs)) hb
            · simp only [hlt, decide_false, if_false, NodeCell.link]
              exact hstep false a (.left level x b) rfl rfl
                (fun hnil => iha ha hnil room (.left level x b :: gs)) ha

/-- The link that the last frame hangs at; `dir` is 0 before the first step. -/
def lastDir : List (Frame (Entry δ)) → Bool
  | [] => false
  | fr :: _ => fr.dir

/-- What a search of the tree hits, with `room` free entries left. -/
def hitOf (room : Nat) : List (Frame (Entry δ)) × MapNode (Entry δ) → Option Hit
  | (fs, .node _ _ x _) => some ⟨x.1, lastDir fs, fs.map Frame.node, room⟩
  | (_, .nil) => none

/-- How many entries the search of `map_remove` saves. -/
def hitPath (cmp : δ → δ → ℤ) (d : Entry δ) (t : MapNode (Entry δ)) : Nat :=
  t.searchPath (keyed cmp) d + if (t.find (keyed cmp) d).isNone then 1 else 0

theorem hit_laid (ht : t.Laid h) (d : Entry δ) (room : Nat) (gs : List (Frame (Entry δ))) :
    hit cmp h d.2 room t.addr (lastDir gs) (gs.map Frame.node) =
      if room < hitPath cmp d t then .error .overrun
      else .ok (hitOf (room - hitPath cmp d t) (seek (keyed cmp) d gs t)) := by
  induction t generalizing room gs with
  | nil =>
      cases room with
      | zero => rfl
      | succ room => rfl
  | node level a x b iha ihb =>
      obtain ⟨hx, hcell, ha, hb⟩ := ht
      have hdata : h.data x.1 = .ok x.2 := Nodes.data_eq hx hcell
      have hlink := Nodes.link_eq hx hcell
      cases room with
      | zero =>
          rw [if_pos (by rw [hitPath, searchPath]; omega)]
          rfl
      | succ room =>
          have hroom : ∀ k, room + 1 < 1 + k ↔ room < k := by omega
          have hrest : ∀ k, room + 1 - (1 + k) = room - k := by omega
          simp only [addr_node, hit, if_neg hx, hdata, MapFault.ok_bind, hitPath, searchPath,
            MapNode.find, seek, keyed]
          by_cases heq : cmp x.2 d.2 = 0
          · have hfits : ¬ room + 1 < 1 := by omega
            simp only [heq, if_true, Option.isNone_some, Bool.false_eq_true, if_false, hitOf,
              Nat.add_zero, hfits, Nat.add_sub_cancel]
          · simp only [heq, if_false, hlink, MapFault.ok_bind]
            by_cases hlt : cmp x.2 d.2 < 0
            · simp only [hlt, decide_true, if_true, NodeCell.link, Nat.add_assoc, hroom, hrest]
              exact ihb hb room (.right level a x :: gs)
            · simp only [hlt, decide_false, if_false, NodeCell.link, Nat.add_assoc, hroom, hrest]
              exact iha ha room (.left level x b :: gs)

theorem length_le_outermost (dir : Bool) (gs : List (Frame (Entry δ)))
    (t : MapNode (Entry δ)) : gs.length ≤ (outermost dir gs t).1.length := by
  induction t generalizing gs with
  | nil => exact Nat.le_refl _
  | node level a x b iha ihb =>
      cases dir
      · rw [outermost]
        split
        · exact Nat.le_refl _
        · exact Nat.le_of_succ_le (iha (.left level x b :: gs))
      · rw [outermost]
        split
        · exact Nat.le_refl _
        · exact Nat.le_of_succ_le (ihb (.right level a x :: gs))

theorem slide_laid (dir : Bool) (ht : t.Laid h) (room : Nat) (gs : List (Frame (Entry δ))) :
    slide h dir room t.addr (gs.map Frame.node) =
      if gs.length + room < (outermost dir gs t).1.length then .error .overrun
      else .ok ⟨(outermost dir gs t).2.addr, (outermost dir gs t).1.map Frame.node⟩ := by
  induction t generalizing room gs with
  | nil =>
      rw [if_neg (by simp [outermost])]
      cases room <;> rfl
  | node level a x b iha ihb =>
      obtain ⟨hx, hcell, ha, hb⟩ := ht
      -- one step down, to a child that is there or not
      have hstep : ∀ (s : MapNode (Entry δ)) (fr : Frame (Entry δ)), fr.node = x.1 →
          s.Laid h → h.link x.1 dir = .ok s.addr →
          (∀ room, slide h dir room s.addr ((fr :: gs).map Frame.node) =
            if (fr :: gs).length + room < (outermost dir (fr :: gs) s).1.length then
              .error .overrun
            else .ok ⟨(outermost dir (fr :: gs) s).2.addr,
              (outermost dir (fr :: gs) s).1.map Frame.node⟩) →
          slide h dir room x.1 (gs.map Frame.node) =
            if s.isNil then .ok ⟨x.1, gs.map Frame.node⟩
            else if gs.length + room < (outermost dir (fr :: gs) s).1.length then
              .error .overrun
            else .ok ⟨(outermost dir (fr :: gs) s).2.addr,
              (outermost dir (fr :: gs) s).1.map Frame.node⟩ := by
        intro s fr hnode hs hlink ih
        rw [slide, hlink, MapFault.ok_bind]
        simp only [hs.addr_eq_sentinal, ← isNil_iff]
        by_cases hnil : s.isNil
        · rw [if_pos hnil, if_pos hnil]
        · rw [if_neg hnil, if_neg hnil]
          cases room with
          | zero =>
              have hlength := length_le_outermost dir (fr :: gs) s
              rw [List.length_cons] at hlength
              rw [if_pos (by omega)]
          | succ room =>
              have hroom : (fr :: gs).length + room = gs.length + (room + 1) := by
                rw [List.length_cons]
                omega
              have hnext := ih room
              rw [hroom, List.map_cons, hnode] at hnext
              exact hnext
      have hkept : ¬ gs.length + room < gs.length := by omega
      cases dir with
      | false =>
          rw [addr_node, hstep a (.left level x b) rfl ha (Nodes.link_eq hx hcell false)
            (fun room => iha ha room (.left level x b :: gs)), outermost]
          by_cases hnil : a.isNil
          · simp only [if_pos hnil, if_neg hkept, addr_node]
          · simp only [if_neg hnil]
      | true =>
          rw [addr_node, hstep b (.right level a x) rfl hb (Nodes.link_eq hx hcell true)
            (fun room => ihb hb room (.right level a x :: gs)), outermost]
          by_cases hnil : b.isNil
          · simp only [if_pos hnil, if_neg hkept, addr_node]
          · simp only [if_neg hnil]

theorem slide_path_ne_nil {dir : Bool} {room : Nat} {it : NodeRef} {path : NodePath}
    {cur : Cursor} (hpath : path ≠ []) (hslide : slide h dir room it path = .ok cur) :
    cur.path ≠ [] := by
  induction room generalizing it path with
  | zero =>
      rw [slide] at hslide
      cases hlink : h.link it dir with
      | error fault =>
          rw [hlink] at hslide
          cases hslide
      | ok next =>
          simp only [hlink, MapFault.ok_bind] at hslide
          split at hslide
          · cases hslide
            exact hpath
          · cases hslide
  | succ room ih =>
      rw [slide] at hslide
      cases hlink : h.link it dir with
      | error fault =>
          rw [hlink] at hslide
          cases hslide
      | ok next =>
          simp only [hlink, MapFault.ok_bind] at hslide
          split at hslide
          · cases hslide
            exact hpath
          · exact ih (by simp) hslide

/-- The search for the heir goes down the left side; the node before the heir is the last one
on the path. -/
theorem heir_eq_slide (h : Nodes δ) (room : Nat) (node prev : NodeRef) (path : NodePath) :
    heir h room node prev (prev :: path) =
      (slide h false room node (prev :: path)).map
        fun cur => (cur.it, cur.path.headD prev, cur.path) := by
  induction room generalizing node prev path with
  | zero =>
      rw [heir, slide]
      cases h.link node false with
      | error fault => rfl
      | ok left =>
          simp only [MapFault.ok_bind]
          split <;> rfl
  | succ room ih =>
      rw [heir, slide]
      cases h.link node false with
      | error fault => rfl
      | ok left =>
          simp only [MapFault.ok_bind]
          split
          · rfl
          · rw [ih]
            cases hslide : slide h false room left (node :: prev :: path) with
            | error fault => rfl
            | ok cur =>
                have hne := slide_path_ne_nil (by simp) hslide
                obtain ⟨top, rest, htop⟩ := List.exists_cons_of_ne_nil hne
                simp only [MapFault.map_ok, htop, List.headD_cons]

end NodeMap

end Casting
