import Casting.Map.Operations
import Mathlib.Data.List.Induction

/-!
# Cursors

The path array of a cursor holds the nodes above its node.  Moving down pushes nodes of the tree
and moving up pops them, so the array is never fuller than the tree is tall.
-/

namespace Casting

open MapNode

variable {α δ : Type}

/-- A node of a tree: the frames above it and the tree below. -/
abbrev Place (α : Type) := List (Frame α) × MapNode α

namespace MapNode

/-- The first node above a subtree that has it on the other side than `dir`. -/
def ascend (dir : Bool) : List (Frame α) → MapNode α → Option (Place α)
  | [], _ => none
  | fr :: fs, t => if fr.dir = dir then ascend dir fs (fr.fill t) else some (fs, fr.fill t)

/-- The next node on the side `dir`, in order. -/
def next (dir : Bool) : Place α → Option (Place α)
  | (_, .nil) => none
  | (fs, .node level a x b) =>
      match dir with
      | false =>
          if a.isNil then ascend false fs (.node level a x b)
          else some (outermost true (.left level x b :: fs) a)
      | true =>
          if b.isNil then ascend true fs (.node level a x b)
          else some (outermost false (.right level a x :: fs) b)

def At (t : MapNode α) (place : Place α) : Prop :=
  plug place.1 place.2 = t ∧ place.2 ≠ .nil

variable {fs : List (Frame α)} {t s : MapNode α} {place : Place α} {dir : Bool}

theorem fill_ne_nil (fr : Frame α) (t : MapNode α) : fr.fill t ≠ .nil := by
  cases fr <;> simp [Frame.fill]

theorem at_outermost (hs : s ≠ .nil) (hplug : plug fs s = t) : At t (outermost dir fs s) := by
  refine ⟨(plug_outermost dir fs s).trans hplug, ?_⟩
  clear hplug
  induction s generalizing fs with
  | nil => exact (hs rfl).elim
  | node level a x b iha ihb =>
      cases dir
      · rw [outermost]
        split
        · simp
        · rename_i hnil
          exact iha (mt isNil_iff.mpr hnil)
      · rw [outermost]
        split
        · simp
        · rename_i hnil
          exact ihb (mt isNil_iff.mpr hnil)

theorem at_ascend (hplug : plug fs s = t) (h : ascend dir fs s = some place) : At t place := by
  induction fs generalizing s with
  | nil => cases h
  | cons fr fs ih =>
      rw [ascend] at h
      split at h
      · exact ih hplug h
      · cases h
        exact ⟨hplug, fill_ne_nil fr s⟩

theorem at_next {place' : Place α} (hplace : At t place) (h : next dir place = some place') :
    At t place' := by
  obtain ⟨fs, s⟩ := place
  obtain ⟨hplug, hne⟩ := hplace
  cases s with
  | nil => exact (hne rfl).elim
  | node level a x b =>
      cases dir with
      | false =>
          rw [next] at h
          split at h
          · exact at_ascend hplug h
          · rename_i hnil
            cases h
            exact at_outermost (mt isNil_iff.mpr hnil) hplug
      | true =>
          rw [next] at h
          split at h
          · exact at_ascend hplug h
          · rename_i hnil
            cases h
            exact at_outermost (mt isNil_iff.mpr hnil) hplug

end MapNode

namespace NodeMap

variable {m : NodeMap δ} {t : MapNode (Entry δ)} {place : Place (Entry δ)}

/-- The cursor at a place of the tree, or behind its ends. -/
def Cursor.of : Option (Place (Entry δ)) → Cursor
  | some (fs, s) => ⟨s.addr, fs.map Frame.node⟩
  | none => ⟨sentinal, []⟩

/-- The place that `map_first` or `map_last` goes to. -/
def startAt (dir : Bool) (t : MapNode (Entry δ)) : Option (Place (Entry δ)) :=
  if t.isNil then none else some (outermost dir [] t)

/-- The place after `map_first` or `map_last` and a sequence of moves. -/
def travelAt (dir : Bool) (dirs : List Bool) (t : MapNode (Entry δ)) :
    Option (Place (Entry δ)) :=
  dirs.foldl (fun place dir => place.bind (next dir)) (startAt dir t)

theorem at_startAt {dir : Bool} (h : startAt dir t = some place) : At t place := by
  rw [startAt] at h
  split at h
  · cases h
  · rename_i hnil
    cases h
    exact at_outermost (mt isNil_iff.mpr hnil) rfl

/-- What a walk to a place comes to: the path array may be too short for it. -/
def arrive (place : Option (Place (Entry δ))) : Except MapFault Cursor :=
  if ∀ p ∈ place, p.1.length ≤ heightLimit then .ok (Cursor.of place) else .error .overrun

theorem arrive_some {fs : List (Frame (Entry δ))} {s : MapNode (Entry δ)} :
    arrive (some (fs, s)) =
      if heightLimit < fs.length then .error .overrun else .ok ⟨s.addr, fs.map Frame.node⟩ := by
  simp only [arrive, Option.mem_def, Option.some.injEq, forall_eq', ← Nat.not_lt, ite_not]
  rfl

theorem arrive_eq_ok {place : Option (Place (Entry δ))} {cur : Cursor} :
    arrive place = .ok cur ↔ (∀ p ∈ place, p.1.length ≤ heightLimit) ∧ Cursor.of place = cur := by
  rw [arrive]
  split
  · rename_i hfits
    exact ⟨fun h => ⟨hfits, Except.ok.inj h⟩, fun h => congrArg Except.ok h.2⟩
  · rename_i hlong
    exact iff_of_false (by simp) fun h => hlong h.1

theorem start_eq (ht : m.Holds t) (dir : Bool) : m.start dir = arrive (startAt dir t) := by
  rw [start, startAt]
  by_cases hnil : t = .nil
  · rw [if_pos (ht.root_eq_sentinal.mpr hnil), if_pos (isNil_iff.mpr hnil),
      ht.root_eq_sentinal.mpr hnil]
    rfl
  · rw [if_neg (mt ht.root_eq_sentinal.mp hnil), if_neg (mt isNil_iff.mp hnil), ht.root]
    have hslide := slide_laid dir ht.laid heightLimit []
    rw [List.length_nil, Nat.zero_add] at hslide
    exact hslide.trans arrive_some.symm

theorem ascend_laid {h : Nodes δ} {fs : List (Frame (Entry δ))} {s : MapNode (Entry δ)}
    (hlaid : (plug fs s).Laid h) (hnodup : (plug fs s).refs.Nodup) (hs : s ≠ .nil) (dir : Bool) :
    ascend h dir s.addr (fs.map Frame.node) = .ok (Cursor.of (MapNode.ascend dir fs s)) := by
  induction fs generalizing s with
  | nil => rfl
  | cons fr fs ih =>
      have hmem : s.addr ∈ s.refs := addr_mem hs
      obtain ⟨hslaid, hhangs⟩ := laid_plug.mp hlaid
      have hdisjoint := (List.nodup_append.mp ((refs_plug _ _).nodup_iff.mp hnodup)).2.2
      obtain ⟨next, hlink, hnext⟩ := hhangs.link_eq_iff (hslaid.ne_sentinal hmem)
        (fun hsibling => hdisjoint _ hmem _
          (List.mem_cons_of_mem _ (List.mem_append_left _ hsibling)) rfl) dir
      rw [List.map_cons, ascend, hlink, MapFault.ok_bind, MapNode.ascend]
      simp only [eq_comm (a := s.addr), hnext]
      by_cases hdir : fr.dir = dir
      · rw [if_pos hdir, if_pos hdir]
        rw [plug_cons] at hlaid hnodup
        have hrest := ih hlaid hnodup (fill_ne_nil fr s)
        rw [addr_fill] at hrest
        exact hrest
      · rw [if_neg hdir, if_neg hdir]
        simp only [Cursor.of, addr_fill]

theorem ascend_fits {fs : List (Frame (Entry δ))} {s : MapNode (Entry δ)} {dir : Bool}
    (hfits : fs.length ≤ heightLimit) :
    ∀ p ∈ MapNode.ascend dir fs s, p.1.length ≤ heightLimit := by
  induction fs generalizing s with
  | nil => simp [MapNode.ascend]
  | cons fr fs ih =>
      rw [List.length_cons] at hfits
      rw [MapNode.ascend]
      split
      · exact ih (by omega)
      · rintro p ⟨⟩
        exact Nat.le_of_succ_le hfits

theorem move_down {dir : Bool} (fr : Frame (Entry δ)) {fs : List (Frame (Entry δ))}
    {c : MapNode (Entry δ)} (hfits : fs.length ≤ heightLimit) (hlaid : c.Laid m.nodes)
    (hc : c ≠ .nil) (hlink : m.nodes.link fr.node dir = .ok c.addr) :
    m.move ⟨fr.node, fs.map Frame.node⟩ dir =
      arrive (some (outermost (!dir) (fr :: fs) c)) := by
  simp only [move, hlink, MapFault.ok_bind, if_neg (mt hlaid.addr_eq_sentinal.mp hc),
    List.length_map]
  have hshort := length_le_outermost (!dir) (fr :: fs) c
  rw [List.length_cons] at hshort
  cases hroom : heightLimit - fs.length with
  | zero =>
      refine (arrive_some.trans (if_pos ?_)).symm
      omega
  | succ room =>
      have hslide := slide_laid (!dir) hlaid room (fr :: fs)
      have hroom' : (fr :: fs).length + room = heightLimit := by
        rw [List.length_cons]
        omega
      rw [hroom'] at hslide
      exact hslide.trans arrive_some.symm

theorem move_eq (ht : m.Holds t) (hplace : At t place) (hfits : place.1.length ≤ heightLimit)
    (dir : Bool) : m.move (Cursor.of (some place)) dir = arrive (next dir place) := by
  obtain ⟨fs, s⟩ := place
  obtain ⟨hplug, hne⟩ := hplace
  have hlaid := ht.laid
  have hnodup := ht.nodup
  rw [← hplug] at hlaid hnodup
  have hascend := ascend_laid hlaid hnodup hne dir
  have hfits' : ∀ p ∈ MapNode.ascend dir fs s, p.1.length ≤ heightLimit := ascend_fits hfits
  have hup := arrive_eq_ok.mpr ⟨hfits', rfl⟩
  rw [← hup] at hascend
  cases s with
  | nil => exact (hne rfl).elim
  | node level a x b =>
      obtain ⟨hx, hcell, ha, hb⟩ := (laid_plug.mp hlaid).1
      have hlink := Nodes.link_eq hx hcell
      cases dir with
      | false =>
          rw [next]
          by_cases hnil : a = .nil
          · rw [if_pos (isNil_iff.mpr hnil), ← hascend]
            subst hnil
            rw [move, Cursor.of, addr_node, hlink, MapFault.ok_bind]
            exact if_pos rfl
          · rw [if_neg (mt isNil_iff.mp hnil)]
            exact move_down (.left level x b) hfits ha hnil (hlink false)
      | true =>
          rw [next]
          by_cases hnil : b = .nil
          · rw [if_pos (isNil_iff.mpr hnil), ← hascend]
            subst hnil
            rw [move, Cursor.of, addr_node, hlink, MapFault.ok_bind]
            exact if_pos rfl
          · rw [if_neg (mt isNil_iff.mp hnil)]
            exact move_down (.right level a x) hfits hb hnil (hlink true)

theorem move_none (m : NodeMap δ) (dir : Bool) :
    m.move (Cursor.of (none : Option (Place (Entry δ)))) dir =
      .ok (Cursor.of (none : Option (Place (Entry δ)))) := rfl

theorem travelAt_append (dir : Bool) (dirs : List Bool) (d : Bool) (t : MapNode (Entry δ)) :
    travelAt dir (dirs ++ [d]) t = (travelAt dir dirs t).bind (next d) := by
  rw [travelAt, List.foldl_append]
  rfl

theorem at_travelAt {dir : Bool} {dirs : List Bool} (h : travelAt dir dirs t = some place) :
    At t place := by
  induction dirs using List.reverseRecOn generalizing place with
  | nil => exact at_startAt h
  | append_singleton dirs d ih =>
      rw [travelAt_append] at h
      obtain ⟨before, hbefore, hnext⟩ := Option.bind_eq_some_iff.mp h
      exact at_next (ih hbefore) hnext

theorem travel_nil (m : NodeMap δ) (dir : Bool) : m.travel dir [] = m.start dir := by
  rw [travel]
  cases m.start dir <;> rfl

theorem travel_append (m : NodeMap δ) (dir : Bool) (dirs : List Bool) (d : Bool) :
    m.travel dir (dirs ++ [d]) = m.travel dir dirs >>= fun cur => m.move cur d := by
  rw [travel, travel]
  cases m.start dir with
  | error fault => rfl
  | ok cur =>
      rw [MapFault.ok_bind, MapFault.ok_bind, List.foldlM_append]
      cases dirs.foldlM m.move cur with
      | error fault => rfl
      | ok cur =>
          rw [MapFault.ok_bind, MapFault.ok_bind, List.foldlM_cons]
          cases m.move cur d <;> rfl

theorem move_arrived (ht : m.Holds t) {dir : Bool} {dirs : List Bool}
    (hfits : ∀ p ∈ travelAt dir dirs t, p.1.length ≤ heightLimit) (d : Bool) :
    m.move (Cursor.of (travelAt dir dirs t)) d = arrive (travelAt dir (dirs ++ [d]) t) := by
  rw [travelAt_append]
  cases hplace : travelAt dir dirs t with
  | none => exact (move_none m d).trans (arrive_eq_ok.mpr ⟨by simp, rfl⟩).symm
  | some place => exact move_eq ht (at_travelAt hplace) (hfits place hplace) d

theorem arrive_of_travel (ht : m.Holds t) {dir : Bool} {dirs : List Bool} {cur : Cursor}
    (h : m.travel dir dirs = .ok cur) : arrive (travelAt dir dirs t) = .ok cur := by
  induction dirs using List.reverseRecOn generalizing cur with
  | nil =>
      rw [travel_nil, start_eq ht] at h
      exact h
  | append_singleton dirs d ih =>
      rw [travel_append] at h
      cases hwalk : m.travel dir dirs with
      | error fault =>
          rw [hwalk] at h
          cases h
      | ok before =>
          rw [hwalk, MapFault.ok_bind] at h
          obtain ⟨hfits, rfl⟩ := arrive_eq_ok.mp (ih hwalk)
          rw [← move_arrived ht hfits, h]

/-- In a tree without too deep places every walk ends. -/
theorem travel_of_fits (ht : m.Holds t) (hfits : ∀ p, At t p → p.1.length ≤ heightLimit)
    (dir : Bool) (dirs : List Bool) :
    m.travel dir dirs = .ok (Cursor.of (travelAt dir dirs t)) := by
  have harrive : ∀ dirs, arrive (travelAt dir dirs t) = .ok (Cursor.of (travelAt dir dirs t)) :=
    fun dirs => arrive_eq_ok.mpr ⟨fun p hp => hfits p (at_travelAt hp), rfl⟩
  induction dirs using List.reverseRecOn with
  | nil =>
      rw [travel_nil, start_eq ht]
      exact harrive []
  | append_singleton dirs d ih =>
      rw [travel_append, ih, MapFault.ok_bind,
        move_arrived ht fun p hp => hfits p (at_travelAt hp)]
      exact harrive _

theorem travel_eq (ht : m.Holds t) (hheight : t.height ≤ heightLimit) (dir : Bool)
    (dirs : List Bool) : m.travel dir dirs = .ok (Cursor.of (travelAt dir dirs t)) := by
  refine travel_of_fits ht ?_ dir dirs
  intro ⟨fs, s⟩ ⟨hplug, _⟩
  have hlength := height_plug fs s
  rw [hplug] at hlength
  exact Nat.le_trans (Nat.le_of_add_right_le hlength) hheight

end NodeMap

end Casting
