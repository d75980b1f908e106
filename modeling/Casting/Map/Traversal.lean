import Casting.Map.Contents
import Mathlib.Data.List.Chain

/-!
# Traversal of a map

The places of a tree in order are a chain of `map_next` one way and of `map_prev` the other way.
A cursor goes along it as long as no entry has more than `HEIGHT_LIMIT` others above it; before
a deeper one it writes behind its path array.
-/

namespace Casting

open MapNode Transition

/-! ## Places in order -/

section Places

variable {α : Type} {fs : List (Frame α)} {t s : MapNode α} {p q : Place α}

def placesFrom : List (Frame α) → MapNode α → List (Place α)
  | _, .nil => []
  | fs, .node level a x b =>
      placesFrom (.left level x b :: fs) a ++
        (fs, .node level a x b) :: placesFrom (.right level a x :: fs) b

def places (t : MapNode α) : List (Place α) := placesFrom [] t

/-- `q` comes right after `p`. -/
def Adjacent (p q : Place α) : Prop := next true p = some q ∧ next false q = some p

theorem head?_placesFrom (ht : t ≠ .nil) :
    (placesFrom fs t).head? = some (outermost false fs t) := by
  induction t generalizing fs with
  | nil => exact (ht rfl).elim
  | node level a x b iha ihb =>
      rw [placesFrom, outermost, List.head?_append]
      by_cases ha : a = .nil
      · rw [if_pos (isNil_iff.mpr ha), ha]
        rfl
      · rw [if_neg (mt isNil_iff.mp ha), iha ha]
        rfl

theorem getLast?_placesFrom (ht : t ≠ .nil) :
    (placesFrom fs t).getLast? = some (outermost true fs t) := by
  induction t generalizing fs with
  | nil => exact (ht rfl).elim
  | node level a x b iha ihb =>
      rw [placesFrom, outermost, List.getLast?_append, List.getLast?_cons]
      by_cases hb : b = .nil
      · rw [if_pos (isNil_iff.mpr hb), hb]
        rfl
      · rw [if_neg (mt isNil_iff.mp hb), ihb hb]
        rfl

/-- Before the first place of a subtree and behind its last one `move` goes up. -/
theorem next_outermost (dir : Bool) (ht : t ≠ .nil) :
    next dir (outermost dir fs t) = ascend dir fs t := by
  induction t generalizing fs with
  | nil => exact (ht rfl).elim
  | node level a x b iha ihb =>
      cases dir with
      | false =>
          rw [outermost]
          by_cases ha : a = .nil
          · rw [if_pos (isNil_iff.mpr ha), next, if_pos (isNil_iff.mpr ha)]
          · rw [if_neg (mt isNil_iff.mp ha), iha ha, ascend]
            exact if_pos rfl
      | true =>
          rw [outermost]
          by_cases hb : b = .nil
          · rw [if_pos (isNil_iff.mpr hb), next, if_pos (isNil_iff.mpr hb)]
          · rw [if_neg (mt isNil_iff.mp hb), ihb hb, ascend]
            exact if_pos rfl

theorem next_outermost_left {level : ℤ} {a b : MapNode α} {x : α} (ha : a ≠ .nil) :
    Adjacent (outermost true (.left level x b :: fs) a) (fs, .node level a x b) := by
  constructor
  · rw [next_outermost true ha, ascend]
    exact if_neg Bool.false_ne_true
  · rw [next, if_neg (mt isNil_iff.mp ha)]

theorem next_outermost_right {level : ℤ} {a b : MapNode α} {x : α} (hb : b ≠ .nil) :
    Adjacent (fs, .node level a x b) (outermost false (.right level a x :: fs) b) := by
  constructor
  · rw [next, if_neg (mt isNil_iff.mp hb)]
  · rw [next_outermost false hb, ascend]
    exact if_neg Bool.false_ne_true.symm

theorem adjacent_placesFrom (fs : List (Frame α)) (t : MapNode α) :
    (placesFrom fs t).IsChain Adjacent := by
  induction t generalizing fs with
  | nil => exact .nil
  | node level a x b iha ihb =>
      rw [placesFrom, List.isChain_append, List.isChain_cons]
      refine ⟨iha _, ⟨?_, ihb _⟩, ?_⟩
      · intro q hq
        have hb : b ≠ .nil := by
          rintro rfl
          cases hq
        rw [head?_placesFrom hb] at hq
        cases hq
        exact next_outermost_right hb
      · rintro p hp q ⟨⟩
        have ha : a ≠ .nil := by
          rintro rfl
          cases hp
        rw [getLast?_placesFrom ha] at hp
        cases hp
        exact next_outermost_left ha

def Place.entry : Place α → Option α
  | (_, .nil) => none
  | (_, .node _ _ x _) => some x

theorem map_entry_placesFrom (fs : List (Frame α)) (t : MapNode α) :
    (placesFrom fs t).map Place.entry = t.toList.map some := by
  induction t generalizing fs with
  | nil => rfl
  | node level a x b iha ihb =>
      rw [placesFrom, List.map_append, List.map_cons, iha, ihb, toList, List.map_append,
        List.map_cons]
      rfl

theorem at_of_mem_placesFrom (hp : p ∈ placesFrom fs s) (hplug : plug fs s = t) : At t p := by
  induction s generalizing fs with
  | nil => cases hp
  | node level a x b iha ihb =>
      rw [placesFrom, List.mem_append, List.mem_cons] at hp
      rcases hp with hp | rfl | hp
      · exact iha hp hplug
      · exact ⟨hplug, by simp⟩
      · exact ihb hp hplug

theorem mem_placesFrom (gs fs : List (Frame α)) (hs : s ≠ .nil) :
    (fs ++ gs, s) ∈ placesFrom gs (plug fs s) := by
  induction fs using List.reverseRecOn generalizing gs with
  | nil =>
      cases s with
      | nil => exact (hs rfl).elim
      | node level a x b =>
          rw [plug_nil, placesFrom]
          exact List.mem_append_right _ List.mem_cons_self
  | append_singleton fs fr ih =>
      have hinner := ih (fr :: gs)
      rw [plug_append, plug_cons, plug_nil, List.append_assoc, List.singleton_append]
      cases fr with
      | left level x b => exact List.mem_append_left _ hinner
      | right level a x => exact List.mem_append_right _ (List.mem_cons_of_mem _ hinner)

theorem mem_places : p ∈ places t ↔ At t p := by
  constructor
  · intro hp
    exact at_of_mem_placesFrom hp rfl
  · intro ⟨hplug, hne⟩
    have hmem := mem_placesFrom [] p.1 hne
    rw [List.append_nil, hplug] at hmem
    exact hmem

/-! ### Walking along a chain -/

theorem bind_getElem? {f : Place α → Option (Place α)} {ps : List (Place α)}
    (hchain : ps.IsChain fun p q => f p = some q) (hlast : ∀ p ∈ ps.getLast?, f p = none)
    (k : Nat) : ps[k]?.bind f = ps[k + 1]? := by
  rcases Nat.lt_trichotomy (k + 1) ps.length with hlt | heq | hgt
  · rw [List.getElem?_eq_getElem (Nat.lt_of_succ_lt hlt), List.getElem?_eq_getElem hlt]
    exact hchain.getElem k hlt
  · rw [List.getElem?_eq_none (Nat.le_of_eq heq.symm)]
    have hget : ps.getLast? = ps[k]? := by
      rw [List.getLast?_eq_getElem?, ← heq, Nat.add_sub_cancel]
    cases hp : ps[k]? with
    | none => rfl
    | some p => exact hlast p (hget.trans hp)
  · rw [List.getElem?_eq_none (by omega), List.getElem?_eq_none (by omega)]
    rfl

/-- The places, as `map_next` or as `map_prev` goes through them. -/
def inDirection (dir : Bool) (ps : List (Place α)) : List (Place α) :=
  if dir then ps else ps.reverse

theorem chain_inDirection (dir : Bool) (t : MapNode α) :
    (inDirection dir (places t)).IsChain fun p q =>
      next dir p = some q ∧ next (!dir) q = some p := by
  have hchain := adjacent_placesFrom [] t
  cases dir with
  | false =>
      refine List.isChain_reverse.mpr (hchain.imp ?_)
      intro p q ⟨hpq, hqp⟩
      exact ⟨hqp, hpq⟩
  | true => exact hchain

theorem inDirection_ends (dir : Bool) (t : MapNode α) :
    (∀ p ∈ (inDirection dir (places t)).getLast?, next dir p = none) := by
  by_cases ht : t = .nil
  · subst ht
    cases dir <;> simp [inDirection, places, placesFrom]
  · have hends : (inDirection dir (places t)).getLast? = some (outermost dir [] t) := by
      cases dir with
      | false =>
          rw [inDirection, if_neg Bool.false_ne_true, List.getLast?_reverse]
          exact head?_placesFrom ht
      | true => exact getLast?_placesFrom ht
    rw [hends]
    rintro p ⟨⟩
    rw [next_outermost dir ht]
    rfl

/-- A move back returns to the place that a move came from. -/
theorem next_back {dir : Bool} (hp : At t p) (hnext : next dir p = some q) :
    next (!dir) q = some p := by
  have hmem : p ∈ inDirection dir (places t) := by
    cases dir with
    | false => exact List.mem_reverse.mpr (mem_places.mpr hp)
    | true => exact mem_places.mpr hp
  obtain ⟨k, hk, rfl⟩ := List.mem_iff_getElem.mp hmem
  have hchain := chain_inDirection dir t
  have hgo := bind_getElem? (hchain.imp fun _ _ h => h.1) (inDirection_ends dir t) k
  rw [List.getElem?_eq_getElem hk, Option.bind_some, hnext] at hgo
  obtain ⟨hk', rfl⟩ := List.getElem?_eq_some_iff.mp hgo.symm
  exact (hchain.getElem k hk').2

end Places

namespace NodeMap

variable {δ : Type} {κ : Type*} [LinearOrder κ] {key : δ → κ} {m : NodeMap δ}
  {t : MapNode (Entry δ)}

theorem startAt_eq (dir : Bool) (t : MapNode (Entry δ)) :
    startAt (!dir) t = (inDirection dir (places t))[0]? := by
  rw [← List.head?_eq_getElem?, startAt]
  by_cases ht : t = .nil
  · subst ht
    cases dir <;> rfl
  · rw [if_neg (mt isNil_iff.mp ht)]
    cases dir with
    | false =>
        rw [inDirection, if_neg Bool.false_ne_true, List.head?_reverse]
        exact (getLast?_placesFrom ht).symm
    | true => exact (head?_placesFrom ht).symm

theorem travelAt_replicate (dir : Bool) (k : Nat) (t : MapNode (Entry δ)) :
    travelAt (!dir) (List.replicate k dir) t = (inDirection dir (places t))[k]? := by
  induction k with
  | zero => exact startAt_eq dir t
  | succ k ih =>
      rw [List.replicate_succ', travelAt_append, ih]
      exact bind_getElem? ((chain_inDirection dir t).imp fun _ _ h => h.1)
        (inDirection_ends dir t) k

/-! ## Cursors -/

/-- What the last call of a walk with a cursor returns. -/
def visit (m : NodeMap δ) (dir : Bool) (dirs : List Bool) : Except MapFault (Option δ) := do
  let cur ← m.travel dir dirs
  cur.value m.nodes

/-- Cursors and `map_ordered` go through the entries `es`, and a step back returns. -/
structure Traverses (m : NodeMap δ) (es : List (Entry δ)) : Prop where
  ordered : ∃ bound, ∀ depth, bound ≤ depth → m.ordered depth = .ok (es.map Prod.snd)
  forward : ∀ k, m.visit false (List.replicate k true) = .ok (es[k]?.map Prod.snd)
  backward : ∀ k, m.visit true (List.replicate k false) = .ok (es.reverse[k]?.map Prod.snd)
  returns : ∀ dir dirs d, ∃ cur next, m.travel dir dirs = .ok cur ∧ m.move cur d = .ok next ∧
    (next.it ≠ sentinal → m.move next (!d) = .ok cur)

def TraversesInOrder (key : δ → κ) (m : NodeMap δ) : Prop :=
  ∃ es, m.InOrder key es ∧ m.Traverses es

/-- The entry is linked to the root, with so many entries above it. -/
inductive Under (m : NodeMap δ) : Nat → NodeRef → Prop
  | root (hne : m.root ≠ sentinal) : m.Under 0 m.root
  | link {above : Nat} {n target : NodeRef} {dir : Bool} (hn : m.Under above n)
      (hlink : m.nodes.link n dir = .ok target) (hne : target ≠ sentinal) :
      m.Under (above + 1) target

/-- No entry has more than `HEIGHT_LIMIT` entries above it. -/
def Shallow (m : NodeMap δ) : Prop := ∀ above n, m.Under above n → above ≤ heightLimit

theorem Holds.under_of_at (ht : m.Holds t) {fs : List (Frame (Entry δ))} {s : MapNode (Entry δ)}
    (hplace : At t (fs, s)) : m.Under fs.length s.addr := by
  induction fs generalizing s with
  | nil =>
      obtain ⟨hplug, hne⟩ := hplace
      rw [plug_nil] at hplug
      subst hplug
      rw [← ht.root]
      exact .root (mt ht.root_eq_sentinal.mp hne)
  | cons fr fs ih =>
      obtain ⟨hplug, hne⟩ := hplace
      rw [plug_cons] at hplug
      have habove := ih ⟨hplug, fill_ne_nil fr s⟩
      have hlaid := ht.laid
      rw [← hplug] at hlaid
      have hnode := (laid_plug.mp hlaid).1
      cases fr with
      | left level x b =>
          obtain ⟨hx, hcell, hs, _⟩ := hnode
          exact habove.link (Nodes.link_eq hx hcell false) (mt hs.addr_eq_sentinal.mp hne)
      | right level a x =>
          obtain ⟨hx, hcell, _, hs⟩ := hnode
          exact habove.link (Nodes.link_eq hx hcell true) (mt hs.addr_eq_sentinal.mp hne)

theorem Holds.at_of_under (ht : m.Holds t) {above : Nat} {n : NodeRef} (hn : m.Under above n) :
    ∃ fs s, At t (fs, s) ∧ fs.length = above ∧ s.addr = n := by
  induction hn with
  | root hne => exact ⟨[], t, ⟨rfl, mt ht.root_eq_sentinal.mpr hne⟩, rfl, ht.root.symm⟩
  | @link above n target dir hn hlink hne ih =>
      obtain ⟨fs, s, ⟨hplug, hs⟩, hlength, haddr⟩ := ih
      have hlaid := ht.laid
      rw [← hplug] at hlaid
      have hnode := (laid_plug.mp hlaid).1
      cases s with
      | nil => exact (hs rfl).elim
      | node level a x b =>
          obtain ⟨hx, hcell, ha, hb⟩ := hnode
          rw [← haddr, addr_node, Nodes.link_eq hx hcell] at hlink
          cases dir with
          | false =>
              cases hlink
              exact ⟨.left level x b :: fs, a, ⟨hplug, mt ha.addr_eq_sentinal.mpr hne⟩,
                congrArg Nat.succ hlength, rfl⟩
          | true =>
              cases hlink
              exact ⟨.right level a x :: fs, b, ⟨hplug, mt hb.addr_eq_sentinal.mpr hne⟩,
                congrArg Nat.succ hlength, rfl⟩

theorem Holds.shallow_iff (ht : m.Holds t) :
    m.Shallow ↔ ∀ p, At t p → p.1.length ≤ heightLimit := by
  constructor
  · intro hshallow p hp
    exact hshallow _ _ (ht.under_of_at hp)
  · intro hfits above n hn
    obtain ⟨fs, s, hplace, hlength, _⟩ := ht.at_of_under hn
    rw [← hlength]
    exact hfits _ hplace

/-- Fewer than `2 ^ 33 - 1` entries make at most 32 levels of at most two nodes on a path. -/
theorem Holds.shallow_of_few (ht : m.Holds t) (hfew : m.entries.ncard < 2 ^ 33 - 1) :
    m.Shallow := by
  obtain ⟨n, hbalanced⟩ := ht.balanced
  have hpow := hbalanced.pow_le
  have htall := hbalanced.height_le
  rw [ht.ncard_entries] at hfew
  have hsmall : 2 ^ n < 2 ^ 33 := by omega
  have hlevels : n < 33 := (Nat.pow_lt_pow_iff_right (by decide)).mp hsmall
  rw [ht.shallow_iff]
  intro p hp
  have hlength := height_plug p.1 p.2
  rw [hp.1] at hlength
  rw [heightLimit]
  omega

theorem value_of (ht : m.Holds t) {place : Option (Place (Entry δ))}
    (hplace : ∀ p ∈ place, At t p) :
    (Cursor.of place).value m.nodes = .ok ((place.bind Place.entry).map Prod.snd) := by
  cases place with
  | none => rfl
  | some p =>
      obtain ⟨fs, s⟩ := p
      obtain ⟨hplug, hne⟩ := hplace _ rfl
      have hlaid := ht.laid
      rw [← hplug] at hlaid
      have hnode := (laid_plug.mp hlaid).1
      cases s with
      | nil => exact (hne rfl).elim
      | node level a x b =>
          obtain ⟨hx, hcell, _⟩ := hnode
          have hdata : m.nodes.data x.1 = .ok x.2 := Nodes.data_eq hx hcell
          rw [Cursor.value, Cursor.of, addr_node, if_neg hx, hdata]
          rfl

theorem entry_inDirection (dir : Bool) (k : Nat) :
    (inDirection dir (places t))[k]?.bind Place.entry =
      (if dir then t.toList else t.toList.reverse)[k]? := by
  have hmap : (inDirection dir (places t)).map Place.entry =
      (if dir then t.toList else t.toList.reverse).map some := by
    cases dir with
    | false => simp [inDirection, places, map_entry_placesFrom]
    | true => exact map_entry_placesFrom [] t
  have hget := congrArg (fun l : List (Option (Entry δ)) => l[k]?) hmap
  simp only [List.getElem?_map] at hget
  cases hplace : (inDirection dir (places t))[k]? with
  | none =>
      rw [hplace] at hget
      exact (Option.map_eq_none_iff.mp hget.symm).symm
  | some p =>
      rw [hplace] at hget
      cases hentry : (if dir then t.toList else t.toList.reverse)[k]? with
      | none =>
          rw [hentry] at hget
          cases hget
      | some e =>
          rw [hentry] at hget
          exact Option.some.inj hget

theorem visit_replicate (ht : m.Holds t) (hfits : ∀ p, At t p → p.1.length ≤ heightLimit)
    (dir : Bool) (k : Nat) :
    m.visit (!dir) (List.replicate k dir) =
      .ok ((if dir then t.toList else t.toList.reverse)[k]?.map Prod.snd) := by
  rw [visit, travel_of_fits ht hfits, MapFault.ok_bind, value_of ht fun p => at_travelAt,
    travelAt_replicate, entry_inDirection]

theorem returns_of_fits (ht : m.Holds t) (hfits : ∀ p, At t p → p.1.length ≤ heightLimit)
    (dir : Bool) (dirs : List Bool) (d : Bool) :
    ∃ cur next, m.travel dir dirs = .ok cur ∧ m.move cur d = .ok next ∧
      (next.it ≠ sentinal → m.move next (!d) = .ok cur) := by
  refine ⟨Cursor.of (travelAt dir dirs t), Cursor.of (travelAt dir (dirs ++ [d]) t),
    travel_of_fits ht hfits dir dirs, ?_, ?_⟩
  · rw [move_arrived ht fun p hp => hfits p (at_travelAt hp)]
    exact arrive_eq_ok.mpr ⟨fun p hp => hfits p (at_travelAt hp), rfl⟩
  · intro hnext
    cases hplace : travelAt dir (dirs ++ [d]) t with
    | none =>
        rw [hplace] at hnext
        exact (hnext rfl).elim
    | some q =>
        have hq := at_travelAt hplace
        rw [travelAt_append] at hplace
        obtain ⟨p, hp, hnext⟩ := Option.bind_eq_some_iff.mp hplace
        rw [move_eq ht hq (hfits q hq), next_back (at_travelAt hp) hnext, hp]
        exact arrive_eq_ok.mpr ⟨fun _ h => hfits _ (at_travelAt (hp.trans h)), rfl⟩

/-- Cursors go through a sorted map exactly when it is not too deep. -/
theorem Sorted.traverses_iff (h : m.Sorted key t) : m.TraversesInOrder key ↔ m.Shallow := by
  rw [h.holds.shallow_iff]
  constructor
  · intro ⟨es, _, htraverses⟩ p hp
    obtain ⟨k, hk, rfl⟩ := List.mem_iff_getElem.mp (mem_places.mpr hp)
    have hforward := htraverses.forward k
    rw [visit] at hforward
    cases htravel : m.travel false (List.replicate k true) with
    | error fault =>
        rw [htravel] at hforward
        cases hforward
    | ok cur =>
        refine (arrive_eq_ok.mp (arrive_of_travel h.holds htravel)).1 _ ?_
        exact (travelAt_replicate true k t).trans (List.getElem?_eq_getElem hk)
  · intro hfits
    exact ⟨t.toList, h.inOrder, ⟨t.height, fun depth => ordered_eq h.holds⟩,
      visit_replicate h.holds hfits true, visit_replicate h.holds hfits false,
      returns_of_fits h.holds hfits⟩

/-- In every state of a run that builds a map, cursors go through all entries in order exactly
when no entry is too deep. -/
theorem traversesInOrder_throughout_iff {cmp : δ → δ → ℤ} (hcmp : Compares cmp key)
    (nodes : Nodes δ) (copies releases : Bool) {calls : List (NodeCall δ)}
    (hgrows : Respects step (Grows key) (init nodes cmp copies releases) calls) :
    Throughout step (fun m => m.TraversesInOrder key ↔ m.Shallow)
      (init nodes cmp copies releases) calls :=
  throughout_of_sorted (fun h => h.traverses_iff) hcmp nodes copies releases hgrows

/-- Two insertions. -/
theorem traversesInOrder_throughout_pair :
    Throughout step (fun m => m.TraversesInOrder id ↔ m.Shallow)
      (init (fun _ => none) (fun x y : ℤ => x - y) false false)
      [.insert ⟨some 1, .ok 5⟩ (some 5), .insert ⟨some 2, .ok 3⟩ (some 3)] := by
  refine traversesInOrder_throughout_iff compares_sub _ _ _
    ((sorted_init compares_sub _ _ _).respects ?_ ?_ ?_ ?_)
  · simp [toList]
  · decide
  · simp [NodeCall.Clones]
  · simp

end NodeMap

end Casting
