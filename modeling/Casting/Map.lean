import Casting.Error
import Mathlib.Data.List.Basic
import Mathlib.Order.Lattice

/-!
# Maps

The balanced trees of `map.c`.  A sentinel is `nil`; `link[0]` and `link[1]` of a node are its
first and second subtree.  The comparison and copy callbacks are parameters.
-/

namespace Casting

/-- `map_node_t`. -/
inductive MapNode (α : Type*)
  | nil
  | node (level : ℤ) (left : MapNode α) (data : α) (right : MapNode α)
  deriving DecidableEq, Repr

namespace MapNode

variable {α : Type*}

def level : MapNode α → ℤ
  | .nil => 0
  | .node level _ _ _ => level

/-- Remove left horizontal links. -/
def skew : MapNode α → MapNode α
  | .node level (.node level₀ a x b) y c =>
      if level₀ = level ∧ level ≠ 0 then .node level₀ a x (.node level b y c)
      else .node level (.node level₀ a x b) y c
  | t => t

/-- Remove consecutive horizontal links. -/
def split : MapNode α → MapNode α
  | .node level a x (.node level₁ b y c) =>
      if c.level = level ∧ level ≠ 0 then .node (level₁ + 1) (.node level a x b) y c
      else .node level a x (.node level₁ b y c)
  | t => t

/-- The loop of `map_find`. -/
def find (cmp : α → α → ℤ) (data : α) : MapNode α → Option α
  | .nil => none
  | .node _ a x b =>
      if cmp x data = 0 then some x
      else if cmp x data < 0 then b.find cmp data
      else a.find cmp data

/-- The descent of `map_insert` to the place of a key that is not there, and its walk back. -/
def attach (cmp : α → α → ℤ) (data : α) : MapNode α → MapNode α → MapNode α
  | .nil, leaf => leaf
  | .node level a x b, leaf =>
      if cmp x data < 0 then split (skew (.node level a x (b.attach cmp data leaf)))
      else split (skew (.node level (a.attach cmp data leaf) x b))

/-- The descent of `map_insert` to a key that is there, when elements are not copied. -/
def overwrite (cmp : α → α → ℤ) (data : α) : MapNode α → MapNode α
  | .nil => .nil
  | .node level a x b =>
      if cmp x data = 0 then .node level a data b
      else if cmp x data < 0 then .node level a x (b.overwrite cmp data)
      else .node level (a.overwrite cmp data) x b

def toList : MapNode α → List α
  | .nil => []
  | .node _ a x b => a.toList ++ x :: b.toList

end MapNode

/-- `map_t`; `dup` fails with a code of its own. -/
structure Map (α : Type*) where
  root : MapNode α
  cmp : α → α → ℤ
  dup : Option (α → Except ReturnCode α)
  size : ℤ

variable {α : Type*}

def mapNew (cmp : α → α → ℤ) (dup : Option (α → Except ReturnCode α)) : Map α where
  root := .nil
  cmp := cmp
  dup := dup
  size := 0

/-- `new_node`; `alloc` tells whether the node was allocated. -/
def newNode (alloc : Bool) (map : Map α) (data : α) : Except ReturnCode (MapNode α) :=
  if alloc then
    match map.dup with
    | some dup => (dup data).map fun copy => .node 1 .nil copy .nil
    | none => .ok (.node 1 .nil data .nil)
  else .error .errNoMem

def mapFind (map : Map α) (data : α) : Option α :=
  map.root.find map.cmp data

/-- `map_insert`.  With a `dup` callback the overwriting branch lets `dup` write through the
element that `rel` has just released, which has no defined outcome. -/
def mapInsert (alloc : Bool) (map : Map α) (data : α) : Option (Map α × Except ReturnCode ℤ) :=
  match mapFind map data, map.dup with
  | some _, some _ => none
  | some _, none => some ({ map with root := map.root.overwrite map.cmp data }, .ok map.size)
  | none, _ =>
      match newNode alloc map data with
      | .error code => some (map, .error code)
      | .ok leaf =>
          some ({ map with root := map.root.attach map.cmp data leaf, size := map.size + 1 },
            .ok (map.size + 1))

namespace MapNode

@[simp]
theorem toList_skew (t : MapNode α) : t.skew.toList = t.toList := by
  unfold skew
  split
  · split <;> simp [toList]
  · rfl

@[simp]
theorem toList_split (t : MapNode α) : t.split.toList = t.toList := by
  unfold split
  split
  · split <;> simp [toList]
  · rfl

/-! ## Search order

The callback orders elements by a key. -/

section Order

variable {κ : Type*} [LinearOrder κ] {cmp : α → α → ℤ} {key : α → κ}

structure Compares (cmp : α → α → ℤ) (key : α → κ) : Prop where
  lt : ∀ x y, cmp x y < 0 ↔ key x < key y
  eq : ∀ x y, cmp x y = 0 ↔ key x = key y

def Ordered (key : α → κ) (t : MapNode α) : Prop :=
  t.toList.Pairwise fun x y => key x < key y

@[simp]
theorem ordered_nil : Ordered key (.nil : MapNode α) := List.Pairwise.nil

theorem ordered_node {level : ℤ} {a b : MapNode α} {x : α} :
    Ordered key (.node level a x b) ↔
      Ordered key a ∧ Ordered key b ∧ (∀ y ∈ a.toList, key y < key x) ∧
        (∀ y ∈ b.toList, key x < key y) := by
  unfold Ordered
  rw [toList, List.pairwise_append, List.pairwise_cons]
  constructor
  · intro ⟨ha, ⟨hx, hb⟩, hcross⟩
    exact ⟨ha, hb, fun y hy => hcross y hy x List.mem_cons_self, hx⟩
  · intro ⟨ha, hb, hleft, hright⟩
    refine ⟨ha, ⟨hright, hb⟩, ?_⟩
    intro y hy z hz
    rcases List.mem_cons.mp hz with rfl | hz
    · exact hleft y hy
    · exact (hleft y hy).trans (hright z hz)

theorem find_eq_some_iff (hcmp : Compares cmp key) {t : MapNode α} (ht : Ordered key t)
    {data x : α} : t.find cmp data = some x ↔ x ∈ t.toList ∧ key x = key data := by
  induction t with
  | nil => simp [find, toList]
  | node level a y b iha ihb =>
    obtain ⟨ha, hb, hleft, hright⟩ := ordered_node.mp ht
    simp only [find, toList, List.mem_append, List.mem_cons]
    by_cases heq : key y = key data
    · rw [if_pos ((hcmp.eq y data).mpr heq)]
      constructor
      · rintro ⟨⟩
        exact ⟨.inr (.inl rfl), heq⟩
      · rintro ⟨hx | rfl | hx, hkey⟩
        · have := hleft x hx
          rw [hkey, heq] at this
          exact (lt_irrefl _ this).elim
        · rfl
        · have := hright x hx
          rw [hkey, heq] at this
          exact (lt_irrefl _ this).elim
    · rw [if_neg (fun h => heq ((hcmp.eq y data).mp h))]
      by_cases hlt : key y < key data
      · rw [if_pos ((hcmp.lt y data).mpr hlt), ihb hb]
        constructor
        · intro ⟨hx, hkey⟩
          exact ⟨.inr (.inr hx), hkey⟩
        · rintro ⟨hx | rfl | hx, hkey⟩
          · have := hleft x hx
            rw [hkey] at this
            exact (lt_asymm hlt this).elim
          · exact (heq hkey).elim
          · exact ⟨hx, hkey⟩
      · rw [if_neg (fun h => hlt ((hcmp.lt y data).mp h)), iha ha]
        constructor
        · intro ⟨hx, hkey⟩
          exact ⟨.inl hx, hkey⟩
        · rintro ⟨hx | rfl | hx, hkey⟩
          · exact ⟨hx, hkey⟩
          · exact (heq hkey).elim
          · have := hright x hx
            rw [hkey] at this
            exact (hlt this).elim

theorem mem_toList_attach (data y : α) (t leaf : MapNode α) :
    y ∈ (t.attach cmp data leaf).toList ↔ y ∈ leaf.toList ∨ y ∈ t.toList := by
  induction t with
  | nil => simp [attach, toList]
  | node level a x b iha ihb =>
    rw [attach]
    split
    · simp only [toList_split, toList_skew, toList, List.mem_append, List.mem_cons, ihb]
      rw [or_left_comm (b := y ∈ leaf.toList), or_left_comm (b := y ∈ leaf.toList)]
    · simp only [toList_split, toList_skew, toList, List.mem_append, List.mem_cons, iha]
      rw [or_assoc]

theorem ordered_attach (hcmp : Compares cmp key) {t : MapNode α} (ht : Ordered key t)
    {data copy : α} {level : ℤ} (hcopy : key copy = key data)
    (hnew : ∀ x ∈ t.toList, key x ≠ key data) :
    Ordered key (t.attach cmp data (.node level .nil copy .nil)) := by
  induction t with
  | nil => simp [attach, Ordered, toList]
  | node l a x b iha ihb =>
    obtain ⟨ha, hb, hleft, hright⟩ := ordered_node.mp ht
    have hx := hnew x (by simp [toList])
    rw [attach]
    split
    · rename_i hlt
      have hbelow := (hcmp.lt x data).mp hlt
      have hattached := ihb hb fun y hy => hnew y (by simp [toList, hy])
      unfold Ordered
      rw [toList_split, toList_skew]
      refine ordered_node.mpr ⟨ha, hattached, hleft, ?_⟩
      intro y hy
      rcases (mem_toList_attach data y b _).mp hy with hy | hy
      · simp only [toList, List.nil_append, List.mem_singleton] at hy
        rw [hy, hcopy]
        exact hbelow
      · exact hright y hy
    · rename_i hle
      have habove : key data < key x := by
        rcases lt_trichotomy (key x) (key data) with h | h | h
        · exact (hle ((hcmp.lt x data).mpr h)).elim
        · exact (hx h).elim
        · exact h
      have hattached := iha ha fun y hy => hnew y (by simp [toList, hy])
      unfold Ordered
      rw [toList_split, toList_skew]
      refine ordered_node.mpr ⟨hattached, hb, ?_, hright⟩
      intro y hy
      rcases (mem_toList_attach data y a _).mp hy with hy | hy
      · simp only [toList, List.nil_append, List.mem_singleton] at hy
        rw [hy, hcopy]
        exact habove
      · exact hleft y hy

theorem toList_overwrite {t : MapNode α} {data x : α} (h : t.find cmp data = some x) :
    ∃ before after, t.toList = before ++ x :: after ∧
      (t.overwrite cmp data).toList = before ++ data :: after := by
  induction t with
  | nil => cases h
  | node level a y b iha ihb =>
    rw [find] at h
    rw [overwrite]
    split at h
    · rename_i heq
      cases h
      rw [if_pos heq]
      exact ⟨a.toList, b.toList, rfl, rfl⟩
    · rename_i hne
      rw [if_neg hne]
      split at h
      · rename_i hlt
        obtain ⟨before, after, hlist, hnew⟩ := ihb h
        rw [if_pos hlt, toList, toList, hlist, hnew]
        exact ⟨a.toList ++ y :: before, after, by simp, by simp⟩
      · rename_i hle
        obtain ⟨before, after, hlist, hnew⟩ := iha h
        rw [if_neg hle, toList, toList, hlist, hnew]
        exact ⟨before, after ++ y :: b.toList, by simp, by simp⟩

theorem ordered_overwrite (hcmp : Compares cmp key) {t : MapNode α} (ht : Ordered key t)
    {data x : α} (h : t.find cmp data = some x) : Ordered key (t.overwrite cmp data) := by
  obtain ⟨before, after, hlist, hnew⟩ := toList_overwrite h
  have hkey := ((find_eq_some_iff hcmp ht).mp h).2
  unfold Ordered at ht ⊢
  rw [hlist, List.pairwise_append, List.pairwise_cons] at ht
  rw [hnew, List.pairwise_append, List.pairwise_cons]
  simpa only [List.mem_cons, forall_eq_or_imp, hkey] using ht

theorem mem_toList_overwrite (hcmp : Compares cmp key) {t : MapNode α} (ht : Ordered key t)
    {data x y : α} (h : t.find cmp data = some x) :
    y ∈ (t.overwrite cmp data).toList ↔ y = data ∨ (y ∈ t.toList ∧ key y ≠ key data) := by
  obtain ⟨before, after, hlist, hnew⟩ := toList_overwrite h
  have hkey := ((find_eq_some_iff hcmp ht).mp h).2
  unfold Ordered at ht
  rw [hlist, List.pairwise_append, List.pairwise_cons] at ht
  obtain ⟨_, ⟨hafter, _⟩, hbefore⟩ := ht
  rw [hlist, hnew, ← hkey]
  simp only [List.mem_append, List.mem_cons]
  constructor
  · rintro (hy | hy | hy)
    · exact .inr ⟨.inl hy, ne_of_lt (hbefore y hy x List.mem_cons_self)⟩
    · exact .inl hy
    · exact .inr ⟨.inr (.inr hy), ne_of_gt (hafter y hy)⟩
  · rintro (hy | ⟨hy | rfl | hy, hne⟩)
    · exact .inr (.inl hy)
    · exact .inl hy
    · exact (hne rfl).elim
    · exact .inr (.inr hy)

end Order

end MapNode

/-! ## Finding what was inserted -/

section Find

variable {κ : Type*} [LinearOrder κ] {key : α → κ} {map : Map α} {data : α}

structure Map.Searchable (key : α → κ) (map : Map α) : Prop where
  compares : MapNode.Compares map.cmp key
  ordered : map.root.Ordered key

theorem searchable_mapNew {cmp : α → α → ℤ} {dup : Option (α → Except ReturnCode α)}
    (hcmp : MapNode.Compares cmp key) : (mapNew cmp dup).Searchable key :=
  ⟨hcmp, MapNode.ordered_nil⟩

theorem Map.Searchable.mapFind_eq_some_iff (h : map.Searchable key) {x : α} :
    mapFind map data = some x ↔ x ∈ map.root.toList ∧ key x = key data :=
  MapNode.find_eq_some_iff h.compares h.ordered

theorem Map.Searchable.mapFind_update {map' : Map α} (h : map.Searchable key)
    (h' : map'.Searchable key) {v : Option α} (hv : ∀ x ∈ v, key x = key data)
    (hmem : ∀ y, y ∈ map'.root.toList ↔
      y ∈ v ∨ (y ∈ map.root.toList ∧ key y ≠ key data)) (d : α) :
    mapFind map' d = if key d = key data then v else mapFind map d := by
  apply Option.ext
  intro x
  rw [h'.mapFind_eq_some_iff, hmem]
  split
  · rename_i hkey
    rw [hkey]
    constructor
    · rintro ⟨hx | ⟨_, hne⟩, heq⟩
      · exact hx
      · exact (hne heq).elim
    · intro hx
      exact ⟨.inl hx, hv x hx⟩
  · rename_i hkey
    rw [h.mapFind_eq_some_iff]
    constructor
    · rintro ⟨hx | ⟨hx, _⟩, heq⟩
      · exact (hkey (heq.symm.trans (hv x hx))).elim
      · exact ⟨hx, heq⟩
    · intro ⟨hx, heq⟩
      exact ⟨.inr ⟨hx, fun hne => hkey (heq.symm.trans hne)⟩, heq⟩

theorem Map.Searchable.key_ne_of_mapFind (h : map.Searchable key)
    (habsent : mapFind map data = none) : ∀ x ∈ map.root.toList, key x ≠ key data := by
  intro x hx hkey
  have := h.mapFind_eq_some_iff.mpr ⟨hx, hkey⟩
  rw [habsent] at this
  cases this

theorem Map.Searchable.mapInsert_absent (h : map.Searchable key)
    {dup : α → Except ReturnCode α} (hdup : map.dup = some dup) (hcopy : dup data = .ok data)
    (habsent : mapFind map data = none) :
    ∃ map' size, mapInsert true map data = some (map', .ok size) ∧ map'.Searchable key ∧
      map'.dup = map.dup ∧
      ∀ y, mapFind map' y = if key data = key y then some data else mapFind map y := by
  have hnew := h.key_ne_of_mapFind habsent
  have hsearchable : Map.Searchable key
      { map with
        root := map.root.attach map.cmp data (.node 1 .nil data .nil)
        size := map.size + 1 } :=
    ⟨h.compares, MapNode.ordered_attach h.compares h.ordered rfl hnew⟩
  refine ⟨_, map.size + 1, ?_, hsearchable, rfl, ?_⟩
  · simp only [mapInsert, habsent, newNode, hdup, hcopy, if_true, Except.map]
  · intro y
    have hmem : ∀ x, x ∈ (map.root.attach map.cmp data (.node 1 .nil data .nil)).toList ↔
        x ∈ some data ∨ (x ∈ map.root.toList ∧ key x ≠ key data) := by
      intro x
      rw [MapNode.mem_toList_attach]
      simp only [MapNode.toList, List.nil_append, List.mem_singleton, Option.mem_def,
        Option.some.injEq, eq_comm (a := data)]
      constructor
      · rintro (hx | hx)
        · exact .inl hx
        · exact .inr ⟨hx, hnew x hx⟩
      · rintro (hx | ⟨hx, _⟩)
        · exact .inl hx
        · exact .inr hx
    have hkey : ∀ x ∈ some data, key x = key data := by
      rintro x ⟨⟩
      rfl
    rw [h.mapFind_update hsearchable hkey hmem]
    simp only [eq_comm]

end Find

end Casting
