import Casting.Framework.Transition
import Casting.Map.Balance

/-!
# A map is a finite map

Sequences of `map_insert`, `map_remove` and `map_find` on a map, beside a partial function from
keys to elements.
-/

namespace Casting

open Transition

variable {α : Type*}

/-- A call on a map; `alloc` tells whether a node can be allocated. -/
inductive MapCall (α : Type*)
  | insert (alloc : Bool) (data : α)
  | remove (data : α)
  | find (data : α)
  deriving DecidableEq, Repr

inductive MapReply (α : Type*)
  | inserted (res : Except ReturnCode ℤ)
  | removed (data : Option α)
  | found (data : Option α)

namespace Map

/-- One call.  `map_insert` saves its way in an array of `HEIGHT_LIMIT` entries too. -/
def call (map : Map α) : MapCall α → Option (Map α × MapReply α)
  | .insert alloc data =>
      if heightLimit < map.root.searchPath map.cmp data then none
      else (mapInsert alloc map data).map fun (map, res) => (map, .inserted res)
  | .remove data => (mapRemove map data).map fun (map, res) => (map, .removed res)
  | .find data => some (map, .found (mapFind map data))

def step (map : Map α) (c : MapCall α) : Option (Map α) := (map.call c).map Prod.fst

/-- The tree is no taller than `HEIGHT_LIMIT`, and nothing is inserted over an element that a
copy was made of. -/
def Admits (map : Map α) (c : MapCall α) : Prop :=
  map.root.height ≤ heightLimit ∧
    ∀ alloc data, c = .insert alloc data → map.dup.isSome → mapFind map data = none

/-- The call does not search a path of `HEIGHT_LIMIT` nodes for a key to remove that is not
there. -/
def PathFits (map : Map α) (c : MapCall α) : Prop :=
  ∀ data, c = .remove data → mapFind map data = none →
    map.root.searchPath map.cmp data < heightLimit

/-- What is kept of an element: itself, or what `dup` makes of it. -/
def kept (dup : Option (α → Except ReturnCode α)) (data : α) : α :=
  match dup with
  | none => data
  | some dup => (dup data).toOption.getD data

end Map

/-- `dup` always succeeds and gives an element with the same key. -/
def Clones {κ : Type*} (key : α → κ) (dup : Option (α → Except ReturnCode α)) : Prop :=
  ∀ f ∈ dup, ∀ data, ∃ copy, f data = .ok copy ∧ key copy = key data

section Finite

variable {κ : Type*} [LinearOrder κ]

/-- What a finite map does: it answers, and it changes at the key of the call at most.  An
insertion fails only for want of memory. -/
def Serves (key : α → κ) (kept : α → α) (f f' : κ → Option α) :
    MapCall α → MapReply α → Prop
  | .insert alloc data, .inserted (.ok _) =>
      (alloc = true ∨ (f (key data)).isSome) ∧
        f' = Function.update f (key data) (some (kept data))
  | .insert alloc _, .inserted (.error code) => alloc = false ∧ code = .errNoMem ∧ f' = f
  | .remove data, .removed res => res = f (key data) ∧ f' = Function.update f (key data) none
  | .find data, .found res => res = f (key data) ∧ f' = f
  | _, _ => False

/-- Every call of the sequence returns what the finite map returns, and leaves what the finite
map holds. -/
def Map.Simulates (key : α → κ) (kept : α → α) :
    Map α → (κ → Option α) → List (MapCall α) → Prop
  | _, _, [] => True
  | map, f, c :: calls =>
      ∃ map' reply f', map.call c = some (map', reply) ∧ Serves key kept f f' c reply ∧
        (∀ data, mapFind map' data = f' (key data)) ∧ map'.Simulates key kept f' calls

variable {key : α → κ} {cmp : α → α → ℤ} {dup : Option (α → Except ReturnCode α)}

/-- The tree is a balanced search tree, and holds what `f` says. -/
structure Map.Represents (key : α → κ) (map : Map α) (f : κ → Option α) : Prop where
  searchable : map.Searchable key
  balanced : ∃ n, map.root.Balanced n
  clones : Clones key map.dup
  agrees : ∀ data, mapFind map data = f (key data)

variable {map map' : Map α} {f : κ → Option α} {data : α}

theorem represents_mapNew (hcmp : MapNode.Compares cmp key) (hdup : Clones key dup) :
    (mapNew cmp dup).Represents key fun _ => none where
  searchable := searchable_mapNew hcmp
  balanced := ⟨0, .nil⟩
  clones := hdup
  agrees _ := rfl

theorem Map.Represents.update (h : map.Represents key f) (hsearchable : map'.Searchable key)
    (hbalanced : ∃ n, map'.root.Balanced n) {v : Option α} (hv : ∀ x ∈ v, key x = key data)
    (hmem : ∀ y, y ∈ map'.root.toList ↔ y ∈ v ∨ (y ∈ map.root.toList ∧ key y ≠ key data))
    (hdup : map'.dup = map.dup) :
    map'.Represents key (Function.update f (key data) v) where
  searchable := hsearchable
  balanced := hbalanced
  clones := by
    rw [hdup]
    exact h.clones
  agrees d := by
    rw [h.searchable.mapFind_update hsearchable hv hmem, Function.update_apply, h.agrees]

theorem Map.Represents.overwrite (h : map.Represents key f) {x : α}
    (hfound : mapFind map data = some x) :
    Map.Represents key { map with root := map.root.overwrite map.cmp data }
      (Function.update f (key data) (some data)) := by
  obtain ⟨n, hbalanced⟩ := h.balanced
  refine h.update ?_ ?_ ?_ ?_ rfl
  · exact ⟨h.searchable.compares,
      MapNode.ordered_overwrite h.searchable.compares h.searchable.ordered hfound⟩
  · exact ⟨n, MapNode.balanced_overwrite hbalanced⟩
  · rintro x ⟨⟩
    rfl
  · intro y
    simp only [MapNode.mem_toList_overwrite h.searchable.compares h.searchable.ordered hfound,
      Option.mem_def, Option.some.injEq, eq_comm (a := y)]

/-! ### The steps -/

omit [LinearOrder κ] in
theorem newNode_eq (hdup : Clones key map.dup) (data : α) :
    newNode true map data = .ok (.node 1 .nil (Map.kept map.dup data) .nil) := by
  cases hcopy : map.dup with
  | none => simp [newNode, hcopy, Map.kept]
  | some dup =>
      obtain ⟨copy, hok, _⟩ := hdup dup hcopy data
      simp [newNode, hcopy, Map.kept, hok, Except.map, Except.toOption]

omit [LinearOrder κ] in
theorem key_kept (hdup : Clones key dup) (data : α) : key (Map.kept dup data) = key data := by
  cases hcopy : dup with
  | none => rfl
  | some copy =>
      obtain ⟨copied, hok, hkey⟩ := hdup copy hcopy data
      simp [Map.kept, hok, Except.toOption, hkey]

theorem Map.Represents.insert_new (h : map.Represents key f) (alloc : Bool)
    (habsent : mapFind map data = none) :
    ∃ map' res f', mapInsert alloc map data = some (map', res) ∧
      Serves key (Map.kept map.dup) f f' (.insert alloc data) (.inserted res) ∧
      map'.Represents key f' ∧ map'.dup = map.dup := by
  cases alloc with
  | false =>
      refine ⟨map, .error .errNoMem, f, ?_, ⟨rfl, rfl, rfl⟩, h, rfl⟩
      simp [mapInsert, habsent, newNode]
  | true =>
      have hnew := h.searchable.key_ne_of_mapFind habsent
      have hkey : key (Map.kept map.dup data) = key data := key_kept h.clones data
      obtain ⟨n, hbalanced⟩ := h.balanced
      have hinsert : mapInsert true map data =
          some ({ map with
            root := map.root.attach map.cmp data (.node 1 .nil (Map.kept map.dup data) .nil)
            size := map.size + 1 }, .ok (map.size + 1)) := by
        simp only [mapInsert, habsent, newNode_eq h.clones]
      refine ⟨_, _, _, hinsert, ⟨.inl rfl, rfl⟩, ?_, rfl⟩
      · refine h.update ?_ ?_ ?_ ?_ rfl
        · exact ⟨h.searchable.compares,
            MapNode.ordered_attach h.searchable.compares h.searchable.ordered hkey hnew⟩
        · exact MapNode.balanced_attach hbalanced
        · rintro x ⟨⟩
          exact hkey
        · intro y
          simp only [MapNode.mem_toList_attach, MapNode.toList, List.nil_append,
            List.mem_singleton, Option.mem_def, Option.some.injEq, eq_comm (a := y)]
          constructor
          · rintro (hy | hy)
            · exact .inl hy
            · exact .inr ⟨hy, hnew y hy⟩
          · rintro (hy | ⟨hy, _⟩)
            · exact .inl hy
            · exact .inr hy

theorem Map.Represents.insert_over (h : map.Represents key f) (alloc : Bool) {x : α}
    (hfound : mapFind map data = some x) (hdup : map.dup = none) :
    ∃ map' res f', mapInsert alloc map data = some (map', res) ∧
      Serves key (Map.kept map.dup) f f' (.insert alloc data) (.inserted res) ∧
      map'.Represents key f' ∧ map'.dup = map.dup := by
  have hthere : (f (key data)).isSome := by
    rw [← h.agrees, hfound]
    rfl
  have hkept : Map.kept map.dup data = data := by
    rw [hdup]
    rfl
  have hinsert : mapInsert alloc map data =
      some ({ map with root := map.root.overwrite map.cmp data }, .ok map.size) := by
    simp only [mapInsert, hfound, hdup]
  refine ⟨_, _, _, hinsert, ⟨.inr hthere, rfl⟩, ?_, rfl⟩
  rw [hkept]
  exact h.overwrite hfound

theorem Map.Represents.insert_cases (h : map.Represents key f) (alloc : Bool)
    (hnew : map.dup = none ∨ mapFind map data = none) :
    ∃ map' res f', mapInsert alloc map data = some (map', res) ∧
      Serves key (Map.kept map.dup) f f' (.insert alloc data) (.inserted res) ∧
      map'.Represents key f' ∧ map'.dup = map.dup := by
  cases hfound : mapFind map data with
  | none => exact h.insert_new alloc hfound
  | some x => exact h.insert_over alloc hfound (hnew.resolve_right (by simp [hfound]))

theorem Map.Represents.mapRemove_some (h : map.Represents key f) {res : Option α}
    (hremove : mapRemove map data = some (map', res)) :
    res = f (key data) ∧ map'.Represents key (Function.update f (key data) none) ∧
      map'.dup = map.dup := by
  have hfound := h.agrees data
  unfold mapRemove at hremove
  unfold mapFind at hfound
  split at hremove
  · rename_i hroot
    cases hremove
    have hnone : f (key data) = none := by
      cases hnil : map.root with
      | nil =>
          rw [hnil] at hfound
          exact hfound.symm
      | node =>
          rw [hnil] at hroot
          cases hroot
    rw [← hnone, Function.update_eq_self]
    exact ⟨rfl, ⟨⟨h.searchable.compares, h.searchable.ordered⟩, h.balanced, h.clones, h.agrees⟩,
      rfl⟩
  · split at hremove
    · cases hremove
    · split at hremove
      · rename_i hnone
        cases hremove
        rw [hnone] at hfound
        rw [hfound, Function.update_eq_self]
        exact ⟨rfl, h, rfl⟩
      · rename_i x hsome
        cases hremove
        obtain ⟨n, hbalanced⟩ := h.balanced
        rw [hsome] at hfound
        refine ⟨hfound, ?_, rfl⟩
        rw [hbalanced.removeTop_eq]
        refine h.update ?_ ?_ ?_ ?_ rfl
        · exact ⟨h.searchable.compares, MapNode.ordered_remove h.searchable.ordered hsome⟩
        · exact MapNode.balanced_remove hbalanced
        · simp
        · intro y
          rw [MapNode.mem_toList_remove h.searchable.compares h.searchable.ordered hsome]
          simp

theorem Map.Represents.mapRemove_eq (h : map.Represents key f)
    (hheight : map.root.height ≤ heightLimit) (data : α) :
    (¬ map.PathFits (.remove data) ∧ mapRemove map data = none) ∨
    (map.PathFits (.remove data) ∧
      ∃ map', mapRemove map data = some (map', f (key data)) ∧
        map'.Represents key (Function.update f (key data) none) ∧ map'.dup = map.dup) := by
  have hfits : map.PathFits (.remove data) ↔
      (mapFind map data = none → map.root.searchPath map.cmp data < heightLimit) := by
    simp [Map.PathFits]
  obtain ⟨n, hbalanced⟩ := h.balanced
  have hlimit : 0 < heightLimit := by decide
  have hreturns : ∀ map' res, mapRemove map data = some (map', res) →
      ∃ map', mapRemove map data = some (map', f (key data)) ∧
        map'.Represents key (Function.update f (key data) none) ∧ map'.dup = map.dup := by
    intro map' res hremove
    obtain ⟨hres, hnext, hdup⟩ := h.mapRemove_some hremove
    rw [hres] at hremove
    exact ⟨map', hremove, hnext, hdup⟩
  cases hfound : mapFind map data with
  | none =>
      have hpath := MapNode.removePath_of_not_find hfound
      rw [hfits]
      by_cases hshort : map.root.searchPath map.cmp data < heightLimit
      · right
        refine ⟨fun _ => hshort, ?_⟩
        unfold mapFind at hfound
        by_cases hroot : map.root.isNil
        · exact hreturns { map with size := map.size - 1 } none (by rw [mapRemove, if_pos hroot])
        · apply hreturns map none
          rw [mapRemove, if_neg hroot, if_neg (by omega), hfound]
      · left
        refine ⟨fun hall => hshort (hall hfound), ?_⟩
        have hroot : map.root.isNil = false := by
          cases hroot : map.root with
          | nil =>
              rw [hroot] at hshort
              exact absurd hlimit hshort
          | node => rfl
        rw [mapRemove, hroot, if_neg (by simp), if_pos (by omega)]
  | some x =>
      right
      rw [hfits]
      refine ⟨by simp [hfound], ?_⟩
      have hpath := MapNode.removePath_of_find hfound
      have hroot : map.root.isNil = false := by
        cases hroot : map.root with
        | nil =>
            rw [mapFind, hroot] at hfound
            cases hfound
        | node => rfl
      unfold mapFind at hfound
      apply hreturns { map with
        root := map.root.removeTop map.cmp data, size := map.size - 1 } (some x)
      rw [mapRemove, hroot, if_neg (by simp), if_neg (by omega), hfound]

theorem Map.Represents.call_some (h : map.Represents key f) {c : MapCall α} {reply : MapReply α}
    (hcall : map.call c = some (map', reply)) :
    ∃ f', Serves key (Map.kept map.dup) f f' c reply ∧ map'.Represents key f' ∧
      map'.dup = map.dup := by
  cases c with
  | find data =>
      cases hcall
      exact ⟨f, ⟨h.agrees data, rfl⟩, h, rfl⟩
  | remove data =>
      obtain ⟨⟨next, res⟩, hremove, heq⟩ := Option.map_eq_some_iff.mp hcall
      cases heq
      obtain ⟨hres, hnext, hdup⟩ := h.mapRemove_some hremove
      exact ⟨_, ⟨hres, rfl⟩, hnext, hdup⟩
  | insert alloc data =>
      simp only [Map.call] at hcall
      split at hcall
      · cases hcall
      · obtain ⟨⟨next, res⟩, hinsert, heq⟩ := Option.map_eq_some_iff.mp hcall
        cases heq
        have hnew : map.dup = none ∨ mapFind map data = none := by
          cases hfound : mapFind map data with
          | none => exact .inr rfl
          | some x =>
              left
              cases hdup : map.dup with
              | none => rfl
              | some dup =>
                  rw [mapInsert, hfound, hdup] at hinsert
                  cases hinsert
        obtain ⟨map₁, res₁, f', hinsert₁, hserves, hnext, hdup⟩ := h.insert_cases alloc hnew
        rw [hinsert₁] at hinsert
        cases hinsert
        exact ⟨f', hserves, hnext, hdup⟩

/-- An admitted call returns and does what a finite map does, unless its path is too long. -/
theorem Map.Represents.call_cases (h : map.Represents key f) {c : MapCall α}
    (hadmits : map.Admits c) :
    (¬ map.PathFits c ∧ map.call c = none) ∨
    (map.PathFits c ∧
      ∃ map' reply f', map.call c = some (map', reply) ∧
        Serves key (Map.kept map.dup) f f' c reply ∧ map'.Represents key f' ∧
        map'.dup = map.dup) := by
  obtain ⟨hheight, hfresh⟩ := hadmits
  cases c with
  | find data =>
      right
      refine ⟨by simp [Map.PathFits], map, _, f, rfl, ⟨h.agrees data, rfl⟩, h, rfl⟩
  | remove data =>
      rcases h.mapRemove_eq hheight data with ⟨hlong, hnone⟩ | ⟨hfits, map', hsome, hnext, hdup⟩
      · exact .inl ⟨hlong, by rw [Map.call, hnone]; rfl⟩
      · right
        refine ⟨hfits, map', .removed (f (key data)), _, ?_, ⟨rfl, rfl⟩, hnext, hdup⟩
        rw [Map.call, hsome]
        rfl
  | insert alloc data =>
      right
      refine ⟨by simp [Map.PathFits], ?_⟩
      have hpath : ¬ heightLimit < map.root.searchPath map.cmp data := by
        have hle : map.root.searchPath map.cmp data ≤ map.root.height :=
          map.root.searchPath_le_height
        omega
      have hnew : map.dup = none ∨ mapFind map data = none := by
        cases hdup : map.dup with
        | none => exact .inl rfl
        | some dup => exact .inr (hfresh alloc data rfl (by rw [hdup]; rfl))
      obtain ⟨map', res, f', hinsert, hserves, hnext, hdup⟩ := h.insert_cases alloc hnew
      refine ⟨map', .inserted res, f', ?_, hserves, hnext, hdup⟩
      rw [Map.call, if_neg hpath, hinsert]
      rfl

/-- What a finite map holds after a call follows from its answer. -/
theorem Serves.functional {kept : α → α} {f f₁ f₂ : κ → Option α} {c : MapCall α}
    {reply : MapReply α} (h₁ : Serves key kept f f₁ c reply) (h₂ : Serves key kept f f₂ c reply) :
    f₁ = f₂ := by
  cases c <;> cases reply
  case insert.inserted alloc data res =>
    cases res with
    | ok => exact h₁.2.trans h₂.2.symm
    | error => exact h₁.2.2.trans h₂.2.2.symm
  case remove.removed => exact h₁.2.trans h₂.2.symm
  case find.found => exact h₁.2.trans h₂.2.symm
  all_goals exact h₁.elim

theorem Map.Represents.simulates_iff (h : map.Represents key f) {calls : List (MapCall α)}
    (hadmits : Before Map.step Map.Admits map calls) :
    map.Simulates key (Map.kept map.dup) f calls ↔ Before Map.step Map.PathFits map calls := by
  induction calls generalizing map f with
  | nil => exact iff_of_true trivial trivial
  | cons c calls ih =>
      obtain ⟨hfirst, hrest⟩ := hadmits
      rcases h.call_cases hfirst with
        ⟨hlong, hnone⟩ | ⟨hfits, map', reply, f', hcall, hserves, hnext, hdup⟩
      · apply iff_of_false
        · intro ⟨map', reply, f', hcall, _⟩
          rw [hnone] at hcall
          cases hcall
        · exact fun hbefore => hlong hbefore.1
      · have hstep : Map.step map c = some map' := by rw [Map.step, hcall]; rfl
        have hiff := ih hnext (hrest map' hstep)
        rw [hdup] at hiff
        constructor
        · intro ⟨map'', reply'', f'', hcall'', hserves'', _, hsimulates⟩
          rw [hcall] at hcall''
          cases hcall''
          obtain rfl := hserves.functional hserves''
          refine ⟨hfits, ?_⟩
          intro next hnext'
          rw [Option.mem_def, hstep] at hnext'
          cases hnext'
          exact hiff.mp hsimulates
        · intro ⟨_, hbefore⟩
          exact ⟨map', reply, f', hcall, hserves, hnext.agrees, hiff.mpr (hbefore map' hstep)⟩

/-- A map whose tree is never taller than `HEIGHT_LIMIT` is a finite map along a sequence of
calls exactly if no `map_remove` of a key that is not there searches a path of `HEIGHT_LIMIT`
nodes. -/
theorem mapSimulates_iff (hcmp : MapNode.Compares cmp key) (hdup : Clones key dup)
    (calls : List (MapCall α)) (hadmits : Before Map.step Map.Admits (mapNew cmp dup) calls) :
    (mapNew cmp dup).Simulates key (Map.kept dup) (fun _ => none) calls ↔
      Before Map.step Map.PathFits (mapNew cmp dup) calls :=
  (represents_mapNew hcmp hdup).simulates_iff hadmits

end Finite

def compareNat (x y : Nat) : ℤ := (x : ℤ) - y

theorem compares_compareNat : MapNode.Compares compareNat id where
  lt x y := by
    simp only [compareNat, id]
    omega
  eq x y := by
    simp only [compareNat, id]
    omega

theorem clones_none {κ : Type*} (key : α → κ) : Clones key none := by
  rintro f ⟨⟩

theorem mapSimulates_short :
    (mapNew compareNat none).Simulates id (Map.kept none) (fun _ => none)
        [.insert true 2, .insert true 1, .remove 2, .remove 3] ↔
      Before Map.step Map.PathFits (mapNew compareNat none)
        [.insert true 2, .insert true 1, .remove 2, .remove 3] := by
  apply mapSimulates_iff compares_compareNat (clones_none id)
  have hadmits : ∀ (map : Map Nat) (c : MapCall Nat), map.dup = none →
      map.root.height ≤ heightLimit → map.Admits c := by
    intro map c hdup hheight
    refine ⟨hheight, ?_⟩
    intro _ _ _ hsome
    rw [hdup] at hsome
    cases hsome
  refine ⟨hadmits _ _ rfl (by decide), ?_⟩
  rintro _ ⟨⟩
  refine ⟨hadmits _ _ rfl (by decide), ?_⟩
  rintro _ ⟨⟩
  refine ⟨hadmits _ _ rfl (by decide), ?_⟩
  rintro _ ⟨⟩
  exact ⟨hadmits _ _ rfl (by decide), fun _ _ => trivial⟩

end Casting
