import Casting.Map.Runs
import Casting.Map.Finite

/-!
# Maps in memory and maps of elements

The calls look at nodes through links and at elements through the callback only.  So a map in
memory answers as the map of its elements does, wherever that map answers at all.
-/

namespace Casting

/-! ## The same search among other elements -/

namespace MapNode

section Search

variable {α β : Type*} {g : α → β} {cmp : α → α → ℤ} {cmp' : β → β → ℤ} {d : α}

theorem isNil_relabel (t : MapNode α) : (t.relabel g).isNil = t.isNil := by
  cases t <;> rfl

theorem height_relabel (t : MapNode α) : (t.relabel g).height = t.height := by
  induction t with
  | nil => rfl
  | node level a x b iha ihb => rw [relabel, height, height, iha, ihb]

theorem find_relabel (hcmp : ∀ x y, cmp' (g x) (g y) = cmp x y) (t : MapNode α) :
    (t.relabel g).find cmp' (g d) = (t.find cmp d).map g := by
  induction t with
  | nil => rfl
  | node level a x b iha ihb =>
      simp only [relabel, find, hcmp, iha, ihb]
      split
      · rfl
      · split <;> rfl

theorem searchPath_relabel (hcmp : ∀ x y, cmp' (g x) (g y) = cmp x y) (t : MapNode α) :
    (t.relabel g).searchPath cmp' (g d) = t.searchPath cmp d := by
  induction t with
  | nil => rfl
  | node level a x b iha ihb => simp only [relabel, searchPath, hcmp, iha, ihb]

theorem leastPath_relabel (t : MapNode α) : (t.relabel g).leastPath = t.leastPath := by
  induction t with
  | nil => rfl
  | node level a x b iha _ => rw [relabel, leastPath, leastPath, iha]

theorem removePath_relabel (hcmp : ∀ x y, cmp' (g x) (g y) = cmp x y) (t : MapNode α) :
    (t.relabel g).removePath cmp' (g d) = t.removePath cmp d := by
  induction t with
  | nil => rfl
  | node level a x b iha ihb =>
      simp only [relabel, removePath, hcmp, iha, ihb, isNil_relabel, leastPath_relabel]

theorem attach_relabel (hcmp : ∀ x y, cmp' (g x) (g y) = cmp x y) (t leaf : MapNode α) :
    (t.relabel g).attach cmp' (g d) (leaf.relabel g) = (t.attach cmp d leaf).relabel g := by
  induction t with
  | nil => rfl
  | node level a x b iha ihb =>
      simp only [relabel, attach, hcmp, iha, ihb]
      split <;> rw [← split_relabel, ← skew_relabel, relabel]

theorem overwrite_relabel (hcmp : ∀ x y, cmp' (g x) (g y) = cmp x y) (t : MapNode α) :
    (t.relabel g).overwrite cmp' (g d) = (t.overwrite cmp d).relabel g := by
  induction t with
  | nil => rfl
  | node level a x b iha ihb =>
      simp only [relabel, overwrite, hcmp, iha, ihb]
      split
      · rfl
      · split <;> rfl

theorem takeHeir_relabel (t : MapNode α) :
    (t.relabel g).takeHeir = t.takeHeir.map (Prod.map g (relabel g)) := by
  induction t with
  | nil => rfl
  | node level a x b iha _ =>
      rw [relabel, takeHeir, takeHeir, iha]
      cases a.takeHeir with
      | none => rfl
      | some taken => simp only [Option.map_some, Prod.map, ← rebalance_relabel, relabel]

theorem unlink_relabel (level : ℤ) (a b : MapNode α) :
    unlink level (a.relabel g) (b.relabel g) = (unlink level a b).relabel g := by
  cases a with
  | nil => rfl
  | node l c x d =>
      rw [relabel, unlink, unlink, takeHeir_relabel]
      cases b.takeHeir with
      | none => rfl
      | some taken => simp only [Option.map_some, Prod.map, ← rebalance_relabel, relabel]

theorem remove_relabel (hcmp : ∀ x y, cmp' (g x) (g y) = cmp x y) (t : MapNode α) :
    (t.relabel g).remove cmp' (g d) = (t.remove cmp d).relabel g := by
  induction t with
  | nil => rfl
  | node level a x b iha ihb =>
      simp only [relabel, remove, hcmp, iha, ihb]
      split
      · exact unlink_relabel level a b
      · split
        · rw [← rebalance_relabel, relabel]
        · rw [← rebalance_relabel, relabel]

end Search

end MapNode

/-! ## One call -/

namespace NodeMap

open MapNode

variable {δ : Type} {m : NodeMap δ} {map map' : Map δ} {supply : Supply δ} {data : δ}
  {alloc : Bool}

/-- The elements are those of `map`, in a tree of the same shape. -/
structure Refines (m : NodeMap δ) (map : Map δ) : Prop where
  holds : ∃ t, m.Holds t ∧ t.relabel Prod.snd = map.root
  cmp : m.cmp = map.cmp
  copies : m.copies = map.dup.isSome
  size : m.size = map.size

theorem refines_init (nodes : Nodes δ) (cmp : δ → δ → ℤ)
    (dup : Option (δ → Except ReturnCode δ)) (releases : Bool) :
    (init nodes cmp dup.isSome releases).Refines (mapNew cmp dup) where
  holds := ⟨.nil, holds_init nodes cmp dup.isSome releases, rfl⟩
  cmp := rfl
  copies := rfl
  size := rfl

/-- What `lc_alloc` and `dup` do in the insertion of new data. -/
structure Supply.Stands (supply : Supply δ) (dup : Option (δ → Except ReturnCode δ))
    (alloc : Bool) (data : δ) : Prop where
  alloc : supply.alloc.isSome = alloc
  copy : ∀ f ∈ dup, supply.copy = (f data).mapError ReturnCode.toInt

/-- What `map_insert` returns, as the number that it is. -/
def replied : Except ReturnCode ℤ → ℤ
  | .ok size => size
  | .error code => code.toInt

theorem newNode_supplied (h : m.Refines map) (hstands : supply.Stands map.dup alloc data) :
    (Casting.newNode alloc map data).mapError ReturnCode.toInt =
      (m.supplied supply data).map fun e => (leaf e).relabel Prod.snd := by
  obtain ⟨rfl, hcopy⟩ := hstands
  rw [Casting.newNode, supplied, h.copies]
  cases supply.alloc with
  | none => rfl
  | some n =>
      cases hdup : map.dup with
      | none => rfl
      | some dup =>
          simp only [Option.isSome_some, if_true, hcopy dup hdup]
          cases dup data <;> rfl

theorem keyed_snd (cmp : δ → δ → ℤ) (x y : Entry δ) :
    cmp (Prod.snd x) (Prod.snd y) = keyed cmp x y := rfl

section Searches

variable {t : MapNode (Entry δ)}

theorem Refines.find_eq (h : m.Refines map) (ht : t.relabel Prod.snd = map.root) (data : δ) :
    mapFind map data = (t.find (keyed m.cmp) (sentinal, data)).map Prod.snd := by
  rw [mapFind, ← ht, ← h.cmp]
  exact find_relabel (d := ((sentinal, data) : Entry δ)) (keyed_snd m.cmp) t

theorem Refines.searchPath_eq (h : m.Refines map) (ht : t.relabel Prod.snd = map.root)
    (data : δ) :
    map.root.searchPath map.cmp data = t.searchPath (keyed m.cmp) (sentinal, data) := by
  rw [← ht, ← h.cmp]
  exact searchPath_relabel (d := ((sentinal, data) : Entry δ)) (keyed_snd m.cmp) t

theorem Refines.removePath_eq (h : m.Refines map) (ht : t.relabel Prod.snd = map.root)
    (data : δ) :
    map.root.removePath map.cmp data = t.removePath (keyed m.cmp) (sentinal, data) := by
  rw [← ht, ← h.cmp]
  exact removePath_relabel (d := ((sentinal, data) : Entry δ)) (keyed_snd m.cmp) t

theorem Refines.attach_eq (h : m.Refines map) (ht : t.relabel Prod.snd = map.root) (data : δ)
    (leaf : MapNode (Entry δ)) :
    map.root.attach map.cmp data (leaf.relabel Prod.snd) =
      (t.attach (keyed m.cmp) (sentinal, data) leaf).relabel Prod.snd := by
  rw [← ht, ← h.cmp]
  exact attach_relabel (d := ((sentinal, data) : Entry δ)) (keyed_snd m.cmp) t leaf

theorem Refines.overwrite_eq (h : m.Refines map) (ht : t.relabel Prod.snd = map.root)
    (data : δ) :
    map.root.overwrite map.cmp data =
      (t.overwrite (keyed m.cmp) (sentinal, data)).relabel Prod.snd := by
  rw [← ht, ← h.cmp]
  exact overwrite_relabel (d := ((sentinal, data) : Entry δ)) (keyed_snd m.cmp) t

theorem Refines.remove_eq (h : m.Refines map) (ht : t.relabel Prod.snd = map.root) (data : δ) :
    map.root.remove map.cmp data =
      (t.remove (keyed m.cmp) (sentinal, data)).relabel Prod.snd := by
  rw [← ht, ← h.cmp]
  exact remove_relabel (d := ((sentinal, data) : Entry δ)) (keyed_snd m.cmp) t

end Searches

theorem insert_refines (h : m.Refines map) (hfresh : supply.Fresh m.nodes)
    (hstands : supply.Stands map.dup alloc data)
    (hfits : ¬ heightLimit < map.root.searchPath map.cmp data) {res : Except ReturnCode ℤ}
    (hinsert : mapInsert alloc map data = some (map', res)) :
    ∃ m', m.insert supply (some data) = .ok (m', replied res) ∧ m'.Refines map' := by
  obtain ⟨t, ht, hroot⟩ := h.holds
  rw [h.searchPath_eq hroot, Nat.not_lt] at hfits
  have hfind := h.find_eq hroot data
  cases hfound : t.find (keyed m.cmp) (sentinal, data) with
  | some x =>
      rw [hfound, Option.map_some] at hfind
      rw [mapInsert, hfind] at hinsert
      cases hdup : map.dup with
      | some dup =>
          rw [hdup] at hinsert
          cases hinsert
      | none =>
          rw [hdup] at hinsert
          cases hinsert
          have hcopies : m.copies = false := by
            rw [h.copies, hdup]
            rfl
          obtain ⟨h', t', hreplace, hholds, _, hrelabel⟩ :=
            replace_found ht hcopies hfound supply
          refine ⟨_, ?_, ⟨t', hholds, hrelabel.trans (h.overwrite_eq hroot data).symm⟩, h.cmp,
            hcopies, h.size⟩
          rw [insert_found ht hfits hfound, hreplace, h.size]
          rfl
  | none =>
      rw [hfound, Option.map_none] at hfind
      rw [mapInsert, hfind] at hinsert
      have hnode := newNode_supplied h hstands
      cases hsupplied : m.supplied supply data with
      | error err =>
          rw [hsupplied] at hnode
          cases hnew : Casting.newNode alloc map data with
          | ok leaf =>
              rw [hnew] at hnode
              cases hnode
          | error code =>
              rw [hnew] at hnode hinsert
              cases hnode
              cases hinsert
              exact ⟨m, insert_failed ht hfits hfound hsupplied, h⟩
      | ok e =>
          rw [hsupplied] at hnode
          cases hnew : Casting.newNode alloc map data with
          | error code =>
              rw [hnew] at hnode
              cases hnode
          | ok leaf =>
              rw [hnew] at hnode hinsert
              cases hnode
              cases hinsert
              obtain ⟨h', r, hok, hholds, _⟩ := insert_absent ht hfresh hfits hfound hsupplied
              refine ⟨_, ?_, ⟨_, hholds, (h.attach_eq hroot data (leaf e)).symm⟩, h.cmp, h.copies,
                ?_⟩
              · rw [hok, h.size]
                rfl
              · rw [h.size]

theorem remove_refines (h : m.Refines map) {res : Option δ}
    (hremove : mapRemove map data = some (map', res)) :
    ∃ m', m.remove (some data) = .ok (m', res) ∧ m'.Refines map' := by
  obtain ⟨t, ht, hroot⟩ := h.holds
  by_cases hnil : t = .nil
  · subst hnil
    have hempty : map.root.isNil := by
      rw [← hroot]
      rfl
    rw [mapRemove, if_pos hempty] at hremove
    cases hremove
    exact ⟨_, remove_empty ht data, ⟨.nil, ht.resize _, hroot⟩, h.cmp, h.copies,
      congrArg (· - 1) h.size⟩
  · have hfull : ¬ map.root.isNil := by
      rw [← hroot, isNil_relabel]
      exact mt isNil_iff.mp hnil
    rw [mapRemove, if_neg hfull] at hremove
    split at hremove
    · cases hremove
    · rename_i hfits
      rw [h.removePath_eq hroot, Nat.not_lt] at hfits
      have hfind := h.find_eq hroot data
      rw [mapFind] at hfind
      rw [hfind] at hremove
      cases hfound : t.find (keyed m.cmp) (sentinal, data) with
      | none =>
          rw [hfound] at hremove
          cases hremove
          exact ⟨m, remove_missing ht hnil hfits hfound, h⟩
      | some x =>
          rw [hfound] at hremove
          cases hremove
          obtain ⟨h', t', hok, hholds, hrelabel⟩ := remove_found ht hfits hfound
          obtain ⟨n, hbalanced⟩ := ht.balanced
          have hrootbalanced : Balanced n map.root := by
            rw [← hroot]
            exact balanced_relabel_iff.mpr hbalanced
          refine ⟨_, hok, ⟨t', hholds, ?_⟩, h.cmp, h.copies, congrArg (· - 1) h.size⟩
          rw [hrelabel, hrootbalanced.removeTop_eq, h.remove_eq hroot]

theorem find_refines (h : m.Refines map) {rounds : Nat}
    (hrounds : map.root.searchPath map.cmp data ≤ rounds) :
    m.find rounds (some data) = .ok (mapFind map data) := by
  obtain ⟨t, ht, hroot⟩ := h.holds
  rw [h.searchPath_eq hroot] at hrounds
  rw [h.find_eq hroot]
  exact ht.find_eq (d := (sentinal, data)) hrounds

/-- A call in memory ends with the reply, and with the map `m'`. -/
def Answers (m : NodeMap δ) (supply : Supply δ) (m' : NodeMap δ) :
    MapCall δ → MapReply δ → Prop
  | .insert _ data, .inserted res => m.insert supply (some data) = .ok (m', replied res)
  | .remove data, .removed res => m.remove (some data) = .ok (m', res)
  | .find data, .found res =>
      m' = m ∧ ∃ bound, ∀ rounds, bound ≤ rounds → m.find rounds (some data) = .ok res
  | _, _ => False

/-- The environment of a call. -/
def Supply.Fits (supply : Supply δ) (h : Nodes δ) (dup : Option (δ → Except ReturnCode δ)) :
    MapCall δ → Prop
  | .insert alloc data => supply.Fresh h ∧ supply.Stands dup alloc data
  | .remove _ => True
  | .find _ => True

/-- Where the map of elements answers, the map in memory does, with the same reply. -/
theorem call_refines (h : m.Refines map) {c : MapCall δ} {reply : MapReply δ}
    (hsupply : supply.Fits m.nodes map.dup c) (hcall : map.call c = some (map', reply)) :
    ∃ m', m.Answers supply m' c reply ∧ m'.Refines map' := by
  cases c with
  | insert alloc data =>
      rw [Map.call] at hcall
      split at hcall
      · cases hcall
      · rename_i hfits
        obtain ⟨⟨next, res⟩, hinsert, heq⟩ := Option.map_eq_some_iff.mp hcall
        cases heq
        exact insert_refines h hsupply.1 hsupply.2 hfits hinsert
  | remove data =>
      obtain ⟨⟨next, res⟩, hremove, heq⟩ := Option.map_eq_some_iff.mp hcall
      cases heq
      exact remove_refines h hremove
  | find data =>
      cases hcall
      exact ⟨m, ⟨rfl, _, fun rounds hrounds => find_refines h hrounds⟩, h⟩

/-! ## Runs -/

section Runs

variable {κ : Type*} [LinearOrder κ] {key : δ → κ} {cmp : δ → δ → ℤ}
  {dup : Option (δ → Except ReturnCode δ)}

/-- Whatever its environment does, every call in memory does what a finite map does, as long as
there are not too many entries and no element is inserted over one that is a copy. -/
def ServesAsFinite (key : δ → κ) (dup : Option (δ → Except ReturnCode δ)) :
    NodeMap δ → (κ → Option δ) → List (MapCall δ) → Prop
  | _, _, [] => True
  | m, f, c :: calls =>
      m.entries.ncard < 2 ^ 32 - 1 →
      (∀ alloc data, c = .insert alloc data → dup.isSome → f (key data) = none) →
      ∀ supply : Supply δ, supply.Fits m.nodes dup c →
        ∃ m' reply f', m.Answers supply m' c reply ∧ Serves key (Map.kept dup) f f' c reply ∧
          m'.ServesAsFinite key dup f' calls

theorem Refines.height_le (h : m.Refines map) (hfew : m.entries.ncard < 2 ^ 32 - 1) :
    map.root.height ≤ 62 := by
  obtain ⟨t, ht, hroot⟩ := h.holds
  rw [← hroot, height_relabel]
  exact ht.height_le hfew

theorem Refines.servesAsFinite (h : m.Refines map) (hdup : map.dup = dup) {f : κ → Option δ}
    (hf : map.Represents key f) (calls : List (MapCall δ)) :
    m.ServesAsFinite key dup f calls := by
  induction calls generalizing m map f with
  | nil => trivial
  | cons c calls ih =>
      intro hfew hnew supply hsupply
      have hheight := h.height_le hfew
      have hadmits : map.Admits c := by
        refine ⟨hheight.trans (by decide), ?_⟩
        intro alloc data hc hcopies
        rw [hdup] at hcopies
        rw [hf.agrees]
        exact hnew alloc data hc hcopies
      have hfits : map.PathFits c := by
        intro data _ _
        have hpath : map.root.searchPath map.cmp data ≤ map.root.height :=
          searchPath_le_height map.root
        rw [heightLimit]
        omega
      subst hdup
      rcases hf.call_cases hadmits with ⟨hlong, _⟩ | ⟨_, map', reply, f', hcall, hserves, hf', hdup⟩
      · exact (hlong hfits).elim
      · obtain ⟨m', hanswers, h'⟩ := call_refines h hsupply hcall
        exact ⟨m', reply, f', hanswers, hserves, ih h' hdup hf'⟩

theorem servesAsFinite_init (hcmp : Compares cmp key) (hdup : Clones key dup) (nodes : Nodes δ)
    (releases : Bool) (calls : List (MapCall δ)) :
    (init nodes cmp dup.isSome releases).ServesAsFinite key dup (fun _ => none) calls :=
  (refines_init nodes cmp dup releases).servesAsFinite rfl (represents_mapNew hcmp hdup) calls

end Runs

end NodeMap

end Casting
