import Casting.Framework.RefCount
import Casting.Map.Finite
import Mathlib.Data.Finset.Card
import Mathlib.Order.Interval.Finset.Nat

/-!
# Counted records in a map

The tables of `lc_task.c` and `lc_session.c`: records that have an id, from a counter, and a
reference count, in a map that compares the ids as `int`s.
-/

namespace Casting

open RefCount

variable {α : Type*}

/-- A `task_t` or `session_t`. -/
structure Counted (α : Type*) where
  id : ℕ
  refCount : ℤ
  body : α
  deriving DecidableEq, Repr

/-- `cmp_task` and `cmp_session`; `narrow` converts an id to an `int`. -/
def cmpIds (narrow : ℕ → ℤ) (a b : Counted α) : ℤ :=
  if narrow a.id = narrow b.id then 0 else if narrow b.id < narrow a.id then 1 else -1

/-- The conversion keeps what an `int` can hold; the language says nothing of other ids. -/
def Narrows (narrow : ℕ → ℤ) : Prop := ∀ n ≤ maxCount, narrow n = n

/-- The map and the counter. -/
structure Table (α : Type*) where
  map : Map (Counted α)
  next : ℕ

def Map.assign (map : Map (Counted α)) (t : Counted α) : Map (Counted α) :=
  { map with root := map.root.overwrite map.cmp t }

namespace Table

def start (narrow : ℕ → ℤ) : Table α := ⟨mapNew (cmpIds narrow) (some .ok), 0⟩

def find [Inhabited α] (s : Table α) (id : ℕ) : Option (Counted α) :=
  mapFind s.map ⟨id, 0, default⟩

/-- Insert a record with the next id.  The result of `map_insert` is not looked at. -/
def create (s : Table α) (alloc : Bool) (body : α) : Option (Table α × ℕ) :=
  (s.map.call (.insert alloc ⟨s.next + 1, 1, body⟩)).map fun (map, _) =>
    (⟨map, s.next + 1⟩, s.next + 1)

def ref [Inhabited α] (s : Table α) (id : ℕ) : Table α × Option (Counted α) :=
  match s.find id with
  | none => (s, none)
  | some t =>
      let t := { t with refCount := inc t.refCount }
      ({ s with map := s.map.assign t }, some t)

/-- Give a reference back, and remove the record with the last one; the flag tells whether it was
removed. -/
def free [Inhabited α] (s : Table α) (id : ℕ) : Option (Table α × Bool) :=
  match s.find id with
  | none => some (s, false)
  | some t =>
      let t := { t with refCount := dec t.refCount }
      if 0 < t.refCount then some ({ s with map := s.map.assign t }, false)
      else (s.map.call (.remove t)).map fun (map, _) => ({ s with map := map }, true)

end Table

theorem compares_cmpIds (narrow : ℕ → ℤ) :
    MapNode.Compares (cmpIds narrow) fun t : Counted α => narrow t.id where
  lt a b := by
    simp only [cmpIds]
    split
    · omega
    · split <;> omega
  eq a b := by
    simp only [cmpIds]
    split
    · omega
    · split <;> omega

/-- The table holds the records `g`, all of them under ids that an `int` can hold. -/
structure Table.Holds (narrow : ℕ → ℤ) (s : Table α) (g : ℕ → Option (Counted α)) : Prop where
  represents : s.map.Represents (fun t => narrow t.id) fun k => g k.toNat
  dup : s.map.dup = some .ok
  ids : ∀ id t, g id = some t → t.id = id ∧ 0 < id ∧ id ≤ s.next
  next : s.next ≤ maxCount

def counts (g : ℕ → Option (Counted α)) (id : ℕ) : Option ℤ := (g id).map Counted.refCount

theorem counts_update (g : ℕ → Option (Counted α)) (id : ℕ) (v : Option (Counted α)) :
    counts (Function.update g id v) = Function.update (counts g) id (v.map Counted.refCount) :=
  Function.comp_update (Option.map Counted.refCount) g id v

/-- A record after a reference to it was given back. -/
def afterFree (t : Counted α) : Option (Counted α) :=
  if 0 < dec t.refCount then some { t with refCount := dec t.refCount } else none

theorem refCount_afterFree (t : Counted α) : (afterFree t).map Counted.refCount =
    if 0 < dec t.refCount then some (dec t.refCount) else none := by
  unfold afterFree
  split <;> rfl

section References

variable {g : ℕ → Option (Counted α)} {id : ℕ} {t : Counted α} {l : List ℕ}

theorem refs_ref (h : Refs (counts g) l) (hg : g id = some t) (hmax : t.refCount < maxCount) :
    Refs (counts (Function.update g id (some { t with refCount := inc t.refCount })))
      (id :: l) := by
  have hcount : counts g id = some t.refCount := by rw [counts, hg]; rfl
  have hmem := h.mem hcount
  have hlt : l.count id < maxCount := by
    rw [Option.some.inj (hcount.symm.trans (h.eq_some hmem))] at hmax
    exact_mod_cast hmax
  have hrefs := h.ref hmem hlt
  simp only [RefCount.ref, hcount] at hrefs
  rw [counts_update]
  exact hrefs

theorem refs_free (h : Refs (counts g) (id :: l)) (hg : g id = some t) :
    Refs (counts (Function.update g id (afterFree t))) l := by
  have hcount : counts g id = some t.refCount := by rw [counts, hg]; rfl
  have hrefs := Refs.free (k := id) h
  simp only [RefCount.free, hcount, List.erase_cons_head] at hrefs
  rw [counts_update, refCount_afterFree]
  exact hrefs

end References

namespace Table

variable {narrow : ℕ → ℤ} {s : Table α} {g : ℕ → Option (Counted α)} {id : ℕ}

theorem start_holds (narrow : ℕ → ℤ) : (start narrow : Table α).Holds narrow fun _ => none where
  represents := by
    apply represents_mapNew (compares_cmpIds narrow)
    rintro f ⟨⟩ data
    exact ⟨data, rfl, rfl⟩
  dup := rfl
  ids id t h := by cases h
  next := Nat.zero_le _

theorem Holds.find [Inhabited α] (h : s.Holds narrow g) (hnarrow : Narrows narrow)
    (hid : id ≤ maxCount) : s.find id = g id := by
  have hagrees := h.represents.agrees ⟨id, 0, default⟩
  rw [Table.find, hagrees, hnarrow id hid, Int.toNat_natCast]

theorem Holds.none_of_lt (h : s.Holds narrow g) (hid : s.next < id) : g id = none := by
  cases hg : g id with
  | none => rfl
  | some t => exact absurd (h.ids id t hg).2.2 (Nat.not_le.mpr hid)

theorem Holds.id_of_mem (h : s.Holds narrow g) {t : Counted α} (ht : t ∈ s.map.root.toList) :
    0 < t.id ∧ t.id ≤ s.next := by
  have hfound := h.represents.searchable.mapFind_eq_some_iff.mpr ⟨ht, rfl⟩
  rw [h.represents.agrees] at hfound
  obtain ⟨heq, hpos, hle⟩ := h.ids _ t hfound
  rw [heq]
  exact ⟨hpos, hle⟩

theorem Holds.mem_iff (h : s.Holds narrow g) (hnarrow : Narrows narrow) {t : Counted α} :
    t ∈ s.map.root.toList ↔ g t.id = some t := by
  have hkey : t.id ≤ maxCount → mapFind s.map t = g t.id := by
    intro hle
    rw [h.represents.agrees, hnarrow t.id hle, Int.toNat_natCast]
  constructor
  · intro ht
    rw [← hkey (Nat.le_trans (h.id_of_mem ht).2 h.next)]
    exact h.represents.searchable.mapFind_eq_some_iff.mpr ⟨ht, rfl⟩
  · intro ht
    rw [← hkey (Nat.le_trans (h.ids _ t ht).2.2 h.next)] at ht
    exact (h.represents.searchable.mapFind_eq_some_iff.mp ht).1

/-- Ids that an `int` can hold are compared as they are. -/
theorem Holds.compares (h : s.Holds narrow g) (hnarrow : Narrows narrow) {a b : Counted α}
    (ha : a.id ≤ s.next) (hb : b.id ≤ s.next) :
    (s.map.cmp a b < 0 ↔ a.id < b.id) ∧ (s.map.cmp a b = 0 ↔ a.id = b.id) := by
  rw [h.represents.searchable.compares.lt, h.represents.searchable.compares.eq,
    hnarrow a.id (Nat.le_trans ha h.next), hnarrow b.id (Nat.le_trans hb h.next)]
  exact ⟨Int.ofNat_lt, Int.ofNat_inj⟩

/-- The records are apart, so there are no more than ids. -/
theorem Holds.length_le (h : s.Holds narrow g) : s.map.root.toList.length ≤ maxCount := by
  have hordered := h.represents.searchable.ordered
  have hnodup : (s.map.root.toList.map Counted.id).Nodup := by
    unfold MapNode.Ordered at hordered
    rw [List.Nodup, List.pairwise_map]
    apply hordered.imp
    intro x y hlt heq
    have hids : narrow x.id < narrow y.id := hlt
    rw [heq] at hids
    exact lt_irrefl _ hids
  have hsubset : (s.map.root.toList.map Counted.id).toFinset ⊆ Finset.Icc 1 maxCount := by
    intro id hid
    obtain ⟨t, ht, rfl⟩ := List.mem_map.mp (List.mem_toFinset.mp hid)
    obtain ⟨hpos, hle⟩ := h.id_of_mem ht
    exact Finset.mem_Icc.mpr ⟨hpos, Nat.le_trans hle h.next⟩
  have hcard := Finset.card_le_card hsubset
  rw [List.toFinset_card_of_nodup hnodup, List.length_map, Nat.card_Icc] at hcard
  exact hcard

theorem Holds.height_lt (h : s.Holds narrow g) :
    s.map.root.height < heightLimit := by
  obtain ⟨n, hbalanced⟩ := h.represents.balanced
  have hheight := hbalanced.height_le
  have hpow := hbalanced.pow_le
  have hlength := h.length_le
  have hn : n ≤ 31 := by
    by_contra hlt
    have hbig : 2 ^ 32 ≤ 2 ^ n := Nat.pow_le_pow_right (by decide) (by omega)
    simp only [maxCount] at hlength
    omega
  simp only [heightLimit]
  omega

theorem Holds.admits (h : s.Holds narrow g) (hnarrow : Narrows narrow) (c : MapCall (Counted α))
    (hnew : ∀ alloc t, c = .insert alloc t → t.id ≤ maxCount ∧ g t.id = none) :
    s.map.Admits c ∧ s.map.PathFits c := by
  have hheight := h.height_lt
  refine ⟨⟨Nat.le_of_lt hheight, ?_⟩, ?_⟩
  · rintro alloc t rfl _
    obtain ⟨hid, hnone⟩ := hnew alloc t rfl
    rw [h.represents.agrees, hnarrow t.id hid, Int.toNat_natCast, hnone]
  · intro t _ _
    exact Nat.lt_of_le_of_lt (s.map.root.searchPath_le_height) hheight

theorem update_toNat (g : ℕ → Option (Counted α)) (v : Option (Counted α)) (hpos : 0 < id) :
    (fun k : ℤ => Function.update g id v k.toNat) =
      Function.update (fun k : ℤ => g k.toNat) (id : ℤ) v := by
  funext k
  by_cases hk : k = id
  · subst hk
    rw [Function.update_self, Int.toNat_natCast, Function.update_self]
  · have hne : k.toNat ≠ id := by omega
    rw [Function.update_of_ne hk, Function.update_of_ne hne]

theorem Holds.update (h : s.Holds narrow g) (hpos : 0 < id) {map : Map (Counted α)} {next : ℕ}
    {v : Option (Counted α)}
    (hrepresents : map.Represents (fun t => narrow t.id)
      (Function.update (fun k : ℤ => g k.toNat) (id : ℤ) v))
    (hdup : map.dup = s.map.dup) (hnext : s.next ≤ next) (hmax : next ≤ maxCount)
    (hv : ∀ t ∈ v, t.id = id ∧ id ≤ next) :
    (⟨map, next⟩ : Table α).Holds narrow (Function.update g id v) where
  represents := by
    rw [update_toNat g v hpos]
    exact hrepresents
  dup := hdup.trans h.dup
  ids other t ht := by
    by_cases hother : other = id
    · subst hother
      rw [Function.update_self] at ht
      obtain ⟨heq, hle⟩ := hv t ht
      exact ⟨heq, hpos, hle⟩
    · rw [Function.update_of_ne hother] at ht
      obtain ⟨heq, hother', hle⟩ := h.ids other t ht
      exact ⟨heq, hother', Nat.le_trans hle hnext⟩
  next := hmax

theorem Holds.assign (h : s.Holds narrow g) (hnarrow : Narrows narrow) {t u : Counted α}
    (ht : g id = some t) (hid : u.id = id) :
    Holds narrow { s with map := s.map.assign u } (Function.update g id (some u)) := by
  obtain ⟨heq, hpos, hle⟩ := h.ids id t ht
  have hkey : narrow u.id = (id : ℤ) := by rw [hid, hnarrow id (Nat.le_trans hle h.next)]
  have hfound : mapFind s.map u = some t := by
    rw [h.represents.agrees, hkey, Int.toNat_natCast, ht]
  have hover := h.represents.overwrite hfound
  rw [hkey] at hover
  apply h.update hpos hover rfl (Nat.le_refl _) h.next
  rintro t' ⟨⟩
  exact ⟨hid, hle⟩

theorem Holds.call (h : s.Holds narrow g) (hnarrow : Narrows narrow) {c : MapCall (Counted α)}
    (hnew : ∀ alloc t, c = .insert alloc t → t.id ≤ maxCount ∧ g t.id = none) :
    ∃ map reply f, s.map.call c = some (map, reply) ∧
      Serves (fun t => narrow t.id) (Map.kept s.map.dup) (fun k => g k.toNat) f c reply ∧
      map.Represents (fun t => narrow t.id) f ∧ map.dup = s.map.dup := by
  obtain ⟨hadmits, hfits⟩ := h.admits hnarrow c hnew
  rcases h.represents.call_cases hadmits with ⟨hlong, _⟩ | ⟨_, hcall⟩
  · exact absurd hfits hlong
  · exact hcall

theorem Holds.create (h : s.Holds narrow g) (hnarrow : Narrows narrow) (alloc : Bool) (body : α)
    (hnext : s.next < maxCount) :
    ∃ s', s.create alloc body = some (s', s.next + 1) ∧ s'.next = s.next + 1 ∧
      s'.Holds narrow
        (if alloc then Function.update g (s.next + 1) (some ⟨s.next + 1, 1, body⟩) else g) := by
  have hnone : g (s.next + 1) = none := h.none_of_lt (Nat.lt_succ_self _)
  have hkey : narrow (s.next + 1) = ((s.next + 1 : ℕ) : ℤ) := hnarrow _ hnext
  have hnew : ∀ alloc' t, MapCall.insert alloc (⟨s.next + 1, 1, body⟩ : Counted α) =
      .insert alloc' t → t.id ≤ maxCount ∧ g t.id = none := by
    rintro alloc' t ⟨⟩
    exact ⟨hnext, hnone⟩
  obtain ⟨map, reply, f, hcall, hserves, hrepresents, hdup⟩ := h.call hnarrow hnew
  refine ⟨⟨map, s.next + 1⟩, ?_, rfl, ?_⟩
  · rw [Table.create, hcall]
    rfl
  · rcases reply with ⟨code | size⟩ | _ | _
    · obtain ⟨rfl, _, hf⟩ := hserves
      rw [hf] at hrepresents
      exact {
        represents := hrepresents
        dup := hdup.trans h.dup
        ids := by
          intro id t ht
          obtain ⟨heq, hpos, hle⟩ := h.ids id t ht
          exact ⟨heq, hpos, Nat.le_succ_of_le hle⟩
        next := hnext }
    · obtain ⟨halloc | hthere, hf⟩ := hserves
      · rw [h.dup] at hf
        simp only [hkey] at hf
        rw [hf] at hrepresents
        rw [if_pos halloc]
        apply h.update (Nat.succ_pos _) hrepresents hdup (Nat.le_succ _) hnext
        rintro t ⟨⟩
        exact ⟨rfl, Nat.le_refl _⟩
      · simp only [hkey, Int.toNat_natCast, hnone] at hthere
        cases hthere
    · exact hserves.elim
    · exact hserves.elim

theorem Holds.ref [Inhabited α] (h : s.Holds narrow g) (hnarrow : Narrows narrow)
    (hid : id ≤ maxCount) :
    (g id = none ∧ s.ref id = (s, none)) ∨
    ∃ t s', g id = some t ∧ s.ref id = (s', some { t with refCount := inc t.refCount }) ∧
      s'.next = s.next ∧
      s'.Holds narrow (Function.update g id (some { t with refCount := inc t.refCount })) := by
  have hfind := h.find hnarrow hid
  cases hg : g id with
  | none =>
      rw [hg] at hfind
      exact .inl ⟨rfl, by simp only [Table.ref, hfind]⟩
  | some t =>
      rw [hg] at hfind
      right
      refine ⟨t, { s with map := s.map.assign { t with refCount := inc t.refCount } }, rfl, ?_,
        rfl, h.assign hnarrow hg (h.ids id t hg).1⟩
      simp only [Table.ref, hfind]

theorem Holds.free [Inhabited α] (h : s.Holds narrow g) (hnarrow : Narrows narrow)
    (hid : id ≤ maxCount) :
    (g id = none ∧ s.free id = some (s, false)) ∨
    ∃ t s', g id = some t ∧ s.free id = some (s', decide (dec t.refCount ≤ 0)) ∧
      s'.next = s.next ∧
      s'.Holds narrow (Function.update g id (afterFree t)) := by
  unfold afterFree
  have hfind := h.find hnarrow hid
  cases hg : g id with
  | none =>
      rw [hg] at hfind
      exact .inl ⟨rfl, by simp only [Table.free, hfind]⟩
  | some t =>
      rw [hg] at hfind
      right
      by_cases hpos : 0 < dec t.refCount
      · refine ⟨t, { s with map := s.map.assign { t with refCount := dec t.refCount } }, rfl, ?_,
          rfl, ?_⟩
        · simp only [Table.free, hfind, if_pos hpos, decide_eq_false (Int.not_le.mpr hpos)]
        · rw [if_pos hpos]
          exact h.assign hnarrow hg (h.ids id t hg).1
      · obtain ⟨heq, hidpos, hle⟩ := h.ids id t hg
        have hnew : ∀ alloc u, MapCall.remove { t with refCount := dec t.refCount } =
            .insert alloc u → u.id ≤ maxCount ∧ g u.id = none := by
          rintro alloc u ⟨⟩
        obtain ⟨map, reply, f, hcall, hserves, hrepresents, hdup⟩ := h.call hnarrow hnew
        refine ⟨t, { s with map := map }, rfl, ?_, rfl, ?_⟩
        · simp only [Table.free, hfind, if_neg hpos, hcall, Option.map_some,
            decide_eq_true (Int.not_lt.mp hpos)]
        · rw [if_neg hpos]
          rcases reply with _ | _ | _
          · exact hserves.elim
          · have hkey : narrow t.id = (id : ℤ) := by
              rw [heq, hnarrow id (Nat.le_trans hle h.next)]
            have hf := hserves.2
            simp only [hkey] at hf
            rw [hf] at hrepresents
            apply h.update hidpos hrepresents hdup (Nat.le_refl _) h.next
            rintro u ⟨⟩
          · exact hserves.elim

/-! ### Ids that are compared as they are -/

/-- The table holds the records `g`; there is no bound on the ids. -/
structure Stores (s : Table α) (g : ℕ → Option (Counted α)) : Prop where
  represents : s.map.Represents Counted.id g
  dup : s.map.dup = some .ok

theorem start_stores : (start fun n => n : Table α).Stores fun _ => none where
  represents := by
    apply represents_mapNew
    · have hcmp : MapNode.Compares (cmpIds fun n => n) fun t : Counted α => (t.id : ℤ) :=
        compares_cmpIds fun n => n
      exact ⟨fun a b => by rw [hcmp.lt, Int.ofNat_lt], fun a b => by rw [hcmp.eq, Int.ofNat_inj]⟩
    · rintro f ⟨⟩ data
      exact ⟨data, rfl, rfl⟩
  dup := rfl

theorem Stores.find [Inhabited α] (h : s.Stores g) : s.find id = g id :=
  h.represents.agrees ⟨id, 0, default⟩

theorem Stores.id_eq [Inhabited α] (h : s.Stores g) {t : Counted α} (hg : g id = some t) :
    t.id = id := by
  rw [← h.find] at hg
  exact (h.represents.searchable.mapFind_eq_some_iff.mp hg).2

theorem Stores.assign [Inhabited α] (h : s.Stores g) {t u : Counted α} (hg : g id = some t)
    (hid : u.id = id) :
    Stores { s with map := s.map.assign u } (Function.update g id (some u)) where
  represents := by
    have hfound : mapFind s.map u = some t := by rw [h.represents.agrees, hid, hg]
    have hover := h.represents.overwrite hfound
    rw [hid] at hover
    exact hover
  dup := h.dup

theorem Stores.insert (h : s.Stores g) {alloc : Bool} {t : Counted α} {map : Map (Counted α)}
    {reply : MapReply (Counted α)} (hcall : s.map.call (.insert alloc t) = some (map, reply))
    (next : ℕ) :
    g t.id = none ∧
      Stores ⟨map, next⟩ (if alloc then Function.update g t.id (some t) else g) := by
  have hnone : g t.id = none := by
    simp only [Map.call] at hcall
    split at hcall
    · cases hcall
    · obtain ⟨_, hinsert, _⟩ := Option.map_eq_some_iff.mp hcall
      rw [← h.represents.agrees]
      cases hfound : mapFind s.map t with
      | none => rfl
      | some x =>
          rw [mapInsert, hfound, h.dup] at hinsert
          cases hinsert
  obtain ⟨f, hserves, hnext, hdup⟩ := h.represents.call_some hcall
  have hf : f = if alloc then Function.update g t.id (some t) else g := by
    rcases reply with ⟨code | size⟩ | _ | _
    · obtain ⟨rfl, _, hf⟩ := hserves
      exact hf
    · obtain ⟨hsome | hthere, hf⟩ := hserves
      · rw [h.dup] at hf
        rw [hsome, if_pos rfl]
        exact hf
      · rw [hnone] at hthere
        cases hthere
    · exact hserves.elim
    · exact hserves.elim
  rw [hf] at hnext
  exact ⟨hnone, hnext, hdup.trans h.dup⟩

theorem Stores.ref_none [Inhabited α] (h : s.Stores g) (hg : g id = none) :
    s.ref id = (s, none) := by
  simp only [Table.ref, h.find, hg]

theorem Stores.ref_some [Inhabited α] (h : s.Stores g) {t : Counted α} (hg : g id = some t) :
    ∃ s', s.ref id = (s', some { t with refCount := inc t.refCount }) ∧ s'.next = s.next ∧
      s'.Stores (Function.update g id (some { t with refCount := inc t.refCount })) := by
  have hid := h.id_eq hg
  refine ⟨{ s with map := s.map.assign { t with refCount := inc t.refCount } }, ?_, rfl,
    h.assign hg hid⟩
  simp only [Table.ref, h.find, hg]

theorem Stores.free_none [Inhabited α] (h : s.Stores g) (hg : g id = none) :
    s.free id = some (s, false) := by
  simp only [Table.free, h.find, hg]

theorem Stores.free_some [Inhabited α] (h : s.Stores g) {t : Counted α} (hg : g id = some t)
    {s' : Table α} {removed : Bool} (hfree : s.free id = some (s', removed)) :
    removed = decide (dec t.refCount ≤ 0) ∧ s'.next = s.next ∧
      s'.Stores (Function.update g id (afterFree t)) := by
  unfold afterFree
  simp only [Table.free, h.find, hg] at hfree
  split at hfree <;> rename_i hpos
  · cases hfree
    have hid := h.id_eq hg
    rw [if_pos hpos, decide_eq_false (Int.not_le.mpr hpos)]
    exact ⟨rfl, rfl, h.assign hg hid⟩
  · obtain ⟨⟨map, reply⟩, hcall, heq⟩ := Option.map_eq_some_iff.mp hfree
    cases heq
    obtain ⟨f, hserves, hnext, hdup⟩ := h.represents.call_some hcall
    have hf : f = Function.update g id none := by
      rcases reply with _ | _ | _
      · exact hserves.elim
      · have hf := hserves.2
        simp only [h.id_eq hg] at hf
        exact hf
      · exact hserves.elim
    rw [hf] at hnext
    rw [if_neg hpos, decide_eq_true (Int.not_lt.mp hpos)]
    exact ⟨rfl, rfl, hnext, hdup.trans h.dup⟩

end Table

end Casting
