import Casting.Lua.Graph
import Casting.Message.Building

/-!
# Traversal of a graph

The stream that a tuple of values is to have: depth first, a table with its entries where it is
met first and a reference to that place wherever it is met again.
-/

namespace Casting

/-- Where the tables met so far stand in the stream. -/
abbrev Visited := Address → Option ℕ

/-- What stands for a value that is not a table. -/
def LuaValue.scalar : LuaValue → Option Content
  | .nil => some .nil
  | .boolean b => some (.boolean b)
  | .number n => some (.number n)
  | .string s => some (.string s)
  | _ => none

def LuaTable.header (t : LuaTable) (length : ℕ) : Content :=
  .table (BitVec.ofNat 32 t.entries.length) (BitVec.ofNat 32 length)

section Traversal

variable (h : LuaHeap) (objlen : Address → ℕ)

structure Trail where
  contents : List Content
  visited : Visited

def Trail.add (trail : Trail) (c : Content) : Trail :=
  { trail with contents := trail.contents ++ [c] }

/-- The stream after a value, going less than `depth` tables deep. -/
def Trail.value : ℕ → Trail → LuaValue → Trail
  | 0, trail, _ => trail
  | depth + 1, trail, .table a =>
      match trail.visited a with
      | some j => trail.add (.reference (BitVec.ofNat 32 j))
      | none =>
          match h.tables a with
          | some t =>
              t.elements.foldl (fun trail v => Trail.value depth trail v)
                { contents := trail.contents ++ [t.header (objlen a)]
                  visited := Function.update trail.visited a (some trail.contents.length) }
          | none => trail
  | _ + 1, trail, v =>
      match v.scalar with
      | some c => trail.add c
      | none => trail

variable {h objlen} in
theorem Trail.value_met {depth : ℕ} {trail : Trail} {a : Address} {j : ℕ}
    (ha : trail.visited a = some j) :
    trail.value h objlen (depth + 1) (.table a) =
      trail.add (.reference (BitVec.ofNat 32 j)) := by
  rw [Trail.value]
  simp only [ha]

variable {h objlen} in
theorem Trail.value_unmet {depth : ℕ} {trail : Trail} {a : Address} {t : LuaTable}
    (ha : trail.visited a = none) (ht : h.tables a = some t) :
    trail.value h objlen (depth + 1) (.table a) =
      t.elements.foldl (fun trail v => Trail.value h objlen depth trail v)
        { contents := trail.contents ++ [t.header (objlen a)]
          visited := Function.update trail.visited a (some trail.contents.length) } := by
  rw [Trail.value]
  simp only [ha, ht]

def stream (vs : List LuaValue) : List Content :=
  (vs.foldl (fun trail v => Trail.value h objlen (h.fresh + 1) trail v)
    (Trail.mk [] fun _ => none)).contents

/-! ## The traversal as a relation -/

mutual

/-- From position `i` on, `cs` stands for a value. -/
inductive Encodes : Visited → ℕ → LuaValue → List Content → Visited → Prop
  | scalar {seen : Visited} {i : ℕ} {v : LuaValue} {c : Content} : v.scalar = some c →
      Encodes seen i v [c] seen
  | reference {seen : Visited} {i j : ℕ} {a : Address} : seen a = some j →
      Encodes seen i (.table a) [.reference (BitVec.ofNat 32 j)] seen
  | table {seen seen' : Visited} {i : ℕ} {a : Address} {t : LuaTable} {cs : List Content} :
      seen a = none → h.tables a = some t → t.metatable = none →
      EncodesAll (Function.update seen a (some i)) (i + 1) t.elements cs seen' →
      Encodes seen i (.table a) (t.header (objlen a) :: cs) seen'

inductive EncodesAll : Visited → ℕ → List LuaValue → List Content → Visited → Prop
  | nil {seen : Visited} {i : ℕ} : EncodesAll seen i [] [] seen
  | cons {seen seen' seen'' : Visited} {i : ℕ} {v : LuaValue} {vs : List LuaValue}
      {cs cs' : List Content} :
      Encodes seen i v cs seen' → EncodesAll seen' (i + cs.length) vs cs' seen'' →
      EncodesAll seen i (v :: vs) (cs ++ cs') seen''

end

variable {h objlen}

/-! ## Tables stay where they were met -/

theorem encodes_induction
    {P : Visited → ℕ → LuaValue → List Content → Visited → Prop}
    {Q : Visited → ℕ → List LuaValue → List Content → Visited → Prop}
    (scalar : ∀ seen i v c, v.scalar = some c → P seen i v [c] seen)
    (reference : ∀ seen i j a, seen a = some j →
      P seen i (.table a) [.reference (BitVec.ofNat 32 j)] seen)
    (table : ∀ seen seen' i a t cs, seen a = none → h.tables a = some t → t.metatable = none →
      Q (Function.update seen a (some i)) (i + 1) t.elements cs seen' →
      P seen i (.table a) (t.header (objlen a) :: cs) seen')
    (nil : ∀ seen i, Q seen i [] [] seen)
    (cons : ∀ seen seen' seen'' i v vs cs cs', P seen i v cs seen' →
      Q seen' (i + cs.length) vs cs' seen'' → Q seen i (v :: vs) (cs ++ cs') seen'') :
    (∀ seen i v cs seen', Encodes h objlen seen i v cs seen' → P seen i v cs seen') ∧
      ∀ seen i vs cs seen', EncodesAll h objlen seen i vs cs seen' → Q seen i vs cs seen' := by
  constructor
  · intro seen i v cs seen' henc
    exact @Encodes.rec h objlen (fun seen i v cs seen' _ => P seen i v cs seen')
      (fun seen i vs cs seen' _ => Q seen i vs cs seen') (fun hc => scalar _ _ _ _ hc)
      (fun ha => reference _ _ _ _ ha) (fun hnew ht hm _ ih => table _ _ _ _ _ _ hnew ht hm ih)
      (nil _ _) (fun _ _ ih ih' => cons _ _ _ _ _ _ _ _ ih ih') seen i v cs seen' henc
  · intro seen i vs cs seen' hall
    exact @EncodesAll.rec h objlen (fun seen i v cs seen' _ => P seen i v cs seen')
      (fun seen i vs cs seen' _ => Q seen i vs cs seen') (fun hc => scalar _ _ _ _ hc)
      (fun ha => reference _ _ _ _ ha) (fun hnew ht hm _ ih => table _ _ _ _ _ _ hnew ht hm ih)
      (nil _ _) (fun _ _ ih ih' => cons _ _ _ _ _ _ _ _ ih ih') seen i vs cs seen' hall

private theorem extends_both :
    (∀ seen i v cs seen', Encodes h objlen seen i v cs seen' →
      ∀ a j, seen a = some j → seen' a = some j) ∧
    ∀ seen i vs cs seen', EncodesAll h objlen seen i vs cs seen' →
      ∀ a j, seen a = some j → seen' a = some j := by
  apply encodes_induction
  case scalar => exact fun _ _ _ _ _ _ _ ha => ha
  case reference => exact fun _ _ _ _ _ _ _ ha => ha
  case nil => exact fun _ _ _ _ ha => ha
  case cons => exact fun _ _ _ _ _ _ _ _ ih ih' a j ha => ih' a j (ih a j ha)
  case table =>
    intro seen seen' i b t cs hnew _ _ ih a j ha
    apply ih
    rw [Function.update_of_ne]
    · exact ha
    · rintro rfl
      rw [hnew] at ha
      cases ha

theorem Encodes.extends {seen seen' : Visited} {i : ℕ} {v : LuaValue} {cs : List Content}
    (henc : Encodes h objlen seen i v cs seen') {a : Address} {j : ℕ} (ha : seen a = some j) :
    seen' a = some j :=
  extends_both.1 _ _ _ _ _ henc a j ha

private theorem length_both :
    (∀ seen i v cs seen', Encodes h objlen seen i v cs seen' → 0 < cs.length) ∧
    ∀ seen i vs cs seen', EncodesAll h objlen seen i vs cs seen' → vs.length ≤ cs.length := by
  apply encodes_induction
  case scalar => exact fun _ _ _ _ _ => Nat.one_pos
  case reference => exact fun _ _ _ _ _ => Nat.one_pos
  case table => exact fun _ _ _ _ _ _ _ _ _ _ => Nat.succ_pos _
  case nil => exact fun _ _ => le_rfl
  case cons =>
    intro seen seen' seen'' i v vs cs cs' ih ih'
    rw [List.length_cons, List.length_append]
    omega

theorem EncodesAll.length_le {seen seen' : Visited} {i : ℕ} {vs : List LuaValue}
    {cs : List Content} (hall : EncodesAll h objlen seen i vs cs seen') :
    vs.length ≤ cs.length :=
  length_both.2 _ _ _ _ _ hall

def unmet (h : LuaHeap) (seen : Visited) : ℕ :=
  ((List.range h.fresh).filter fun a => (seen a).isNone).length

theorem unmet_le {seen seen' : Visited}
    (hext : ∀ a j, seen a = some j → seen' a = some j) : unmet h seen' ≤ unmet h seen := by
  unfold unmet
  rw [← List.countP_eq_length_filter, ← List.countP_eq_length_filter]
  apply List.countP_mono_left
  intro a _ ha
  cases hseen : seen a with
  | none => rfl
  | some j =>
    rw [hext a j hseen] at ha
    cases ha

theorem unmet_update_lt {seen : Visited} {a : Address} {t : LuaTable} {i : ℕ}
    (ha : seen a = none) (ht : h.tables a = some t) :
    unmet h (Function.update seen a (some i)) < unmet h seen := by
  have hlt : a < h.fresh := LuaHeap.lt_fresh ht
  obtain ⟨before, after, hsplit⟩ := List.append_of_mem (List.mem_range.mpr hlt)
  have hle : ∀ l : List Address,
      (l.filter fun b => (Function.update seen a (some i) b).isNone).length ≤
        (l.filter fun b => (seen b).isNone).length := by
    intro l
    rw [← List.countP_eq_length_filter, ← List.countP_eq_length_filter]
    apply List.countP_mono_left
    intro b _ hb
    by_cases hba : b = a
    · rw [hba, ha]
      rfl
    · rwa [Function.update_of_ne hba] at hb
  unfold unmet
  rw [hsplit, List.filter_append, List.filter_append, List.filter_cons_of_neg (by simp),
    List.filter_cons_of_pos (by simp [ha]), List.length_append, List.length_append,
    List.length_cons]
  have hbefore := hle before
  have hafter := hle after
  omega

/-! ## The computed stream -/

/-- Values that the traversal of some roots meets. -/
def Meets (h : LuaHeap) (roots : List LuaValue) (v : LuaValue) : Prop :=
  v.isData = true ∧ ∀ a, v = .table a → h.Reachable roots a

section Computed

variable {roots : List LuaValue}

private theorem foldl_encodes {depth : ℕ}
    (ih : ∀ (trail : Trail) (v : LuaValue), Meets h roots v → unmet h trail.visited < depth →
      ∃ cs, (trail.value h objlen depth v).contents = trail.contents ++ cs ∧
        Encodes h objlen trail.visited trail.contents.length v cs
          (trail.value h objlen depth v).visited)
    (trail : Trail) (vs : List LuaValue) (hvs : ∀ v ∈ vs, Meets h roots v)
    (hdepth : unmet h trail.visited < depth) :
    ∃ cs, (vs.foldl (fun trail v => Trail.value h objlen depth trail v) trail).contents =
        trail.contents ++ cs ∧
      EncodesAll h objlen trail.visited trail.contents.length vs cs
        (vs.foldl (fun trail v => Trail.value h objlen depth trail v) trail).visited := by
  induction vs generalizing trail with
  | nil => exact ⟨[], (List.append_nil _).symm, .nil⟩
  | cons v vs ihvs =>
    obtain ⟨cs, hcs, hv⟩ := ih trail v (hvs v List.mem_cons_self) hdepth
    have hle : unmet h (trail.value h objlen depth v).visited ≤ unmet h trail.visited :=
      unmet_le fun _ _ hj => hv.extends hj
    obtain ⟨cs', hcs', hrest⟩ := ihvs (trail.value h objlen depth v)
      (fun w hw => hvs w (List.mem_cons_of_mem v hw)) (lt_of_le_of_lt hle hdepth)
    rw [hcs, List.length_append] at hrest
    refine ⟨cs ++ cs', ?_, .cons hv hrest⟩
    rw [List.foldl_cons, hcs', hcs, List.append_assoc]

theorem Trail.value_encodes (hdata : h.IsData roots) (depth : ℕ) (trail : Trail) (v : LuaValue)
    (hv : Meets h roots v) (hdepth : unmet h trail.visited < depth) :
    ∃ cs, (trail.value h objlen depth v).contents = trail.contents ++ cs ∧
      Encodes h objlen trail.visited trail.contents.length v cs
        (trail.value h objlen depth v).visited := by
  induction depth generalizing trail v with
  | zero => exact (Nat.not_lt_zero _ hdepth).elim
  | succ depth ih =>
    cases v with
    | table a =>
      cases hseen : trail.visited a with
      | some j =>
        refine ⟨[.reference (BitVec.ofNat 32 j)], ?_, ?_⟩
        · rw [Trail.value_met hseen]
          rfl
        · rw [Trail.value_met hseen]
          exact .reference hseen
      | none =>
        obtain ⟨t, ht, hmeta, helements⟩ := hdata.tables a (hv.2 a rfl)
        have hless := unmet_update_lt (i := trail.contents.length) hseen ht
        have hmeets : ∀ w ∈ t.elements, Meets h roots w := by
          intro w hw
          refine ⟨helements w hw, ?_⟩
          rintro b rfl
          exact .step (hv.2 a rfl) ht hw
        obtain ⟨cs, hcs, hall⟩ := foldl_encodes ih
          { contents := trail.contents ++ [t.header (objlen a)]
            visited := Function.update trail.visited a (some trail.contents.length) }
          t.elements hmeets (lt_of_lt_of_le hless (Nat.le_of_lt_succ hdepth))
        rw [List.length_append, List.length_singleton] at hall
        refine ⟨t.header (objlen a) :: cs, ?_, ?_⟩
        · rw [Trail.value_unmet hseen ht, hcs, List.append_assoc]
          rfl
        · rw [Trail.value_unmet hseen ht]
          exact .table hseen ht hmeta hall
    | nil => exact ⟨[.nil], rfl, .scalar rfl⟩
    | boolean b => exact ⟨[.boolean b], rfl, .scalar rfl⟩
    | number n => exact ⟨[.number n], rfl, .scalar rfl⟩
    | string s => exact ⟨[.string s], rfl, .scalar rfl⟩
    | _ => cases hv.1

variable (objlen) in
theorem stream_encodes {vs : List LuaValue} (hdata : h.IsData vs) :
    ∃ seen, EncodesAll h objlen (fun _ => none) 0 vs (stream h objlen vs) seen := by
  have hmeets : ∀ v ∈ vs, Meets h vs v := by
    intro v hv
    refine ⟨hdata.roots v hv, ?_⟩
    rintro a rfl
    exact .root hv
  have hdepth : unmet h (fun _ => none) < h.fresh + 1 := by
    apply Nat.lt_succ_of_le
    unfold unmet
    exact (List.length_filter_le _ _).trans_eq List.length_range
  obtain ⟨cs, hcs, hall⟩ := @foldl_encodes h objlen _ _
    (fun trail v hv hd => Trail.value_encodes hdata _ trail v hv hd)
    ⟨[], fun _ => none⟩ vs hmeets hdepth
  rw [List.nil_append] at hcs
  have hstream : stream h objlen vs = cs := hcs
  rw [hstream]
  exact ⟨_, hall⟩

end Computed

end Traversal

end Casting
