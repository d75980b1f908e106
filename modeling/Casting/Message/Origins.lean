import Casting.Message.Termination

/-!
# What the values of a message stand for

The walk of a graph of tables and scalar values, together with the Lua value that each value of the
stream was pushed for.  A table has one place in the stream, and references to it lead there.
-/

namespace Casting

open Relation

/-- A pushed value, behind the Lua value that it was pushed for. -/
abbrev Origin := LuaValue × Content

/-- Nil, booleans, numbers, strings and tables are all that can be found inside a value. -/
def LuaHeap.OnlyData (h : LuaHeap) (v : LuaValue) : Prop :=
  ∀ w, ReflTransGen h.Inside v w → w.isData = true

theorem LuaHeap.OnlyData.inside {h : LuaHeap} {v w : LuaValue} (hv : h.OnlyData v)
    (hw : h.Inside v w) : h.OnlyData w := fun u hu => hv u (.head hw hu)

section Relation

variable (h : LuaHeap) (objlen : Address → ℕ)

mutual

/-- What is pushed for a value from index `i` on, when the tables in `seen` have been met. -/
inductive Pushes : Visited → ℕ → LuaValue → List Origin → Visited → Prop
  | scalar {seen : Visited} {i : ℕ} {v : LuaValue} {c : Content} : v.scalar = some c →
      Pushes seen i v [(v, c)] seen
  | met {seen : Visited} {i j : ℕ} {a : Address} : seen a = some j →
      Pushes seen i (.table a) [(.table a, .reference (BitVec.ofNat 32 j))] seen
  | table {seen seen' : Visited} {i : ℕ} {a : Address} {t : LuaTable} {ps : List Origin} :
      seen a = none → h.tables a = some t →
      PushesAll (Function.update seen a (some i)) (i + 1) t.children ps seen' →
      Pushes seen i (.table a) ((.table a, t.header (objlen a)) :: ps) seen'

inductive PushesAll : Visited → ℕ → List LuaValue → List Origin → Visited → Prop
  | nil {seen : Visited} {i : ℕ} : PushesAll seen i [] [] seen
  | cons {seen seen' seen'' : Visited} {i : ℕ} {v : LuaValue} {vs : List LuaValue}
      {ps ps' : List Origin} : Pushes seen i v ps seen' →
      PushesAll seen' (i + ps.length) vs ps' seen'' →
      PushesAll seen i (v :: vs) (ps ++ ps') seen''

end

end Relation

variable {h : LuaHeap} {objlen : Address → ℕ}

/-! ## Walks of data -/

private theorem reduceOption_pushes (ps : List Origin) :
    (ps.map fun p => some p.2).reduceOption = ps.map Prod.snd := by
  rw [List.reduceOption, List.filterMap_map]
  exact congrFun List.filterMap_eq_map ps

private theorem pushes_walks :
    (∀ seen i v calls seen' metas, Walks h objlen seen i v calls seen' metas → h.OnlyData v →
        ∃ ps, calls = (ps.map fun p => some p.2) ∧ Pushes h objlen seen i v ps seen') ∧
      ∀ seen i vs calls seen' metas, WalksAll h objlen seen i vs calls seen' metas →
        (∀ v ∈ vs, h.OnlyData v) →
        ∃ ps, calls = (ps.map fun p => some p.2) ∧ PushesAll h objlen seen i vs ps seen' := by
  apply walks_induction
  case leaf =>
    intro seen i v hleaf hdata
    have hv := hdata v .refl
    obtain ⟨c, hc⟩ : ∃ c, v.scalar = some c := by
      cases v <;> first | exact ⟨_, rfl⟩ | cases hv; done | cases hleaf
    exact ⟨[(v, c)], by rw [hc]; rfl, .scalar hc⟩
  case met => exact fun seen i j a ha _ => ⟨[(.table a, _)], rfl, .met ha⟩
  case table =>
    intro seen seen' i a t calls metas hnew ht ih hdata
    obtain ⟨ps, rfl, hps⟩ := ih fun v hv => hdata.inside (.table ht hv)
    exact ⟨(.table a, t.header (objlen a)) :: ps, rfl, .table hnew ht hps⟩
  case function =>
    intro seen seen' i a c calls metas hc ih hdata
    cases hdata _ .refl
  case nil => exact fun _ _ _ => ⟨[], rfl, .nil⟩
  case cons =>
    intro seen seen' seen'' i v vs calls calls' metas metas' ih ih' hdata
    obtain ⟨ps, rfl, hps⟩ := ih (hdata v List.mem_cons_self)
    obtain ⟨ps', rfl, hps'⟩ := ih' fun u hu => hdata u (List.mem_cons_of_mem v hu)
    rw [reduceOption_pushes, List.length_map] at hps'
    exact ⟨ps ++ ps', by rw [List.map_append], .cons hps hps'⟩

theorem WalksAll.pushes {seen seen' : Visited} {i : ℕ} {vs : List LuaValue}
    {calls : List (Option Content)} {metas : ℕ}
    (hall : WalksAll h objlen seen i vs calls seen' metas) (hdata : ∀ v ∈ vs, h.OnlyData v) :
    ∃ ps, calls = (ps.map fun p => some p.2) ∧ PushesAll h objlen seen i vs ps seen' :=
  pushes_walks.2 _ _ _ _ _ _ hall hdata

theorem PushesAll.length_le {seen seen' : Visited} {i : ℕ} {vs : List LuaValue}
    {ps : List Origin} (hall : PushesAll h objlen seen i vs ps seen') : vs.length ≤ ps.length := by
  induction vs generalizing seen i ps with
  | nil => exact Nat.zero_le _
  | cons v vs ih =>
    cases hall with
    | @cons _ seen₁ _ _ _ _ ps₁ ps₂ hv hrest =>
      have hle := ih hrest
      have hsome : 0 < ps₁.length := by cases hv <;> simp
      rw [List.length_cons, List.length_append]
      omega

theorem PushesAll.split {seen seen'' : Visited} {i : ℕ} {vs vs' : List LuaValue}
    {ps : List Origin} (hall : PushesAll h objlen seen i (vs ++ vs') ps seen'') :
    ∃ ps₁ ps₂ seen', ps = ps₁ ++ ps₂ ∧ PushesAll h objlen seen i vs ps₁ seen' ∧
      PushesAll h objlen seen' (i + ps₁.length) vs' ps₂ seen'' := by
  induction vs generalizing seen i ps with
  | nil => exact ⟨[], ps, seen, rfl, .nil, hall⟩
  | cons v vs ih =>
    cases hall with
    | cons hv hrest =>
      obtain ⟨ps₁, ps₂, seen', rfl, hall₁, hall₂⟩ := ih hrest
      refine ⟨_, ps₂, seen', (List.append_assoc _ _ _).symm, .cons hv hall₁, ?_⟩
      rw [List.length_append, ← Nat.add_assoc]
      exact hall₂

/-! ## Places -/

/-- Every table met has its place, and every reference is to the table it was pushed for. -/
structure Placed (ps : List Origin) (seen : Visited) : Prop where
  tables : ∀ a j, seen a = some j ↔
    ∃ slots array, ps[j]? = some (.table a, .table slots array)
  references : ∀ i v ref, ps[i]? = some (v, .reference ref) →
    ∃ a j, v = .table a ∧ ref = BitVec.ofNat 32 j ∧ j < i ∧ seen a = some j

section Placed

variable {ps : List Origin} {seen : Visited}

theorem placed_nil : Placed [] fun _ => none where
  tables := by simp
  references := by simp

private theorem getElem?_snoc {p q : Origin} {j : ℕ} :
    (ps ++ [p])[j]? = some q ↔ ps[j]? = some q ∨ j = ps.length ∧ p = q := by
  rw [List.getElem?_append]
  by_cases hj : j < ps.length
  · simp [hj, Nat.ne_of_lt hj]
  · have hnone : ps[j]? = none := List.getElem?_eq_none (Nat.le_of_not_lt hj)
    rw [if_neg hj, hnone, List.getElem?_singleton]
    by_cases heq : j = ps.length
    · simp [heq]
    · have hsub : j - ps.length ≠ 0 := by omega
      simp [heq, hsub]

theorem Placed.scalar (h : Placed ps seen) {v : LuaValue} {c : Content} (hc : v.scalar = some c) :
    Placed (ps ++ [(v, c)]) seen where
  tables a j := by
    rw [h.tables a j]
    refine exists_congr fun slots => exists_congr fun array => ?_
    rw [getElem?_snoc]
    refine ⟨.inl, fun hor => hor.resolve_right ?_⟩
    rintro ⟨-, heq⟩
    cases heq
    cases hc
  references i w ref href := by
    rcases getElem?_snoc.mp href with hold | ⟨-, heq⟩
    · exact h.references i w ref hold
    · cases heq
      cases v <;> cases hc

theorem Placed.met (h : Placed ps seen) {a : Address} {j : ℕ} (ha : seen a = some j) :
    Placed (ps ++ [(.table a, .reference (BitVec.ofNat 32 j))]) seen where
  tables b i := by
    rw [h.tables b i]
    refine exists_congr fun slots => exists_congr fun array => ?_
    rw [getElem?_snoc]
    refine ⟨.inl, fun hor => hor.resolve_right ?_⟩
    rintro ⟨-, heq⟩
    cases heq
  references i w ref href := by
    rcases getElem?_snoc.mp href with hold | ⟨rfl, heq⟩
    · exact h.references i w ref hold
    · cases heq
      obtain ⟨slots, array, hj⟩ := (h.tables a j).mp ha
      exact ⟨a, j, rfl, rfl, (List.getElem?_eq_some_iff.mp hj).1, ha⟩

theorem Placed.table (h : Placed ps seen) {a : Address} (hnew : seen a = none)
    (slots array : Word) :
    Placed (ps ++ [(.table a, .table slots array)])
      (Function.update seen a (some ps.length)) where
  tables b j := by
    simp only [getElem?_snoc]
    by_cases hba : b = a
    · subst hba
      rw [Function.update_self]
      constructor
      · intro heq
        cases heq
        exact ⟨slots, array, .inr ⟨rfl, rfl⟩⟩
      · rintro ⟨s, r, hold | ⟨rfl, -⟩⟩
        · have hmet := (h.tables b j).mpr ⟨s, r, hold⟩
          rw [hnew] at hmet
          cases hmet
        · rfl
    · rw [Function.update_of_ne hba, h.tables b j]
      refine exists_congr fun s => exists_congr fun r => ?_
      refine ⟨.inl, fun hor => hor.resolve_right ?_⟩
      rintro ⟨-, heq⟩
      cases heq
      exact hba rfl
  references i w ref href := by
    rcases getElem?_snoc.mp href with hold | ⟨-, heq⟩
    · obtain ⟨b, j, rfl, rfl, hj, hb⟩ := h.references i w ref hold
      refine ⟨b, j, rfl, rfl, hj, ?_⟩
      rw [Function.update_of_ne]
      · exact hb
      · rintro rfl
        rw [hnew] at hb
        cases hb
    · cases heq

end Placed

theorem PushesAll.placed {i : ℕ} {vs : List LuaValue} {qs ps : List Origin}
    {seen seen' : Visited} (hall : PushesAll h objlen seen i vs ps seen') (hi : qs.length = i)
    (hplaced : Placed qs seen) : Placed (qs ++ ps) seen' := by
  let P : Visited → ℕ → List Origin → Visited → Prop := fun seen i ps seen' =>
    ∀ qs : List Origin, qs.length = i → Placed qs seen → Placed (qs ++ ps) seen'
  refine @PushesAll.rec h objlen (fun seen i _ ps seen' _ => P seen i ps seen')
    (fun seen i _ ps seen' _ => P seen i ps seen') ?scalar ?met ?table ?nil ?cons
    seen i vs ps seen' hall qs hi hplaced
  case scalar => exact fun hc qs _ hplaced => hplaced.scalar hc
  case met => exact fun ha qs _ hplaced => hplaced.met ha
  case table =>
    rintro seen seen' i a t ps hnew ht hall ih qs rfl hplaced
    have hrest := ih _ (List.length_append ..) (hplaced.table hnew
      (BitVec.ofNat 32 t.entries.length) (BitVec.ofNat 32 (objlen a)))
    rw [List.append_assoc] at hrest
    exact hrest
  case nil =>
    intro seen i qs _ hplaced
    rw [List.append_nil]
    exact hplaced
  case cons =>
    rintro seen seen' seen'' i v vs ps ps' hv hrest ih ih' qs rfl hplaced
    rw [← List.append_assoc]
    exact ih' _ (List.length_append ..) (ih qs rfl hplaced)

end Casting
