import Casting.Lua.State
import Mathlib.Logic.Relator

/-!
# Graphs of Lua values

What can be reached from values through tables, and when two tuples of values, each in its own
heap, are the same up to the identity of their tables.
-/

namespace Casting

/-- Keys and values of the entries, one after the other. -/
def LuaTable.elements (t : LuaTable) : List LuaValue := t.entries.flatMap fun e => [e.1, e.2]

theorem LuaTable.length_elements (t : LuaTable) : t.elements.length = 2 * t.entries.length := by
  unfold LuaTable.elements
  induction t.entries with
  | nil => rfl
  | cons e entries ih =>
    rw [List.flatMap_cons, List.length_append, ih, List.length_cons]
    exact Nat.add_comm 2 _

theorem LuaTable.elements_rawset {t t' : LuaTable} {k v : LuaValue} (h : t.rawset k v = some t') :
    t'.metatable = t.metatable ∧ ∀ w ∈ t'.elements, w = k ∨ w = v ∨ w ∈ t.elements := by
  unfold rawset at h
  split at h
  · split at h
    · cases h
      refine ⟨rfl, fun w hw => .inr (.inr ?_)⟩
      obtain ⟨e, he, hmem⟩ := List.mem_flatMap.mp hw
      exact List.mem_flatMap.mpr ⟨e, (List.mem_filter.mp he).1, hmem⟩
    · cases h
      refine ⟨rfl, fun w hw => ?_⟩
      obtain ⟨e, he, hmem⟩ := List.mem_flatMap.mp hw
      obtain ⟨hkey, hvalue⟩ := mem_assigned he
      have hinside : ∀ u, (∃ f ∈ t.entries, u = f.1 ∨ u = f.2) → u ∈ t.elements := by
        rintro u ⟨f, hf, hu⟩
        exact List.mem_flatMap.mpr ⟨f, hf, by simpa using hu⟩
      rcases List.mem_cons.mp hmem with rfl | hmem
      · rcases hkey with rfl | ⟨f, hf, heq⟩
        · exact .inl rfl
        · exact .inr (.inr (hinside _ ⟨f, hf, .inl heq⟩))
      · obtain rfl := List.mem_singleton.mp hmem
        rcases hvalue with rfl | ⟨f, hf, heq⟩
        · exact .inr (.inl rfl)
        · exact .inr (.inr (hinside _ ⟨f, hf, .inr heq⟩))
  · cases h

/-- Nil, booleans, numbers, strings and tables. -/
def LuaValue.isData : LuaValue → Bool
  | .nil | .boolean _ | .number _ | .string _ | .table _ => true
  | _ => false

inductive LuaHeap.Reachable (h : LuaHeap) (vs : List LuaValue) : Address → Prop
  | root {a : Address} : .table a ∈ vs → h.Reachable vs a
  | step {a b : Address} {t : LuaTable} : h.Reachable vs b → h.tables b = some t →
      .table a ∈ t.elements → h.Reachable vs a

/-- The values, and all that can be reached from them, are data in tables without metatables. -/
structure LuaHeap.IsData (h : LuaHeap) (vs : List LuaValue) : Prop where
  roots : ∀ v ∈ vs, v.isData = true
  tables : ∀ a, h.Reachable vs a →
    ∃ t, h.tables a = some t ∧ t.metatable = none ∧ ∀ v ∈ t.elements, v.isData = true

/-- Equal values that are not tables, or tables that `R` relates. -/
inductive LuaValue.Same (R : Address → Address → Prop) : LuaValue → LuaValue → Prop
  | scalar {v : LuaValue} : (∀ a, v ≠ .table a) → Same R v v
  | table {a a' : Address} : R a a' → Same R (.table a) (.table a')

section Same

variable {R R' : Address → Address → Prop} {v v' w w' : LuaValue}

theorem LuaValue.Same.mono (h : LuaValue.Same R v v') (hR : ∀ a a', R a a' → R' a a') :
    LuaValue.Same R' v v' := by
  cases h with
  | scalar hv => exact .scalar hv
  | table ha => exact .table (hR _ _ ha)

theorem LuaValue.Same.isKey (h : LuaValue.Same R v v') : v'.isKey = v.isKey := by
  cases h with
  | scalar => rfl
  | table => rfl

theorem LuaValue.Same.ne_nil (h : LuaValue.Same R v v') (hv : v ≠ .nil) : v' ≠ .nil := by
  cases h with
  | scalar => exact hv
  | table => exact LuaValue.noConfusion

private theorem rawEqual_table (hv : ∀ a, v ≠ .table a) (a : Address) :
    LuaValue.rawEqual v (.table a) = false := by
  have hne : ∀ x, LuaValue.table a ≠ .number x := fun _ => LuaValue.noConfusion
  cases heq : LuaValue.rawEqual v (.table a) with
  | false => rfl
  | true =>
    rw [LuaValue.rawEqual_comm] at heq
    exact (hv a (LuaValue.eq_of_rawEqual heq hne).symm).elim

theorem LuaValue.Same.rawEqual (hR : Relator.BiUnique R) (hv : LuaValue.Same R v v')
    (hw : LuaValue.Same R w w') : LuaValue.rawEqual v' w' = LuaValue.rawEqual v w := by
  cases hv with
  | scalar hv =>
    cases hw with
    | scalar => rfl
    | table => rw [rawEqual_table hv, rawEqual_table hv]
  | @table a a' ha =>
    cases hw with
    | scalar hw =>
      rw [LuaValue.rawEqual_comm, rawEqual_table hw, LuaValue.rawEqual_comm, rawEqual_table hw]
    | @table b b' hb =>
      have hiff : a' = b' ↔ a = b := by
        constructor
        · rintro rfl
          exact hR.1 ha hb
        · rintro rfl
          exact hR.2 ha hb
      simp only [LuaValue.rawEqual, LuaValue.table.injEq, hiff]

end Same

theorem exists_of_mem_right {α β : Type*} {R : α → β → Prop} {as : List α} {bs : List β}
    (h : List.Forall₂ R as bs) {b : β} (hb : b ∈ bs) : ∃ a ∈ as, R a b := by
  induction h with
  | nil => cases hb
  | @cons a b' as bs hab _ ih =>
    rcases List.mem_cons.mp hb with rfl | hb
    · exact ⟨a, List.mem_cons_self, hab⟩
    · obtain ⟨a', ha', hR⟩ := ih hb
      exact ⟨a', List.mem_cons_of_mem a ha', hR⟩

theorem exists_of_mem_left {α β : Type*} {R : α → β → Prop} {as : List α} {bs : List β}
    (h : List.Forall₂ R as bs) {a : α} (ha : a ∈ as) : ∃ b ∈ bs, R a b :=
  exists_of_mem_right (List.Forall₂.flip h) ha

def SameEntry (R : Address → Address → Prop) (e e' : LuaEntry) : Prop :=
  LuaValue.Same R e.1 e'.1 ∧ LuaValue.Same R e.2 e'.2

theorem SameEntry.mono {R R' : Address → Address → Prop} {e e' : LuaEntry}
    (h : SameEntry R e e') (hR : ∀ a a', R a a' → R' a a') : SameEntry R' e e' :=
  ⟨h.1.mono hR, h.2.mono hR⟩

/-- The same keys with the same values, in any order. -/
def LuaTable.Same (R : Address → Address → Prop) (t t' : LuaTable) : Prop :=
  Option.Rel R t.metatable t'.metatable ∧
    ∃ es, es.Perm t'.entries ∧ List.Forall₂ (SameEntry R) t.entries es

theorem LuaTable.Same.mono {R R' : Address → Address → Prop} {t t' : LuaTable}
    (h : LuaTable.Same R t t') (hR : ∀ a a', R a a' → R' a a') : LuaTable.Same R' t t' := by
  obtain ⟨hmeta, es, hperm, hentries⟩ := h
  refine ⟨?_, es, hperm, hentries.imp fun e e' he => he.mono hR⟩
  revert hmeta
  generalize t.metatable = m
  generalize t'.metatable = m'
  intro hmeta
  cases hmeta with
  | some ha => exact .some (hR _ _ ha)
  | none => exact .none

/-- Two tuples are isomorphic when some one-to-one correspondence of tables makes their values
and the contents of all corresponding tables the same. -/
def Isomorphic (h : LuaHeap) (vs : List LuaValue) (h' : LuaHeap) (vs' : List LuaValue) : Prop :=
  ∃ R : Address → Address → Prop, Relator.BiUnique R ∧ List.Forall₂ (LuaValue.Same R) vs vs' ∧
    ∀ a a', R a a' →
      ∃ t t', h.tables a = some t ∧ h'.tables a' = some t' ∧ LuaTable.Same R t t'

end Casting
