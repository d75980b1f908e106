import Casting.Message.Graphs
import Casting.Message.Simulation
import Casting.Message.Visits
import Mathlib.Data.Set.Card
import Mathlib.Order.WellFounded
import Mathlib.Logic.Relation

/-!
# When encoding ends

Tables are recorded before what is inside them is walked through, functions are not.  On a finite
graph the recursion of `write_value` ends exactly if no function is found again through nothing
but upvalues.
-/

namespace Casting

open Relation

/-! ## Graphs -/

section Graph

variable (h : LuaHeap)

inductive LuaHeap.Inside : LuaValue → LuaValue → Prop
  | table {a : Address} {t : LuaTable} {v : LuaValue} : h.tables a = some t → v ∈ t.children →
      LuaHeap.Inside (.table a) v
  | upvalue {a : Address} {c : Closure} {v : LuaValue} : h.closures a = some c →
      v ∈ c.upvalues → LuaHeap.Inside (.function a) v

/-- The values and whatever can be found inside them. -/
def LuaHeap.Contains (vs : List LuaValue) (v : LuaValue) : Prop :=
  ∃ r ∈ vs, ReflTransGen h.Inside r v

/-- A finite graph of values without userdata, whose tables and functions exist. -/
structure LuaHeap.IsGraph (vs : List LuaValue) : Prop where
  finite : {v | h.Contains vs v}.Finite
  tables : ∀ a, h.Contains vs (.table a) → ∃ t, h.tables a = some t
  closures : ∀ a, h.Contains vs (.function a) → ∃ c, h.closures a = some c
  plain : ∀ a, ¬ h.Contains vs (.userdata a)

def LuaHeap.Captures (a b : Address) : Prop :=
  ∃ c, h.closures a = some c ∧ .function b ∈ c.upvalues

variable {h}

theorem LuaHeap.Contains.inside {vs : List LuaValue} {v w : LuaValue} (hv : h.Contains vs v)
    (hw : h.Inside v w) : h.Contains vs w := by
  obtain ⟨r, hr, hpath⟩ := hv
  exact ⟨r, hr, hpath.tail hw⟩

end Graph

/-! ## What a walk has gone through -/

section Back

variable {h : LuaHeap} {lib : LuaLibrary} {walk : Walker} {fuel : ℕ}

/-- Nothing but a graph can be walked, as far as there is no userdata in it. -/
def Uncovers (lib : LuaLibrary) (h : LuaHeap) (walk : Walker) : Prop :=
  ∀ (L : LuaState) (idx : ℤ) (v : LuaValue) (seen : Visited) (i : ℕ) (w : Walk), L.heap = h →
    L.value idx = some v → (∀ a, ¬ ReflTransGen h.Inside v (.userdata a)) →
    walk seen i L idx = some w →
    Walks h lib.objlen seen i v w.calls w.seen w.metas ∧ w.state = L

theorem Uncovers.entries (huncovers : Uncovers lib h walk) {bottom : LuaState} {idx : ℤ}
    {a : Address} {t : LuaTable} (hidx : 0 < idx) (hheap : bottom.heap = h)
    (hbottom : bottom.value idx = some (.table a)) (ht : h.tables a = some t)
    {before after : List LuaEntry} (hentries : t.entries = before ++ after) {k : LuaValue}
    (hk : t.next k = some after.head?) {n : ℕ} {slots slots' : Word} {seen : Visited} {i : ℕ}
    {w : Walk}
    (hplain : ∀ v ∈ after.flatMap fun e => [e.1, e.2], ∀ a,
      ¬ ReflTransGen h.Inside v (.userdata a))
    (hwalk : walkEntries walk idx n slots seen i (bottom.push k) = some (slots', w)) :
    WalksAll h lib.objlen seen i (after.flatMap fun e => [e.1, e.2]) w.calls w.seen w.metas ∧
      w.state = bottom ∧ slots' = slots + BitVec.ofNat 32 after.length := by
  have htable := tableAt_push hidx hbottom (hheap ▸ ht)
  induction after generalizing before k n slots seen i w with
  | nil =>
    cases n with
    | zero => cases hwalk
    | succ n =>
      rw [walkEntries, luaNext_end (htable k) hk] at hwalk
      simp only [Option.bind_eq_bind, Option.bind_some, Bool.false_eq_true, if_false,
        Option.some.injEq, Prod.mk.injEq] at hwalk
      obtain ⟨rfl, rfl⟩ := hwalk
      exact ⟨.nil, rfl, (BitVec.add_zero _).symm⟩
  | cons e after ih =>
    cases n with
    | zero => cases hwalk
    | succ n =>
      rw [walkEntries, luaNext_entry (htable k) hk] at hwalk
      simp only [Option.bind_eq_bind, Option.bind_some, if_true] at hwalk
      obtain ⟨key, hkey, hwalk⟩ := Option.bind_eq_some_iff.mp hwalk
      obtain ⟨value, hvalue, hwalk⟩ := Option.bind_eq_some_iff.mp hwalk
      obtain ⟨⟨slots₁, rest⟩, hrest, hwalk⟩ := Option.bind_eq_some_iff.mp hwalk
      cases hwalk
      rw [List.flatMap_cons] at hplain ⊢
      obtain ⟨hwalkk, hstatek⟩ := huncovers ((bottom.push e.1).push e.2) (-2) e.1 seen i key hheap
        (LuaState.value_second ⟨bottom.stack, rfl⟩) (hplain e.1 (by simp)) hkey
      rw [hstatek] at hvalue
      obtain ⟨hwalkv, hstatev⟩ := huncovers ((bottom.push e.1).push e.2) (-1) e.2 _ _ value hheap
        (LuaState.value_top ⟨_, rfl⟩) (hplain e.2 (by simp)) hvalue
      have hpop : luaPop (key.append value).state 1 = bottom.push e.1 := by
        change luaPop value.state 1 = _
        rw [hstatev]
        rfl
      rw [hpop] at hrest
      have hentries' : t.entries = (before ++ [e]) ++ after :=
        hentries.trans (List.append_cons before e after)
      obtain ⟨hwalkr, hstater, hslots⟩ := ih hentries' (LuaTable.next_key hentries)
        (fun v hv => hplain v (List.mem_append_right _ hv)) hrest
      refine ⟨?_, hstater, ?_⟩
      · rw [Walk.contents_append, List.length_append, ← Nat.add_assoc] at hwalkr
        have hall := WalksAll.cons hwalkk (.cons hwalkv hwalkr)
        rw [← List.append_assoc, ← Nat.add_assoc] at hall
        exact hall
      · rw [hslots, slots_succ, List.length_cons]

theorem Uncovers.upvalues (huncovers : Uncovers lib h walk) {L : LuaState} {idx : ℤ}
    {a : Address} {c : Closure} (hheap : L.heap = h) (hv : L.value idx = some (.function a))
    (hc : h.closures a = some c) {before after : List LuaValue}
    (hupvalues : c.upvalues = before ++ after) {seen : Visited} {i : ℕ} {w : Walk}
    (hplain : ∀ v ∈ after, ∀ a, ¬ ReflTransGen h.Inside v (.userdata a))
    (hwalk : walkUpvalues walk idx after.length before.length seen i L = some w) :
    WalksAll h lib.objlen seen i after w.calls w.seen w.metas ∧ w.state = L := by
  induction after generalizing before seen i w with
  | nil =>
    cases hwalk
    exact ⟨.nil, rfl⟩
  | cons v after ih =>
    rw [List.length_cons, walkUpvalues, luaGetupvalue_mem hv (hheap ▸ hc) hupvalues] at hwalk
    simp only [Option.bind_eq_bind] at hwalk
    obtain ⟨value, hvalue, hwalk⟩ := Option.bind_eq_some_iff.mp hwalk
    obtain ⟨rest, hrest, hwalk⟩ := Option.bind_eq_some_iff.mp hwalk
    cases hwalk
    obtain ⟨hwalkv, hstatev⟩ := huncovers (L.push v) (-1) v seen i value hheap
      (LuaState.value_top ⟨L.stack, rfl⟩) (hplain v List.mem_cons_self) hvalue
    have hpop : luaPop value.state 1 = L := by
      rw [hstatev]
      rfl
    rw [hpop] at hrest
    have hupvalues' : c.upvalues = (before ++ [v]) ++ after :=
      hupvalues.trans (List.append_cons before v after)
    obtain ⟨hwalkr, hstater⟩ := ih hupvalues'
      (fun u hu => hplain u (List.mem_cons_of_mem v hu)) (by
        rw [List.length_append, List.length_singleton]
        exact hrest)
    exact ⟨.cons hwalkv hwalkr, hstater⟩

theorem Uncovers.metatable (huncovers : Uncovers lib h walk) {L : LuaState} {idx : ℤ}
    {a : Address} {t : LuaTable} (hheap : L.heap = h) (hv : L.value idx = some (.table a))
    (ht : h.tables a = some t) {entries w : Walk} {i : ℕ} (hstate : entries.state = L)
    (hplain : ∀ v ∈ (t.metatable.map LuaValue.table).toList, ∀ a,
      ¬ ReflTransGen h.Inside v (.userdata a))
    (hwalk : walkMetatable walk idx i entries = some w) :
    ∃ calls metas, w.calls = entries.calls ++ calls ∧
      w.metas = entries.metas + metas + t.metatable.isSome.toNat ∧ w.state = L ∧
      WalksAll h lib.objlen entries.seen (i + entries.contents.length)
        (t.metatable.map LuaValue.table).toList calls w.seen metas := by
  rw [walkMetatable, hstate, luaGetmetatable_table hv (hheap ▸ ht)] at hwalk
  cases hmeta : t.metatable with
  | none =>
    rw [hmeta] at hwalk
    cases hwalk
    exact ⟨[], 0, (List.append_nil _).symm, rfl, rfl, .nil⟩
  | some m =>
    rw [hmeta] at hwalk hplain
    simp only [Option.bind_eq_bind, Option.bind_some, if_true] at hwalk
    obtain ⟨value, hvalue, hwalk⟩ := Option.bind_eq_some_iff.mp hwalk
    cases hwalk
    obtain ⟨hwalkm, hstatem⟩ := huncovers (L.push (.table m)) (-1) (.table m) _ _ value hheap
      (LuaState.value_top ⟨L.stack, rfl⟩) (hplain _ List.mem_cons_self) hvalue
    refine ⟨value.calls, value.metas, rfl, (Nat.add_assoc _ _ _).symm, ?_, ?_⟩
    · change luaPop value.state 1 = L
      rw [hstatem]
      rfl
    · have hall := WalksAll.cons hwalkm .nil
      rw [List.append_nil] at hall
      exact hall

theorem exists_table_of_luaNext {L : LuaState} {idx : ℤ} {a : Address} (hidx : 0 < idx)
    (hv : L.value idx = some (.table a)) {k : LuaValue} {r : Bool × LuaState}
    (hnext : luaNext (L.push k) idx = some r) : ∃ t, L.heap.tables a = some t := by
  unfold luaNext at hnext
  obtain ⟨⟨b, t⟩, htable, -⟩ := Option.bind_eq_some_iff.mp hnext
  have hvalue : (L.push k).value idx = some (.table a) :=
    LuaState.value_of_bottom hidx ⟨[k], rfl⟩ hv
  unfold LuaState.tableAt at htable
  rw [hvalue] at htable
  obtain ⟨t, ht, -⟩ := Option.map_eq_some_iff.mp htable
  exact ⟨t, ht⟩

theorem exists_table {L : LuaState} {idx : ℤ} {a : Address} (hidx : 0 < idx)
    (hv : L.value idx = some (.table a)) {n : ℕ} {slots : Word} {seen : Visited} {i : ℕ}
    {k : LuaValue} {r : Word × Walk}
    (hwalk : walkEntries walk idx n slots seen i (L.push k) = some r) :
    ∃ t, L.heap.tables a = some t := by
  cases n with
  | zero => cases hwalk
  | succ n =>
    rw [walkEntries] at hwalk
    obtain ⟨next, hnext, -⟩ := Option.bind_eq_some_iff.mp hwalk
    exact exists_table_of_luaNext hidx hv hnext

theorem walkValue_uncovers (lib : LuaLibrary) (h : LuaHeap) (fuel : ℕ) :
    Uncovers lib h (walkValue lib fuel) := by
  induction fuel with
  | zero =>
    intro L idx v seen i w _ _ _ hwalk
    cases hwalk
  | succ fuel ih =>
    intro L idx v seen i w hheap hv hplain hwalk
    cases v with
    | table a =>
      simp only [walkValue, hv] at hwalk
      cases ha : seen a with
      | some j =>
        rw [ha] at hwalk
        cases hwalk
        exact ⟨.met ha, rfl⟩
      | none =>
        rw [ha] at hwalk
        simp only [Option.bind_eq_bind] at hwalk
        obtain ⟨hidx, habs⟩ := value_lcAbsindex hv
        obtain ⟨L₁, hroom, hwalk⟩ := Option.bind_eq_some_iff.mp hwalk
        obtain ⟨-, rfl⟩ := luaCheckstack_eq_some.mp hroom
        obtain ⟨⟨slots, entries⟩, hentries, hwalk⟩ := Option.bind_eq_some_iff.mp hwalk
        obtain ⟨table, hmeta, hwalk⟩ := Option.bind_eq_some_iff.mp hwalk
        cases hwalk
        obtain ⟨t, ht⟩ := exists_table hidx habs hentries
        rw [hheap] at ht
        have hinside : ∀ u ∈ t.children, ∀ b, ¬ ReflTransGen h.Inside u (.userdata b) :=
          fun u hu b hpath => hplain b (.head (.table ht hu) hpath)
        obtain ⟨hall, hstate, rfl⟩ := ih.entries hidx hheap habs ht (List.nil_append _).symm
          t.next_nil (fun u hu => hinside u (List.mem_append_left _ hu)) hentries
        obtain ⟨calls, metas, hcalls, hmetas, hstate', hall'⟩ := ih.metatable hheap habs ht hstate
          (fun u hu => hinside u (List.mem_append_right _ hu)) hmeta
        refine ⟨?_, hstate'⟩
        have htable := Walks.table ha ht (hall.join hall')
        rw [← hcalls, ← hmetas] at htable
        have hslots : (0 : Word) + BitVec.ofNat 32 t.entries.length =
            BitVec.ofNat 32 t.entries.length := BitVec.zero_add _
        rw [hslots]
        exact htable
    | function a =>
      simp only [walkValue, hv, hheap, Option.bind_eq_bind] at hwalk
      obtain ⟨c, hc, hwalk⟩ := Option.bind_eq_some_iff.mp hwalk
      obtain ⟨upvalues, hupvalues, hwalk⟩ := Option.bind_eq_some_iff.mp hwalk
      cases hwalk
      obtain ⟨hall, hstate⟩ := ih.upvalues hheap hv hc (List.nil_append _).symm
        (fun u hu b hpath => hplain b (.head (.upvalue hc hu) hpath)) hupvalues
      exact ⟨.function hc hall, hstate⟩
    | userdata a => exact (hplain a .refl).elim
    | _ =>
      simp only [walkValue, hv] at hwalk
      cases hwalk
      exact ⟨.leaf rfl, rfl⟩

theorem Uncovers.saved (huncovers : Uncovers lib h walk) {L : LuaState} {idx : ℤ}
    (hheap : L.heap = h) {vs : List LuaValue}
    (hvs : ∀ (j : ℕ) v, vs[j]? = some v → L.value (idx + j) = some v) {seen : Visited} {i : ℕ}
    {w : Walk} (hplain : ∀ v ∈ vs, ∀ a, ¬ ReflTransGen h.Inside v (.userdata a))
    (hwalk : walkSaved walk vs.length idx seen i L = some w) :
    WalksAll h lib.objlen seen i vs w.calls w.seen w.metas ∧ w.state = L := by
  induction vs generalizing idx seen i w with
  | nil =>
    cases hwalk
    exact ⟨.nil, rfl⟩
  | cons v vs ih =>
    rw [List.length_cons, walkSaved] at hwalk
    simp only [Option.bind_eq_bind] at hwalk
    obtain ⟨value, hvalue, hwalk⟩ := Option.bind_eq_some_iff.mp hwalk
    obtain ⟨rest, hrest, hwalk⟩ := Option.bind_eq_some_iff.mp hwalk
    cases hwalk
    obtain ⟨hv, hvs'⟩ := value_cons hvs
    obtain ⟨hwalkv, hstatev⟩ := huncovers L idx v seen i value hheap hv
      (hplain v List.mem_cons_self) hvalue
    rw [hstatev] at hrest
    obtain ⟨hwalkr, hstater⟩ := ih hvs' (fun u hu => hplain u (List.mem_cons_of_mem v hu)) hrest
    exact ⟨.cons hwalkv hwalkr, hstater⟩

end Back

/-! ## No function is found again -/

section Cycle

variable {h : LuaHeap} {objlen : Address → ℕ}

/-- Every table of the one is among those of the other. -/
def Visited.Within (seen seen' : Visited) : Prop := ∀ a, seen a ≠ none → seen' a ≠ none

theorem Visited.Within.trans {seen seen' seen'' : Visited} (h : seen.Within seen')
    (h' : seen'.Within seen'') : seen.Within seen'' := fun a ha => h' a (h a ha)

theorem Visited.within_update (seen : Visited) (a : Address) (i : ℕ) :
    seen.Within (Function.update seen a (some i)) := by
  intro b hb
  by_cases hba : b = a
  · rw [hba, Function.update_self]
    exact Option.some_ne_none i
  · rwa [Function.update_of_ne hba]

private theorem within_walks :
    (∀ seen i v calls seen' metas, Walks h objlen seen i v calls seen' metas →
        seen.Within seen') ∧
      ∀ seen i vs calls seen' metas, WalksAll h objlen seen i vs calls seen' metas →
        seen.Within seen' := by
  apply walks_induction
  case leaf => exact fun _ _ _ _ _ ha => ha
  case met => exact fun _ _ _ _ _ _ ha => ha
  case table =>
    intro seen seen' i a t calls metas _ _ ih
    exact (Visited.within_update seen a i).trans ih
  case function => exact fun _ _ _ _ _ _ _ _ ih => ih
  case nil => exact fun _ _ _ ha => ha
  case cons => exact fun _ _ _ _ _ _ _ _ _ _ ih ih' => ih.trans ih'

theorem Walks.within {seen seen' : Visited} {i : ℕ} {v : LuaValue}
    {calls : List (Option Content)} {metas : ℕ}
    (hwalk : Walks h objlen seen i v calls seen' metas) : seen.Within seen' :=
  within_walks.1 _ _ _ _ _ _ hwalk

theorem WalksAll.within {seen seen' : Visited} {i : ℕ} {vs : List LuaValue}
    {calls : List (Option Content)} {metas : ℕ}
    (hall : WalksAll h objlen seen i vs calls seen' metas) : seen.Within seen' :=
  within_walks.2 _ _ _ _ _ _ hall

theorem WalksAll.mem {seen seen' : Visited} {i : ℕ} {vs : List LuaValue}
    {calls : List (Option Content)} {metas : ℕ}
    (hall : WalksAll h objlen seen i vs calls seen' metas) {v : LuaValue} (hv : v ∈ vs) :
    ∃ seen₁ i₁ calls₁ seen₂ metas₁, Walks h objlen seen₁ i₁ v calls₁ seen₂ metas₁ ∧
      calls₁.length ≤ calls.length ∧ seen₂.Within seen' := by
  induction vs generalizing seen i calls metas with
  | nil => cases hv
  | cons u vs ih =>
    cases hall with
    | cons hu hrest =>
      rw [List.length_append]
      rcases List.mem_cons.mp hv with rfl | hv
      · exact ⟨_, _, _, _, _, hu, Nat.le_add_right _ _, hrest.within⟩
      · obtain ⟨seen₁, i₁, calls₁, seen₂, metas₁, hwalk, hle, hwithin⟩ := ih hrest hv
        exact ⟨seen₁, i₁, calls₁, seen₂, metas₁, hwalk, hle.trans (Nat.le_add_left _ _), hwithin⟩

theorem Walks.captures {seen seen' : Visited} {i : ℕ} {a b : Address}
    {calls : List (Option Content)} {metas : ℕ}
    (hwalk : Walks h objlen seen i (.function a) calls seen' metas) (hb : h.Captures a b) :
    ∃ seen₁ i₁ calls₁ seen₂ metas₁,
      Walks h objlen seen₁ i₁ (.function b) calls₁ seen₂ metas₁ ∧
        calls₁.length < calls.length := by
  obtain ⟨c, hc, hmem⟩ := hb
  cases hwalk with
  | leaf hleaf => cases hleaf
  | function hc' hall =>
    rw [hc, Option.some.injEq] at hc'
    subst hc'
    obtain ⟨seen₁, i₁, calls₁, seen₂, metas₁, hwalk, hle, -⟩ := hall.mem hmem
    exact ⟨seen₁, i₁, calls₁, seen₂, metas₁, hwalk, Nat.lt_succ_of_le hle⟩

theorem Walks.capturesAll {seen seen' : Visited} {i : ℕ} {a b : Address}
    {calls : List (Option Content)} {metas : ℕ}
    (hwalk : Walks h objlen seen i (.function a) calls seen' metas)
    (hb : TransGen h.Captures a b) :
    ∃ seen₁ i₁ calls₁ seen₂ metas₁,
      Walks h objlen seen₁ i₁ (.function b) calls₁ seen₂ metas₁ ∧
        calls₁.length < calls.length := by
  induction hb with
  | single hb => exact hwalk.captures hb
  | tail _ hb ih =>
    obtain ⟨_, _, _, _, _, hwalk₁, hlt₁⟩ := ih
    obtain ⟨seen₂, i₂, calls₂, seen₃, metas₂, hwalk₂, hlt₂⟩ := hwalk₁.captures hb
    exact ⟨seen₂, i₂, calls₂, seen₃, metas₂, hwalk₂, hlt₂.trans hlt₁⟩

/-- A function on a cycle of upvalues has no walk: each would hold a shorter one. -/
theorem Walks.acyclic {seen seen' : Visited} {i : ℕ} {a : Address}
    {calls : List (Option Content)} {metas : ℕ}
    (hwalk : Walks h objlen seen i (.function a) calls seen' metas) :
    ¬ TransGen h.Captures a a := by
  intro hcycle
  induction hn : calls.length using Nat.strong_induction_on generalizing seen i calls seen' metas
    with
  | _ n ih =>
    obtain ⟨_, _, calls₁, _, _, hwalk₁, hlt⟩ := hwalk.capturesAll hcycle
    exact ih calls₁.length (hn ▸ hlt) hwalk₁ rfl

/-- What is inside a table has been walked through, and no table was met in it that is not in
`final`. -/
def Walked (h : LuaHeap) (objlen : Address → ℕ) (final : Visited) (a : Address) : Prop :=
  ∃ t seen i calls seen' metas, h.tables a = some t ∧
    WalksAll h objlen seen i t.children calls seen' metas ∧ seen'.Within final

private theorem walked_walks :
    (∀ seen i v calls seen' metas, Walks h objlen seen i v calls seen' metas →
        Walks h objlen seen i v calls seen' metas ∧ ∀ final, seen'.Within final →
          ∀ a, seen' a ≠ none → seen a ≠ none ∨ Walked h objlen final a) ∧
      ∀ seen i vs calls seen' metas, WalksAll h objlen seen i vs calls seen' metas →
        WalksAll h objlen seen i vs calls seen' metas ∧ ∀ final, seen'.Within final →
          ∀ a, seen' a ≠ none → seen a ≠ none ∨ Walked h objlen final a := by
  apply walks_induction
  case leaf => exact fun _ _ _ hleaf => ⟨.leaf hleaf, fun _ _ _ ha => .inl ha⟩
  case met => exact fun _ _ _ _ hmet => ⟨.met hmet, fun _ _ _ ha => .inl ha⟩
  case table =>
    intro seen seen' i a t calls metas hnew ht ⟨hall, ih⟩
    refine ⟨.table hnew ht hall, ?_⟩
    intro final hwithin b hb
    by_cases hba : b = a
    · rw [hba]
      exact .inr ⟨t, _, _, calls, seen', metas, ht, hall, hwithin⟩
    · rcases ih final hwithin b hb with hold | hwalked
      · rw [Function.update_of_ne hba] at hold
        exact .inl hold
      · exact .inr hwalked
  case function =>
    intro seen seen' i a c calls metas hc ⟨hall, ih⟩
    exact ⟨.function hc hall, ih⟩
  case nil => exact fun _ _ => ⟨.nil, fun _ _ _ ha => .inl ha⟩
  case cons =>
    intro seen seen' seen'' i v vs calls calls' metas metas' ⟨hv, ih⟩ ⟨hrest, ih'⟩
    refine ⟨.cons hv hrest, ?_⟩
    intro final hwithin a ha
    rcases ih' final hwithin a ha with hmid | hwalked
    · exact ih final (hrest.within.trans hwithin) a hmid
    · exact .inr hwalked

theorem WalksAll.walked {seen seen' : Visited} {i : ℕ} {vs : List LuaValue}
    {calls : List (Option Content)} {metas : ℕ}
    (hall : WalksAll h objlen seen i vs calls seen' metas) {a : Address} (ha : seen' a ≠ none) :
    seen a ≠ none ∨ Walked h objlen seen' a :=
  (walked_walks.2 _ _ _ _ _ _ hall).2 seen' (fun _ hb => hb) a ha

theorem Walks.met_table {seen seen' : Visited} {i : ℕ} {a : Address}
    {calls : List (Option Content)} {metas : ℕ}
    (hwalk : Walks h objlen seen i (.table a) calls seen' metas) : seen' a ≠ none := by
  cases hwalk with
  | leaf hleaf => cases hleaf
  | met ha =>
    rw [ha]
    exact Option.some_ne_none _
  | table _ _ hall =>
    apply hall.within
    rw [Function.update_self]
    exact Option.some_ne_none _

/-- Whatever a graph contains has a walk in the walk of its values, if there is nothing inside the
tables met before. -/
theorem WalksAll.contains {seen seen' : Visited} {i : ℕ} {vs : List LuaValue}
    {calls : List (Option Content)} {metas : ℕ}
    (hall : WalksAll h objlen seen i vs calls seen' metas)
    (hempty : ∀ a t, seen a ≠ none → h.tables a = some t → t.children = []) {v : LuaValue}
    (hv : h.Contains vs v) :
    ∃ seen₁ i₁ calls₁ seen₂ metas₁, Walks h objlen seen₁ i₁ v calls₁ seen₂ metas₁ ∧
      seen₂.Within seen' := by
  obtain ⟨r, hr, hpath⟩ := hv
  induction hpath with
  | refl =>
    obtain ⟨seen₁, i₁, calls₁, seen₂, metas₁, hwalk, -, hwithin⟩ := hall.mem hr
    exact ⟨seen₁, i₁, calls₁, seen₂, metas₁, hwalk, hwithin⟩
  | tail _ hinside ih =>
    obtain ⟨seen₁, i₁, calls₁, seen₂, metas₁, hwalk, hwithin⟩ := ih
    cases hinside with
    | @table a t _ ht hmem =>
      have hmet := hwithin a hwalk.met_table
      rcases hall.walked hmet with hnone | ⟨t', _, _, _, seen₄, _, ht', hinner, hwithin'⟩
      · rw [hempty a t hnone ht] at hmem
        cases hmem
      · rw [ht, Option.some.injEq] at ht'
        subst ht'
        obtain ⟨seen₅, i₅, calls₅, seen₆, metas₅, hwalk', -, hwithin''⟩ := hinner.mem hmem
        exact ⟨seen₅, i₅, calls₅, seen₆, metas₅, hwalk', hwithin''.trans hwithin'⟩
    | @upvalue a c _ hc hmem =>
      cases hwalk with
      | leaf hleaf => cases hleaf
      | function hc' hinner =>
        rw [hc, Option.some.injEq] at hc'
        subst hc'
        obtain ⟨seen₅, i₅, calls₅, seen₆, metas₅, hwalk', -, hwithin'⟩ := hinner.mem hmem
        exact ⟨seen₅, i₅, calls₅, seen₆, metas₅, hwalk', hwithin'.trans hwithin⟩

theorem WalksAll.contains_of_none {seen' : Visited} {i : ℕ} {vs : List LuaValue}
    {calls : List (Option Content)} {metas : ℕ}
    (hall : WalksAll h objlen (fun _ => none) i vs calls seen' metas) {v : LuaValue}
    (hv : h.Contains vs v) :
    ∃ seen₁ i₁ calls₁ seen₂ metas₁, Walks h objlen seen₁ i₁ v calls₁ seen₂ metas₁ ∧
      seen₂.Within seen' :=
  hall.contains (fun _ _ hmet => (hmet rfl).elim) hv

end Cycle

/-! ## Graphs without such functions -/

section Exists

variable {h : LuaHeap} {objlen : Address → ℕ} {vs : List LuaValue}

/-- The tables of a graph that have not been met. -/
def Unmet (h : LuaHeap) (vs : List LuaValue) (seen : Visited) : Set LuaValue :=
  {v | h.Contains vs v ∧ ∃ a, v = .table a ∧ seen a = none}

theorem LuaHeap.IsGraph.finite_unmet (hgraph : h.IsGraph vs) (seen : Visited) :
    (Unmet h vs seen).Finite := hgraph.finite.subset fun _ hv => hv.1

theorem LuaHeap.IsGraph.unmet_within (hgraph : h.IsGraph vs) {seen seen' : Visited}
    (hwithin : seen.Within seen') : (Unmet h vs seen').ncard ≤ (Unmet h vs seen).ncard := by
  apply Set.ncard_le_ncard _ (hgraph.finite_unmet seen)
  rintro v ⟨hv, a, rfl, ha⟩
  refine ⟨hv, a, rfl, ?_⟩
  by_contra hmet
  exact hwithin a hmet ha

theorem LuaHeap.IsGraph.unmet_update (hgraph : h.IsGraph vs) {seen : Visited} {a : Address}
    (ha : h.Contains vs (.table a)) (hnew : seen a = none) (i : ℕ) :
    (Unmet h vs (Function.update seen a (some i))).ncard < (Unmet h vs seen).ncard := by
  apply Set.ncard_lt_ncard _ (hgraph.finite_unmet seen)
  refine ⟨?_, fun hsubset => ?_⟩
  · rintro v ⟨hv, b, rfl, hb⟩
    refine ⟨hv, b, rfl, ?_⟩
    by_contra hmet
    exact Visited.within_update seen a i b hmet hb
  · obtain ⟨-, b, hb, hnone⟩ := hsubset ⟨ha, a, rfl, hnew⟩
    cases hb
    rw [Function.update_self] at hnone
    cases hnone

theorem LuaHeap.IsGraph.captures_induction (hgraph : h.IsGraph vs)
    (hacyclic : ∀ a, h.Contains vs (.function a) → ¬ TransGen h.Captures a a)
    {P : Address → Prop}
    (hstep : ∀ a, h.Contains vs (.function a) → (∀ b, h.Captures a b → P b) → P a)
    {a : Address} (ha : h.Contains vs (.function a)) : P a := by
  let r : {a // h.Contains vs (.function a)} → {a // h.Contains vs (.function a)} → Prop :=
    fun b a => TransGen h.Captures a.1 b.1
  have hfinite : Finite {a // h.Contains vs (.function a)} := by
    have himage : (Set.preimage LuaValue.function {v | h.Contains vs v}).Finite :=
      hgraph.finite.preimage fun _ _ _ _ heq => LuaValue.function.inj heq
    exact himage.to_subtype
  have htrans : IsTrans _ r := ⟨fun _ _ _ hba hcb => TransGen.trans hcb hba⟩
  have hirrefl : Std.Irrefl r := ⟨fun a => hacyclic a.1 a.2⟩
  have hwf : WellFounded r := Finite.wellFounded_of_trans_of_irrefl r
  induction hx : (⟨a, ha⟩ : {a // h.Contains vs (.function a)}) using hwf.induction
    generalizing a with
  | _ x ih =>
    subst hx
    apply hstep a ha
    intro b hb
    obtain ⟨c, hc, hmem⟩ := hb
    have hcontains := ha.inside (.upvalue hc hmem)
    exact ih ⟨b, hcontains⟩ (.single ⟨c, hc, hmem⟩) hcontains rfl

private theorem walksAll_exists (hgraph : h.IsGraph vs) {us : List LuaValue} {n : ℕ}
    (hus : ∀ u ∈ us, ∀ seen i, (Unmet h vs seen).ncard ≤ n →
      ∃ calls seen' metas, Walks h objlen seen i u calls seen' metas)
    {seen : Visited} (i : ℕ) (hseen : (Unmet h vs seen).ncard ≤ n) :
    ∃ calls seen' metas, WalksAll h objlen seen i us calls seen' metas := by
  induction us generalizing seen i with
  | nil => exact ⟨[], seen, 0, .nil⟩
  | cons u us ih =>
    obtain ⟨calls, seen', metas, hwalk⟩ := hus u List.mem_cons_self seen i hseen
    obtain ⟨calls', seen'', metas', hall⟩ := ih (fun v hv => hus v (List.mem_cons_of_mem u hv))
      (i + calls.reduceOption.length) ((hgraph.unmet_within hwalk.within).trans hseen)
    exact ⟨_, _, _, .cons hwalk hall⟩

theorem walks_exists (hgraph : h.IsGraph vs)
    (hacyclic : ∀ a, h.Contains vs (.function a) → ¬ TransGen h.Captures a a) (n : ℕ)
    {v : LuaValue} (hv : h.Contains vs v) (seen : Visited) (i : ℕ)
    (hseen : (Unmet h vs seen).ncard ≤ n) :
    ∃ calls seen' metas, Walks h objlen seen i v calls seen' metas := by
  -- each table leaves fewer tables, each function leaves fewer functions below it
  induction n using Nat.strong_induction_on generalizing v seen i with
  | _ n ih =>
    have htable : ∀ a, h.Contains vs (.table a) → ∀ seen i, (Unmet h vs seen).ncard ≤ n →
        ∃ calls seen' metas, Walks h objlen seen i (.table a) calls seen' metas := by
      intro a ha seen i hseen
      cases hmet : seen a with
      | some j => exact ⟨_, _, _, .met hmet⟩
      | none =>
        obtain ⟨t, ht⟩ := hgraph.tables a ha
        have hless := hgraph.unmet_update ha hmet i
        obtain ⟨calls, seen', metas, hall⟩ := walksAll_exists hgraph
          (fun u hu seen i hseen => ih _ (lt_of_lt_of_le hless ‹_›) (ha.inside (.table ht hu)) seen
            i hseen) (i + 1) le_rfl
        exact ⟨_, _, _, .table hmet ht hall⟩
    have hfunction : ∀ a, h.Contains vs (.function a) → ∀ seen i, (Unmet h vs seen).ncard ≤ n →
        ∃ calls seen' metas, Walks h objlen seen i (.function a) calls seen' metas := by
      intro a ha
      apply hgraph.captures_induction hacyclic _ ha
      intro a ha hcaptured seen i hseen
      obtain ⟨c, hc⟩ := hgraph.closures a ha
      have hupvalues : ∀ u ∈ c.upvalues, ∀ seen i, (Unmet h vs seen).ncard ≤ n →
          ∃ calls seen' metas, Walks h objlen seen i u calls seen' metas := by
        intro u hu
        have hinside := ha.inside (.upvalue hc hu)
        cases u with
        | table b => exact htable b hinside
        | function b => exact hcaptured b ⟨c, hc, hu⟩
        | userdata b => exact (hgraph.plain b hinside).elim
        | _ => exact fun _ _ _ => ⟨_, _, _, .leaf rfl⟩
      obtain ⟨calls, seen', metas, hall⟩ := walksAll_exists hgraph hupvalues (i + 1) hseen
      exact ⟨_, _, _, .function hc hall⟩
    cases v with
    | table a => exact htable a hv seen i hseen
    | function a => exact hfunction a hv seen i hseen
    | userdata a => exact (hgraph.plain a hv).elim
    | _ => exact ⟨_, _, _, .leaf rfl⟩

theorem LuaHeap.IsGraph.walksAll (hgraph : h.IsGraph vs)
    (hacyclic : ∀ a, h.Contains vs (.function a) → ¬ TransGen h.Captures a a)
    (objlen : Address → ℕ) :
    ∃ calls seen metas, WalksAll h objlen (fun _ => none) 0 vs calls seen metas :=
  walksAll_exists hgraph
    (fun v hv seen i hseen => walks_exists hgraph hacyclic _ ⟨v, hv, .refl⟩ seen i hseen) 0 le_rfl

end Exists

/-! ## Encoding -/

section Ends

variable {lib : LuaLibrary} {mem : ℕ → Block} {buf : Block} {L : LuaState} {vs rest : List LuaValue}

/-- The recursion of `write_value` on the values that `lua_newmessage` is given comes to its
end. -/
def EncodingEnds (lib : LuaLibrary) (mem : ℕ → Block) (buf : Block) (L : LuaState) (count : ℕ) :
    Prop :=
  ∃ N, ∀ fuel, N ≤ fuel →
    (writeValues lib mem fuel count (luaGettop L - count + 1) (msgBuilderInit buf) L).isSome = true

theorem encodingEnds_iff_walks [lib.StackGrows] (hstack : L.stack = vs.reverse ++ rest)
    (hplain : ∀ a, ¬ L.heap.Contains vs (.userdata a)) :
    EncodingEnds lib mem buf L vs.length ↔
      ∃ calls seen metas, WalksAll L.heap lib.objlen (fun _ => none) 0 vs calls seen metas := by
  constructor
  · intro ⟨N, hends⟩
    have hsim := writeValues_simulates lib mem N vs.length buf L
    obtain ⟨r, hr⟩ := Option.isSome_iff_exists.mp (hends N le_rfl)
    rw [hr] at hsim
    cases hwalk : walkValues lib N L vs.length with
    | none =>
      rw [hwalk] at hsim
      cases hsim
    | some w =>
      have hall := (walkValue_uncovers lib L.heap N).saved rfl
        (fun _ _ hv => value_argument hstack hv)
        (fun v hv a hpath => hplain a ⟨v, hv, hpath⟩) hwalk
      exact ⟨_, _, _, hall.1⟩
  · intro ⟨calls, seen, metas, hall⟩
    refine ⟨calls.length + 1, fun fuel hfuel => ?_⟩
    have hsim := writeValues_simulates lib mem fuel vs.length buf L
    rw [hall.walkValues hstack hfuel] at hsim
    cases hwrite : writeValues lib mem fuel vs.length (luaGettop L - vs.length + 1)
        (msgBuilderInit buf) L with
    | none =>
      rw [hwrite] at hsim
      cases hsim
    | some r => rfl

end Ends

theorem encodingEnds_iff (lib : LuaLibrary) [lib.StackGrows] (mem : ℕ → Block) (buf : Block)
    (L : LuaState) (vs rest : List LuaValue) (hstack : L.stack = vs.reverse ++ rest)
    (hgraph : L.heap.IsGraph vs) :
    EncodingEnds lib mem buf L vs.length ↔
      ∀ a, L.heap.Contains vs (.function a) → ¬ TransGen L.heap.Captures a a := by
  rw [encodingEnds_iff_walks hstack hgraph.plain]
  constructor
  · intro ⟨calls, seen, metas, hall⟩ a ha
    obtain ⟨_, _, _, _, _, hwalk, -⟩ := hall.contains_of_none ha
    exact hwalk.acyclic
  · exact fun hacyclic => hgraph.walksAll hacyclic lib.objlen

theorem contains_loopHeap {v : LuaValue} (hv : loopHeap.Contains [.table 0] v) :
    v = .table 0 ∨ v = .number (LuaNumber.ofInt 1) := by
  obtain ⟨r, hr, hpath⟩ := hv
  induction hpath with
  | refl => exact .inl (List.mem_singleton.mp hr)
  | tail _ hinside ih =>
    rcases ih with rfl | rfl
    · cases hinside with
      | table ht hmem =>
        cases ht
        simpa [LuaTable.children, LuaTable.elements, loopTable, or_comm] using hmem
    · cases hinside

theorem isGraph_loopHeap : loopHeap.IsGraph [.table 0] := by
  constructor
  · apply Set.Finite.subset (Set.toFinite {.table 0, .number (LuaNumber.ofInt 1)})
    exact fun v hv => contains_loopHeap hv
  · intro a ha
    rcases contains_loopHeap ha with heq | heq
    · cases heq
      exact ⟨loopTable, rfl⟩
    · cases heq
  · intro a ha
    rcases contains_loopHeap ha with heq | heq <;> cases heq
  · intro a ha
    rcases contains_loopHeap ha with heq | heq <;> cases heq

/-- A table that holds itself. -/
theorem encodingEnds_loop :
    EncodingEnds loopLibrary (fun _ _ => blankValue) (fun _ => blankValue)
      (loopState [.table 0]) 1 := by
  refine (encodingEnds_iff _ _ _ (loopState [.table 0]) [.table 0] [] rfl isGraph_loopHeap).mpr ?_
  intro a ha
  rcases contains_loopHeap ha with heq | heq <;> cases heq

/-- A heap with a function that has itself as an upvalue. -/
def selfHeap : LuaHeap where
  tables := fun _ => none
  closures := Function.update (fun _ => none) 0 (some ⟨[], [.function 0]⟩)
  fresh := 1
  bounded := fun _ _ => rfl

theorem isGraph_selfHeap : selfHeap.IsGraph [.function 0] := by
  have hcontains : ∀ v, selfHeap.Contains [.function 0] v → v = .function 0 := by
    intro v ⟨r, hr, hpath⟩
    induction hpath with
    | refl => exact List.mem_singleton.mp hr
    | tail _ hinside ih =>
      subst ih
      cases hinside with
      | upvalue hc hmem =>
        cases hc
        exact List.mem_singleton.mp hmem
  constructor
  · apply Set.Finite.subset (Set.toFinite {.function 0})
    exact fun v hv => hcontains v hv
  · intro a ha
    cases hcontains _ ha
  · intro a ha
    cases hcontains _ ha
    exact ⟨_, rfl⟩
  · intro a ha
    cases hcontains _ ha

/-- Such a function is written without end. -/
theorem encodingEnds_fails :
    selfHeap.IsGraph [.function 0] ∧
      ¬ EncodingEnds loopLibrary (fun _ _ => blankValue) (fun _ => blankValue)
        ⟨[.function 0], selfHeap, []⟩ 1 := by
  refine ⟨isGraph_selfHeap, fun hends => ?_⟩
  obtain ⟨_, _, _, hall⟩ := (encodingEnds_iff_walks (L := ⟨[.function 0], selfHeap, []⟩)
    (List.append_nil _).symm isGraph_selfHeap.plain).mp hends
  cases hall with
  | cons hwalk _ => exact hwalk.acyclic (.single ⟨_, rfl, List.mem_singleton_self _⟩)

end Casting
