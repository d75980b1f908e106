import Casting.Framework.Forest
import Casting.Message.Carried
import Casting.Message.Walk

/-!
# Walks of graphs

The walk of values from which no userdata can be reached, as a relation on the objects behind
them: it depends on nothing else of the Lua state, which it leaves as it was.
-/

namespace Casting

open Forest

/-- What is walked through inside a table: its entries, then its metatable. -/
def LuaTable.children (t : LuaTable) : List LuaValue :=
  t.elements ++ (t.metatable.map LuaValue.table).toList

theorem LuaTable.children_of_none {t : LuaTable} (hmeta : t.metatable = none) :
    t.children = t.elements := by
  rw [children, hmeta]
  exact List.append_nil _

def LuaValue.isLeaf : LuaValue → Bool
  | .table _ | .function _ | .userdata _ => false
  | _ => true

def Closure.header (c : Closure) : Content := .function (BitVec.ofNat 32 c.upvalues.length) c.code

section Relation

variable (h : LuaHeap) (objlen : Address → ℕ)

mutual

/-- The walk of a value from position `i` on. -/
inductive Walks : Visited → ℕ → LuaValue → List (Option Content) → Visited → ℕ → Prop
  | leaf {seen : Visited} {i : ℕ} {v : LuaValue} : v.isLeaf = true →
      Walks seen i v [v.scalar] seen 0
  | met {seen : Visited} {i j : ℕ} {a : Address} : seen a = some j →
      Walks seen i (.table a) [some (.reference (BitVec.ofNat 32 j))] seen 0
  | table {seen seen' : Visited} {i : ℕ} {a : Address} {t : LuaTable}
      {calls : List (Option Content)} {metas : ℕ} : seen a = none → h.tables a = some t →
      WalksAll (Function.update seen a (some i)) (i + 1) t.children calls seen' metas →
      Walks seen i (.table a) (some (t.header (objlen a)) :: calls) seen'
        (metas + t.metatable.isSome.toNat)
  | function {seen seen' : Visited} {i : ℕ} {a : Address} {c : Closure}
      {calls : List (Option Content)} {metas : ℕ} : h.closures a = some c →
      WalksAll seen (i + 1) c.upvalues calls seen' metas →
      Walks seen i (.function a) (some c.header :: calls) seen' metas

inductive WalksAll :
    Visited → ℕ → List LuaValue → List (Option Content) → Visited → ℕ → Prop
  | nil {seen : Visited} {i : ℕ} : WalksAll seen i [] [] seen 0
  | cons {seen seen' seen'' : Visited} {i : ℕ} {v : LuaValue} {vs : List LuaValue}
      {calls calls' : List (Option Content)} {metas metas' : ℕ} :
      Walks seen i v calls seen' metas →
      WalksAll seen' (i + calls.reduceOption.length) vs calls' seen'' metas' →
      WalksAll seen i (v :: vs) (calls ++ calls') seen'' (metas + metas')

end

end Relation

variable {h : LuaHeap} {objlen : Address → ℕ}

theorem walks_induction
    {P : Visited → ℕ → LuaValue → List (Option Content) → Visited → ℕ → Prop}
    {Q : Visited → ℕ → List LuaValue → List (Option Content) → Visited → ℕ → Prop}
    (leaf : ∀ seen i v, v.isLeaf = true → P seen i v [v.scalar] seen 0)
    (met : ∀ seen i j a, seen a = some j →
      P seen i (.table a) [some (.reference (BitVec.ofNat 32 j))] seen 0)
    (table : ∀ seen seen' i a t calls metas, seen a = none → h.tables a = some t →
      Q (Function.update seen a (some i)) (i + 1) t.children calls seen' metas →
      P seen i (.table a) (some (t.header (objlen a)) :: calls) seen'
        (metas + t.metatable.isSome.toNat))
    (function : ∀ seen seen' i a c calls metas, h.closures a = some c →
      Q seen (i + 1) c.upvalues calls seen' metas →
      P seen i (.function a) (some c.header :: calls) seen' metas)
    (nil : ∀ seen i, Q seen i [] [] seen 0)
    (cons : ∀ seen seen' seen'' i v vs calls calls' metas metas',
      P seen i v calls seen' metas →
      Q seen' (i + calls.reduceOption.length) vs calls' seen'' metas' →
      Q seen i (v :: vs) (calls ++ calls') seen'' (metas + metas')) :
    (∀ seen i v calls seen' metas, Walks h objlen seen i v calls seen' metas →
        P seen i v calls seen' metas) ∧
      ∀ seen i vs calls seen' metas, WalksAll h objlen seen i vs calls seen' metas →
        Q seen i vs calls seen' metas := by
  constructor
  · intro seen i v calls seen' metas hwalk
    exact @Walks.rec h objlen (fun seen i v calls seen' metas _ => P seen i v calls seen' metas)
      (fun seen i vs calls seen' metas _ => Q seen i vs calls seen' metas)
      (fun hv => leaf _ _ _ hv) (fun ha => met _ _ _ _ ha)
      (fun hnew ht _ ih => table _ _ _ _ _ _ _ hnew ht ih)
      (fun hc _ ih => function _ _ _ _ _ _ _ hc ih) (nil _ _)
      (fun _ _ ih ih' => cons _ _ _ _ _ _ _ _ _ _ ih ih') seen i v calls seen' metas hwalk
  · intro seen i vs calls seen' metas hall
    exact @WalksAll.rec h objlen (fun seen i v calls seen' metas _ => P seen i v calls seen' metas)
      (fun seen i vs calls seen' metas _ => Q seen i vs calls seen' metas)
      (fun hv => leaf _ _ _ hv) (fun ha => met _ _ _ _ ha)
      (fun hnew ht _ ih => table _ _ _ _ _ _ _ hnew ht ih)
      (fun hc _ ih => function _ _ _ _ _ _ _ hc ih) (nil _ _)
      (fun _ _ ih ih' => cons _ _ _ _ _ _ _ _ _ _ ih ih') seen i vs calls seen' metas hall

private theorem length_walks :
    (∀ seen i v calls seen' metas, Walks h objlen seen i v calls seen' metas →
        0 < calls.length) ∧
      ∀ seen i vs calls seen' metas, WalksAll h objlen seen i vs calls seen' metas →
        vs.length ≤ calls.length := by
  apply walks_induction
  case leaf => exact fun _ _ _ _ => Nat.one_pos
  case met => exact fun _ _ _ _ _ => Nat.one_pos
  case table => exact fun _ _ _ _ _ _ _ _ _ _ => Nat.succ_pos _
  case function => exact fun _ _ _ _ _ _ _ _ _ => Nat.succ_pos _
  case nil => exact fun _ _ => le_rfl
  case cons =>
    intro seen seen' seen'' i v vs calls calls' metas metas' ih ih'
    rw [List.length_cons, List.length_append]
    omega

theorem WalksAll.length_le {seen seen' : Visited} {i : ℕ} {vs : List LuaValue}
    {calls : List (Option Content)} {metas : ℕ}
    (hall : WalksAll h objlen seen i vs calls seen' metas) : vs.length ≤ calls.length :=
  length_walks.2 _ _ _ _ _ _ hall

theorem WalksAll.split {seen seen'' : Visited} {i : ℕ} {vs vs' : List LuaValue}
    {calls : List (Option Content)} {metas : ℕ}
    (hall : WalksAll h objlen seen i (vs ++ vs') calls seen'' metas) :
    ∃ (calls₁ calls₂ : List (Option Content)) (seen' : Visited) (metas₁ metas₂ : ℕ),
      calls = calls₁ ++ calls₂ ∧ metas = metas₁ + metas₂ ∧
        WalksAll h objlen seen i vs calls₁ seen' metas₁ ∧
        WalksAll h objlen seen' (i + calls₁.reduceOption.length) vs' calls₂ seen'' metas₂ := by
  induction vs generalizing seen i calls metas with
  | nil => exact ⟨[], calls, seen, 0, metas, rfl, (Nat.zero_add _).symm, .nil, hall⟩
  | cons v vs ih =>
    cases hall with
    | cons hv hrest =>
      obtain ⟨calls₁, calls₂, seen', metas₁, metas₂, rfl, rfl, hall₁, hall₂⟩ := ih hrest
      refine ⟨_, calls₂, seen', _, metas₂, (List.append_assoc _ _ _).symm,
        (Nat.add_assoc _ _ _).symm, .cons hv hall₁, ?_⟩
      rw [List.reduceOption_append, List.length_append, ← Nat.add_assoc]
      exact hall₂

theorem WalksAll.join {seen seen' seen'' : Visited} {i : ℕ} {vs vs' : List LuaValue}
    {calls calls' : List (Option Content)} {metas metas' : ℕ}
    (hall : WalksAll h objlen seen i vs calls seen' metas)
    (hall' : WalksAll h objlen seen' (i + calls.reduceOption.length) vs' calls' seen'' metas') :
    WalksAll h objlen seen i (vs ++ vs') (calls ++ calls') seen'' (metas + metas') := by
  induction vs generalizing seen i calls metas with
  | nil =>
    cases hall
    rw [Nat.zero_add]
    exact hall'
  | cons v vs ih =>
    cases hall with
    | cons hv hrest =>
      rw [List.reduceOption_append, List.length_append, ← Nat.add_assoc] at hall'
      rw [List.append_assoc, Nat.add_assoc]
      exact .cons hv (ih hrest hall')

/-! ## Walks as forests -/

/-- What a call claims of those behind it, whether or not anything is written for it. -/
def callArity (call : Option Content) : ℤ := (call.map Content.arity).getD 0

private theorem toInt_length {n : ℕ} (hn : n < 2 ^ 31) : (BitVec.ofNat 32 n).toInt = n :=
  toInt_ofNat_small hn

/-- The calls of a walk parse into a tree for each value and one for each metatable. -/
private theorem trees_walks :
    (∀ seen i v calls seen' metas, Walks h objlen seen i v calls seen' metas →
        calls.length < 2 ^ 31 → Trees callArity (1 + metas) calls) ∧
      ∀ seen i vs calls seen' metas, WalksAll h objlen seen i vs calls seen' metas →
        calls.length < 2 ^ 31 → Trees callArity (vs.length + metas) calls := by
  apply walks_induction
  case leaf =>
    intro seen i v hleaf _
    have harity : callArity v.scalar = 0 := by cases v <;> rfl
    exact .node harity .nil .nil
  case met =>
    intro seen i j a _ _
    have harity : callArity (some (.reference (BitVec.ofNat 32 j))) = 0 := rfl
    exact .node harity .nil .nil
  case table =>
    intro seen seen' i a t calls metas _ _ ih hsmall
    rw [List.length_cons] at hsmall
    have htrees := ih (by omega)
    have hchildren : t.children.length = 2 * t.entries.length + t.metatable.isSome.toNat := by
      rw [LuaTable.children, List.length_append, LuaTable.length_elements]
      cases t.metatable <;> rfl
    have hle := htrees.length_le
    rw [hchildren] at htrees hle
    rw [Nat.add_assoc] at htrees
    obtain ⟨inner, rest, rfl, hinner, hrest⟩ := htrees.split
    have harity : callArity (some (t.header (objlen a))) = (2 * t.entries.length : ℕ) := by
      change 2 * (BitVec.ofNat 32 t.entries.length).toInt = _
      rw [toInt_length (by omega)]
      push_cast
      rfl
    rw [Nat.add_comm metas, Nat.add_comm 1]
    exact .node harity hinner hrest
  case function =>
    intro seen seen' i a c calls metas _ ih hsmall
    rw [List.length_cons] at hsmall
    have htrees := ih (by omega)
    have hle := htrees.length_le
    obtain ⟨inner, rest, rfl, hinner, hrest⟩ := htrees.split
    rw [Nat.add_comm 1]
    exact .node (toInt_length (by omega)) hinner hrest
  case nil =>
    intro seen i _
    exact .nil
  case cons =>
    intro seen seen' seen'' i v vs calls calls' metas metas' ih ih' hsmall
    rw [List.length_append] at hsmall
    have htrees := (ih (by omega)).append (ih' (by omega))
    rw [List.length_cons, Nat.add_comm vs.length 1]
    rwa [Nat.add_add_add_comm] at htrees

theorem WalksAll.trees {seen seen' : Visited} {i : ℕ} {vs : List LuaValue}
    {calls : List (Option Content)} {metas : ℕ}
    (hall : WalksAll h objlen seen i vs calls seen' metas) (hsmall : calls.length < 2 ^ 31) :
    Trees callArity (vs.length + metas) calls :=
  trees_walks.2 _ _ _ _ _ _ hall hsmall

/-! ## The walk of what can be walked -/

theorem tableAt_push {bottom : LuaState} {idx : ℤ} {a : Address} {t : LuaTable} (hidx : 0 < idx)
    (hbottom : bottom.value idx = some (.table a)) (ht : bottom.heap.tables a = some t)
    (k : LuaValue) : (bottom.push k).tableAt idx = some (a, t) := by
  have hvalue : (bottom.push k).value idx = some (.table a) :=
    LuaState.value_of_bottom hidx ⟨[k], rfl⟩ hbottom
  unfold LuaState.tableAt
  rw [hvalue]
  simp only [LuaState.push, ht, Option.map_some]

theorem luaNext_entry {bottom : LuaState} {idx : ℤ} {a : Address} {t : LuaTable} {k : LuaValue}
    {e : LuaEntry} (htable : (bottom.push k).tableAt idx = some (a, t))
    (hk : t.next k = some (some e)) :
    luaNext (bottom.push k) idx = some (true, (bottom.push e.1).push e.2) := by
  unfold luaNext
  rw [htable]
  simp only [Option.bind_eq_bind, Option.bind_some, LuaState.push, hk]

theorem luaNext_end {bottom : LuaState} {idx : ℤ} {a : Address} {t : LuaTable} {k : LuaValue}
    (htable : (bottom.push k).tableAt idx = some (a, t)) (hk : t.next k = some none) :
    luaNext (bottom.push k) idx = some (false, bottom) := by
  unfold luaNext
  rw [htable]
  simp only [Option.bind_eq_bind, Option.bind_some, LuaState.push, hk]

theorem luaGetupvalue_mem {L : LuaState} {idx : ℤ} {a : Address} {c : Closure}
    (hv : L.value idx = some (.function a)) (hc : L.heap.closures a = some c)
    {before after : List LuaValue} {v : LuaValue} (hupvalues : c.upvalues = before ++ v :: after) :
    luaGetupvalue L idx (before.length + 1) = (true, L.push v) := by
  unfold luaGetupvalue
  rw [hv]
  simp only [hc, Option.bind_some, Nat.add_sub_cancel, hupvalues,
    List.getElem?_append_right le_rfl, Nat.sub_self, List.getElem?_cons_zero]

theorem value_cons {L : LuaState} {idx : ℤ} {v : LuaValue} {vs : List LuaValue}
    (hvs : ∀ (j : ℕ) w, (v :: vs)[j]? = some w → L.value (idx + j) = some w) :
    L.value idx = some v ∧ ∀ (j : ℕ) w, vs[j]? = some w → L.value (idx + 1 + j) = some w := by
  constructor
  · have hzero := hvs 0 v rfl
    rwa [Nat.cast_zero, add_zero] at hzero
  · intro j w hw
    rw [add_assoc, add_comm 1]
    exact hvs (j + 1) w hw

theorem value_argument {L : LuaState} {vs rest : List LuaValue}
    (hstack : L.stack = vs.reverse ++ rest) {j : ℕ} {v : LuaValue} (hv : vs[j]? = some v) :
    L.value (luaGettop L - vs.length + 1 + j) = some v := by
  rw [luaGettop, hstack, List.length_append, List.length_reverse,
    LuaState.value_of_pos (by omega), hstack, List.reverse_append,
    List.reverse_reverse, List.getElem?_append_right]
  · rw [← hv, List.length_reverse]
    congr 1
    omega
  · rw [List.length_reverse]
    omega

theorem slots_succ (slots : Word) (n : ℕ) :
    slots + 1 + BitVec.ofNat 32 n = slots + BitVec.ofNat 32 (n + 1) := by
  rw [Nat.add_comm, BitVec.ofNat_add, BitVec.add_assoc]
  rfl

section Forth

variable {lib : LuaLibrary} {walk : Walker} {fuel : ℕ}

/-- With this fuel, a walker walks what can be walked. -/
def Covers (lib : LuaLibrary) (h : LuaHeap) (walk : Walker) (fuel : ℕ) : Prop :=
  ∀ (L : LuaState) (idx : ℤ) (v : LuaValue) (seen seen' : Visited) (i : ℕ)
    (calls : List (Option Content)) (metas : ℕ), L.heap = h → L.value idx = some v →
    Walks h lib.objlen seen i v calls seen' metas → calls.length < fuel →
    walk seen i L idx = some ⟨calls, seen', metas, L⟩

theorem Covers.entries (hcovers : Covers lib h walk fuel) {bottom : LuaState} {idx : ℤ}
    {a : Address} {t : LuaTable} (hidx : 0 < idx) (hheap : bottom.heap = h)
    (hbottom : bottom.value idx = some (.table a)) (ht : h.tables a = some t)
    {before after : List LuaEntry} (hentries : t.entries = before ++ after) {k : LuaValue}
    (hk : t.next k = some after.head?) {n : ℕ} (slots : Word) {seen seen' : Visited} {i : ℕ}
    {calls : List (Option Content)} {metas : ℕ}
    (hall : WalksAll h lib.objlen seen i (after.flatMap fun e => [e.1, e.2]) calls seen' metas)
    (hfuel : calls.length < fuel) (hn : after.length < n) :
    walkEntries walk idx n slots seen i (bottom.push k) =
      some (slots + BitVec.ofNat 32 after.length, ⟨calls, seen', metas, bottom⟩) := by
  have htable := tableAt_push hidx hbottom (hheap ▸ ht)
  induction after generalizing before k n slots seen i calls metas with
  | nil =>
    obtain ⟨n, rfl⟩ := Nat.exists_eq_succ_of_ne_zero (Nat.ne_of_gt hn)
    cases hall
    rw [walkEntries, luaNext_end (htable k) hk]
    simp
  | cons e after ih =>
    obtain ⟨n, rfl⟩ := Nat.exists_eq_succ_of_ne_zero (Nat.ne_of_gt (Nat.zero_lt_of_lt hn))
    rw [List.flatMap_cons] at hall
    cases hall with
    | cons hkey hrest =>
      rename_i seenk callsk callsv metask metasv
      cases hrest with
      | cons hvalue hrest =>
        rename_i seenv callsv callsr metasv metasr
        rw [List.length_append, List.length_append] at hfuel
        have hkey' := hcovers ((bottom.push e.1).push e.2) (-2) e.1 _ _ _ _ _ hheap
          (LuaState.value_second ⟨bottom.stack, rfl⟩) hkey (by omega)
        have hvalue' := hcovers ((bottom.push e.1).push e.2) (-1) e.2 _ _ _ _ _ hheap
          (LuaState.value_top ⟨_, rfl⟩) hvalue (by omega)
        have hentries' : t.entries = (before ++ [e]) ++ after :=
          hentries.trans (List.append_cons before e after)
        have hnext : t.next e.1 = some after.head? := LuaTable.next_key hentries
        rw [Nat.add_assoc, ← List.length_append, ← List.reduceOption_append] at hrest
        have hloop := ih hentries' hnext (slots + 1) hrest (by omega) (Nat.lt_of_succ_lt_succ hn)
        have hpop : luaPop ((bottom.push e.1).push e.2) 1 = bottom.push e.1 := rfl
        rw [walkEntries, luaNext_entry (htable k) hk]
        simp only [Option.bind_eq_bind, Option.bind_some, if_true, hkey', Walk.contents, hvalue',
          Walk.append, hpop, hloop, List.append_assoc, Nat.add_assoc, slots_succ, List.length_cons]

theorem Covers.upvalues (hcovers : Covers lib h walk fuel) {L : LuaState} {idx : ℤ} {a : Address}
    {c : Closure} (hheap : L.heap = h) (hv : L.value idx = some (.function a))
    (hc : h.closures a = some c) {before after : List LuaValue}
    (hupvalues : c.upvalues = before ++ after) {seen seen' : Visited} {i : ℕ}
    {calls : List (Option Content)} {metas : ℕ}
    (hall : WalksAll h lib.objlen seen i after calls seen' metas) (hfuel : calls.length < fuel) :
    walkUpvalues walk idx after.length before.length seen i L =
      some ⟨calls, seen', metas, L⟩ := by
  induction after generalizing before seen i calls metas with
  | nil =>
    cases hall
    rfl
  | cons v after ih =>
    cases hall with
    | cons hvalue hrest =>
      rw [List.length_append] at hfuel
      have hvalue' := hcovers (L.push v) (-1) v _ _ _ _ _ hheap
        (LuaState.value_top ⟨L.stack, rfl⟩) hvalue (by omega)
      have hupvalues' : c.upvalues = (before ++ [v]) ++ after :=
        hupvalues.trans (List.append_cons before v after)
      have hloop := ih hupvalues' hrest (by omega)
      rw [List.length_append, List.length_singleton] at hloop
      have hpop : luaPop (L.push v) 1 = L := rfl
      rw [List.length_cons, walkUpvalues, luaGetupvalue_mem hv (hheap ▸ hc) hupvalues]
      simp only [hvalue', Option.bind_eq_bind, Option.bind_some, Walk.contents, hpop, hloop,
        Walk.append]

theorem luaGetmetatable_table {L : LuaState} {idx : ℤ} {a : Address} {t : LuaTable}
    (hv : L.value idx = some (.table a)) (ht : L.heap.tables a = some t) :
    luaGetmetatable L idx =
      match t.metatable with
      | some m => some (true, L.push (.table m))
      | none => some (false, L) := by
  unfold luaGetmetatable LuaState.tableAt
  rw [hv]
  cases hmeta : t.metatable with
  | none => simp only [ht, Option.map_some, Option.bind_eq_bind, Option.bind_some, hmeta]
  | some m => simp only [ht, Option.map_some, Option.bind_eq_bind, Option.bind_some, hmeta]

theorem Covers.metatable (hcovers : Covers lib h walk fuel) {L : LuaState} {idx : ℤ} {a : Address}
    {t : LuaTable} (hheap : L.heap = h) (hv : L.value idx = some (.table a))
    (ht : h.tables a = some t) {seen seen' : Visited} {i : ℕ}
    {calls calls' : List (Option Content)} (metas : ℕ) {metas' : ℕ}
    (hall : WalksAll h lib.objlen seen (i + calls.reduceOption.length)
      (t.metatable.map LuaValue.table).toList calls' seen' metas')
    (hfuel : calls'.length < fuel) :
    walkMetatable walk idx i ⟨calls, seen, metas, L⟩ =
      some ⟨calls ++ calls', seen', metas + metas' + t.metatable.isSome.toNat, L⟩ := by
  rw [walkMetatable, luaGetmetatable_table hv (hheap ▸ ht)]
  cases hmeta : t.metatable with
  | none =>
    rw [hmeta] at hall
    cases hall
    simp
  | some m =>
    rw [hmeta] at hall
    cases hall with
    | cons hvalue hrest =>
      cases hrest
      rw [List.append_nil] at hfuel ⊢
      have hvalue' := hcovers (L.push (.table m)) (-1) (.table m) _ _ _ _ _ hheap
        (LuaState.value_top ⟨L.stack, rfl⟩) hvalue hfuel
      have hpop : luaPop (L.push (.table m)) 1 = L := rfl
      simp only [Option.bind_eq_bind, Option.bind_some, if_true, Walk.contents, hvalue', hpop,
        Walk.append, Nat.add_assoc]
      rfl

theorem walkValue_covers (lib : LuaLibrary) [lib.StackGrows] (h : LuaHeap) (fuel : ℕ) :
    Covers lib h (walkValue lib fuel) fuel := by
  induction fuel with
  | zero => exact fun _ _ _ _ _ _ _ _ _ _ _ hfuel => (Nat.not_lt_zero _ hfuel).elim
  | succ fuel ih =>
    intro L idx v seen seen' i calls metas hheap hv hwalk hfuel
    cases hwalk with
    | leaf hleaf =>
      cases v with
      | table | function | userdata => cases hleaf
      | _ => simp only [walkValue, hv]
    | met ha => simp only [walkValue, hv, ha]
    | @table _ _ _ a t calls metas hnew ht hall =>
      obtain ⟨calls₁, calls₂, seen₁, metas₁, metas₂, rfl, rfl, hentries, hmeta⟩ := hall.split
      rw [List.length_cons, List.length_append] at hfuel
      obtain ⟨hidx, habs⟩ := value_lcAbsindex hv
      have hle := hentries.length_le
      rw [LuaTable.length_elements] at hle
      have hloop := ih.entries hidx hheap habs ht (List.nil_append _).symm t.next_nil 0 hentries
        (by omega) (by omega : t.entries.length < fuel)
      have hmetatable := ih.metatable hheap habs ht metas₁ hmeta (by omega)
      have hslots : (0 : Word) + BitVec.ofNat 32 t.entries.length =
          BitVec.ofNat 32 t.entries.length := BitVec.zero_add _
      simp only [walkValue, hv, hnew, luaCheckstack_of_grows, Option.bind_eq_bind, hloop,
        Option.bind_some, hmetatable, hslots]
      rfl
    | @function _ _ _ a c calls metas hc hall =>
      rw [List.length_cons] at hfuel
      have hloop := ih.upvalues hheap hv hc (List.nil_append _).symm hall (by omega)
      simp only [walkValue, hv, hheap, hc, Option.bind_eq_bind, Option.bind_some]
      rw [List.length_nil] at hloop
      rw [hloop]
      rfl

theorem Covers.saved (hcovers : Covers lib h walk fuel) {L : LuaState} {idx : ℤ}
    (hheap : L.heap = h) {vs : List LuaValue}
    (hvs : ∀ (j : ℕ) v, vs[j]? = some v → L.value (idx + j) = some v) {seen seen' : Visited}
    {i : ℕ} {calls : List (Option Content)} {metas : ℕ}
    (hall : WalksAll h lib.objlen seen i vs calls seen' metas) (hfuel : calls.length < fuel) :
    walkSaved walk vs.length idx seen i L = some ⟨calls, seen', metas, L⟩ := by
  induction vs generalizing idx seen i calls metas with
  | nil =>
    cases hall
    rfl
  | cons v vs ih =>
    cases hall with
    | cons hv hrest =>
      rw [List.length_append] at hfuel
      obtain ⟨hvalue, hvs'⟩ := value_cons hvs
      have hvalue' := hcovers L idx v _ _ _ _ _ hheap hvalue hv (by omega)
      have hloop := ih hvs' hrest (by omega)
      simp only [List.length_cons, walkSaved, hvalue', Option.bind_eq_bind, Option.bind_some,
        Walk.contents, hloop, Walk.append]

theorem WalksAll.walkValues [lib.StackGrows] {L : LuaState} {vs rest : List LuaValue}
    (hstack : L.stack = vs.reverse ++ rest) {seen : Visited} {calls : List (Option Content)}
    {metas : ℕ} (hall : WalksAll L.heap lib.objlen (fun _ => none) 0 vs calls seen metas)
    (hfuel : calls.length < fuel) :
    walkValues lib fuel L vs.length = some ⟨calls, seen, metas, L⟩ :=
  (walkValue_covers lib L.heap fuel).saved rfl (fun _ _ hv => value_argument hstack hv) hall hfuel

end Forth

end Casting
