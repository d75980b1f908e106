import Casting.Message.Counting
import Casting.Message.Encoding

/-!
# Streams of values with functions

What is written for values that may be Lua functions: a table is written once and referred to
afterwards, a function is written wherever it occurs, its upvalues behind it.
-/

namespace Casting

open Forest Relation

section Relation

variable (h : LuaHeap) (lib : LuaLibrary)

mutual

/-- From position `i` on, `cs` stands for a value. -/
inductive Ships : Visited → ℕ → LuaValue → List Content → Visited → Prop
  | scalar {seen : Visited} {i : ℕ} {v : LuaValue} {c : Content} : v.scalar = some c →
      Ships seen i v [c] seen
  | reference {seen : Visited} {i j : ℕ} {a : Address} : seen a = some j →
      Ships seen i (.table a) [.reference (BitVec.ofNat 32 j)] seen
  | table {seen seen' : Visited} {i : ℕ} {a : Address} {t : LuaTable} {cs : List Content} :
      seen a = none → h.tables a = some t → t.metatable = none →
      ShipsAll (Function.update seen a (some i)) (i + 1) t.elements cs seen' →
      Ships seen i (.table a) (t.header (lib.objlen a) :: cs) seen'
  | function {seen seen' : Visited} {i : ℕ} {a : Address} {c : Closure} {cs : List Content} :
      h.closures a = some c → lib.chunk c.code = some c.upvalues.length →
      ShipsAll seen (i + 1) c.upvalues cs seen' →
      Ships seen i (.function a) (c.header :: cs) seen'

inductive ShipsAll : Visited → ℕ → List LuaValue → List Content → Visited → Prop
  | nil {seen : Visited} {i : ℕ} : ShipsAll seen i [] [] seen
  | cons {seen seen' seen'' : Visited} {i : ℕ} {v : LuaValue} {vs : List LuaValue}
      {cs cs' : List Content} :
      Ships seen i v cs seen' → ShipsAll seen' (i + cs.length) vs cs' seen'' →
      ShipsAll seen i (v :: vs) (cs ++ cs') seen''

end

end Relation

variable {h : LuaHeap} {lib : LuaLibrary}

theorem ships_induction
    {P : Visited → ℕ → LuaValue → List Content → Visited → Prop}
    {Q : Visited → ℕ → List LuaValue → List Content → Visited → Prop}
    (scalar : ∀ seen i v c, v.scalar = some c → P seen i v [c] seen)
    (reference : ∀ seen i j a, seen a = some j →
      P seen i (.table a) [.reference (BitVec.ofNat 32 j)] seen)
    (table : ∀ seen seen' i a t cs, seen a = none → h.tables a = some t → t.metatable = none →
      Q (Function.update seen a (some i)) (i + 1) t.elements cs seen' →
      P seen i (.table a) (t.header (lib.objlen a) :: cs) seen')
    (function : ∀ seen seen' i a c cs, h.closures a = some c →
      lib.chunk c.code = some c.upvalues.length → Q seen (i + 1) c.upvalues cs seen' →
      P seen i (.function a) (c.header :: cs) seen')
    (nil : ∀ seen i, Q seen i [] [] seen)
    (cons : ∀ seen seen' seen'' i v vs cs cs', P seen i v cs seen' →
      Q seen' (i + cs.length) vs cs' seen'' → Q seen i (v :: vs) (cs ++ cs') seen'') :
    (∀ seen i v cs seen', Ships h lib seen i v cs seen' → P seen i v cs seen') ∧
      ∀ seen i vs cs seen', ShipsAll h lib seen i vs cs seen' → Q seen i vs cs seen' := by
  constructor
  · intro seen i v cs seen' hv
    exact @Ships.rec h lib (fun seen i v cs seen' _ => P seen i v cs seen')
      (fun seen i vs cs seen' _ => Q seen i vs cs seen') (fun hc => scalar _ _ _ _ hc)
      (fun ha => reference _ _ _ _ ha) (fun hnew ht hm _ ih => table _ _ _ _ _ _ hnew ht hm ih)
      (fun hc hload _ ih => function _ _ _ _ _ _ hc hload ih)
      (nil _ _) (fun _ _ ih ih' => cons _ _ _ _ _ _ _ _ ih ih') seen i v cs seen' hv
  · intro seen i vs cs seen' hall
    exact @ShipsAll.rec h lib (fun seen i v cs seen' _ => P seen i v cs seen')
      (fun seen i vs cs seen' _ => Q seen i vs cs seen') (fun hc => scalar _ _ _ _ hc)
      (fun ha => reference _ _ _ _ ha) (fun hnew ht hm _ ih => table _ _ _ _ _ _ hnew ht hm ih)
      (fun hc hload _ ih => function _ _ _ _ _ _ hc hload ih)
      (nil _ _) (fun _ _ ih ih' => cons _ _ _ _ _ _ _ _ ih ih') seen i vs cs seen' hall

section Walks

variable {seen seen' : Visited} {i : ℕ} {vs : List LuaValue} {cs : List Content}

private theorem ships_walks :
    (∀ seen i v cs seen', Ships h lib seen i v cs seen' →
        Walks h lib.objlen seen i v (cs.map some) seen' 0) ∧
      ∀ seen i vs cs seen', ShipsAll h lib seen i vs cs seen' →
        WalksAll h lib.objlen seen i vs (cs.map some) seen' 0 := by
  apply ships_induction
  case scalar =>
    intro seen i v c hc
    have hleaf : v.isLeaf = true := by
      cases v <;> first | (cases hc; done) | rfl
    have hwalk : Walks h lib.objlen seen i v [v.scalar] seen 0 := .leaf hleaf
    rw [hc] at hwalk
    exact hwalk
  case reference => exact fun _ _ _ _ ha => .met ha
  case table =>
    intro seen seen' i a t cs hnew ht hmeta hall
    rw [← LuaTable.children_of_none hmeta] at hall
    have hwalk := Walks.table hnew ht hall
    rw [hmeta] at hwalk
    exact hwalk
  case function => exact fun _ _ _ _ _ _ hc _ hall => .function hc hall
  case nil => exact fun _ _ => .nil
  case cons =>
    intro seen seen' seen'' i v vs cs cs' hv hrest
    rw [← reduceOption_some cs] at hrest
    rw [List.map_append]
    exact WalksAll.cons hv hrest

theorem Ships.walks {v : LuaValue} (hv : Ships h lib seen i v cs seen') :
    Walks h lib.objlen seen i v (cs.map some) seen' 0 := ships_walks.1 _ _ _ _ _ hv

theorem ShipsAll.walks (hall : ShipsAll h lib seen i vs cs seen') :
    WalksAll h lib.objlen seen i vs (cs.map some) seen' 0 := ships_walks.2 _ _ _ _ _ hall

theorem ShipsAll.trees (hall : ShipsAll h lib seen i vs cs seen') (hsmall : cs.length < 2 ^ 31) :
    Trees Content.arity vs.length cs := by
  have htrees := hall.walks.trees (by rwa [List.length_map])
  rw [trees_map] at htrees
  exact htrees

theorem ShipsAll.length_le (hall : ShipsAll h lib seen i vs cs seen') : vs.length ≤ cs.length := by
  have hle := hall.walks.length_le
  rwa [List.length_map] at hle

end Walks

/-! ## What can be shipped -/

/-- A finite graph of values of the types that messages have, without userdata and metatables; no
function leads back to itself by upvalues alone, and the chunk of each one loads again as a
function with as many upvalues. -/
structure LuaHeap.IsPortable (h : LuaHeap) (lib : LuaLibrary) (vs : List LuaValue) : Prop where
  graph : h.IsGraph vs
  kinds : ∀ v, h.Contains vs v → v.isEncodable = true
  plain : ∀ a t, h.Contains vs (.table a) → h.tables a = some t → t.metatable = none
  acyclic : ∀ a, h.Contains vs (.function a) → ¬ TransGen h.Captures a a
  loads : ∀ a c, h.Contains vs (.function a) → h.closures a = some c →
    lib.chunk c.code = some c.upvalues.length

theorem LuaHeap.IsPortable.ships_of_walks {vs : List LuaValue} (hportable : h.IsPortable lib vs) :
    (∀ seen i u calls seen' metas, Walks h lib.objlen seen i u calls seen' metas →
        h.Contains vs u → ∃ cs, calls = cs.map some ∧ Ships h lib seen i u cs seen') ∧
      ∀ seen i us calls seen' metas, WalksAll h lib.objlen seen i us calls seen' metas →
        (∀ u ∈ us, h.Contains vs u) →
          ∃ cs, calls = cs.map some ∧ ShipsAll h lib seen i us cs seen' := by
  apply walks_induction
  case leaf =>
    intro seen i u hleaf hu
    have hkind := hportable.kinds u hu
    have hscalar : ∃ c, u.scalar = some c := by
      cases u <;> first | exact ⟨_, rfl⟩ | (cases hleaf; done) | cases hkind
    obtain ⟨c, hc⟩ := hscalar
    exact ⟨[c], by rw [hc]; rfl, .scalar hc⟩
  case met => exact fun _ _ _ _ ha _ => ⟨_, rfl, .reference ha⟩
  case table =>
    intro seen seen' i a t calls metas hnew ht ih ha
    have hmeta := hportable.plain a t ha ht
    rw [LuaTable.children_of_none hmeta] at ih
    obtain ⟨cs, rfl, hall⟩ := ih fun u hu =>
      ha.inside (.table ht (by rwa [LuaTable.children_of_none hmeta]))
    exact ⟨t.header (lib.objlen a) :: cs, rfl, .table hnew ht hmeta hall⟩
  case function =>
    intro seen seen' i a c calls metas hc ih ha
    obtain ⟨cs, rfl, hall⟩ := ih fun u hu => ha.inside (.upvalue hc hu)
    exact ⟨c.header :: cs, rfl, .function hc (hportable.loads a c ha hc) hall⟩
  case nil => exact fun _ _ _ => ⟨[], rfl, .nil⟩
  case cons =>
    intro seen seen' seen'' i u us calls calls' metas metas' ih ih' hus
    obtain ⟨cs, rfl, hu⟩ := ih (hus u List.mem_cons_self)
    rw [reduceOption_some] at ih'
    obtain ⟨cs', rfl, hrest⟩ := ih' fun w hw => hus w (List.mem_cons_of_mem u hw)
    exact ⟨cs ++ cs', List.map_append.symm, .cons hu hrest⟩

theorem LuaHeap.IsPortable.shipsAll {vs : List LuaValue} (hportable : h.IsPortable lib vs) :
    ∃ cs seen, ShipsAll h lib (fun _ => none) 0 vs cs seen := by
  obtain ⟨calls, seen, metas, hall⟩ := hportable.graph.walksAll hportable.acyclic lib.objlen
  obtain ⟨cs, -, hships⟩ :=
    hportable.ships_of_walks.2 _ _ _ _ _ _ hall fun v hv => ⟨v, hv, .refl⟩
  exact ⟨cs, seen, hships⟩

theorem LuaHeap.IsPortable.ships {vs : List LuaValue} (hportable : h.IsPortable lib vs)
    {v : LuaValue} (hv : v ∈ vs) (seen : Visited) (i : ℕ) :
    ∃ cs seen', Ships h lib seen i v cs seen' := by
  have hcontains : h.Contains vs v := ⟨v, hv, .refl⟩
  obtain ⟨calls, seen', metas, hwalk⟩ :=
    walks_exists hportable.graph hportable.acyclic _ hcontains seen i le_rfl
  obtain ⟨cs, -, hships⟩ := hportable.ships_of_walks.1 _ _ _ _ _ _ hwalk hcontains
  exact ⟨cs, seen', hships⟩

/-! ## New messages -/

section Message

variable {L : LuaState} {vs rest : List LuaValue} {cs : List Content} {seen : Visited}

theorem ShipsAll.luaNewmessage [lib.StackGrows] (hstack : L.stack = vs.reverse ++ rest)
    (hall : ShipsAll L.heap lib (fun _ => none) 0 vs cs seen)
    (hsmall : sizeofMessage + streamSize cs < 2 ^ 31) (mem : ℕ → Block) (buf : Block) {slack : ℕ}
    (hfits : 4 * repeats cs ≤ slack) {fuel : ℕ} (hfuel : cs.length < fuel) :
    Casting.luaNewmessage lib mem buf slack fuel L vs.length =
      some (messageOf cs vs.length, { L with stack := rest }) := by
  have hlength := length_le_streamSize cs
  have hwalk := hall.walks.walkValues hstack (by rwa [List.length_map])
  have hcontents : Walk.contents ⟨cs.map some, seen, 0, L⟩ = cs := reduceOption_some cs
  have hmessage : Walk.message ⟨cs.map some, seen, 0, L⟩ = messageOf cs vs.length := by
    rw [Walk.message, hcontents, (hall.trees (by omega)).roots_eq, messageOf, marked_zero]
    rfl
  have hrest : luaPop L vs.length = { L with stack := rest } := by
    rw [luaPop, hstack, List.drop_left' (List.length_reverse)]
  rw [luaNewmessage_of_walk hwalk (by rwa [hcontents]), hcontents, if_pos hfits, hmessage, hrest]

end Message

end Casting
