import Casting.Message.Simulation
import Casting.Message.Visits

/-!
# Encoding follows the traversal

On data, `write_value` adds to a builder what the traversal says, keeps the Lua stack as it was
and counts one value more.
-/

namespace Casting

open Forest

/-! ## The builder along a traversal -/

/-- What holds of the builder when the stream is `cs` and the tables in it are `seen`. -/
structure Writes (mb : Builder) (cs : List Content) (seen : Visited) : Prop where
  represents : Represents mb (carried cs)
  records : Records (mb.refmap.getD (mapNew cmpRef (some dupRef))) seen
  tables : ∀ a j, seen a = some j → ∃ slots array, cs[j]? = some (.table slots array)
  backward : Backward cs
  refs : mb.refs = BitVec.ofNat 32 (2 * repeats cs)

section Writes

variable {mb : Builder} {cs : List Content} {seen : Visited}

theorem Writes.along (h : Writes mb cs seen) : Along mb cs seen 0 where
  last := h.represents.last.trans (length_carried cs)
  records := h.records
  tables := h.tables
  backward := h.backward
  refs := h.refs
  first := fun hne => (hne rfl).elim
  represents := fun _ => marked_zero cs ▸ h.represents

theorem Along.writes (h : Along mb cs seen 0) (hsmall : streamSize cs < 2 ^ 31) :
    Writes mb cs seen where
  represents := marked_zero cs ▸ h.represents hsmall
  records := h.records
  tables := h.tables
  backward := h.backward
  refs := h.refs

/-- What one `write_value` is to do with a value that `cs'` stands for. -/
def Written (result : Option (ℤ × LuaState × Builder)) (mb : Builder) (L : LuaState)
    (cs : List Content) (seen : Visited) : Prop :=
  ∃ mb', result = some (ReturnCode.success.toInt, L, mb') ∧ Writes mb' cs seen ∧
    mb'.count = mb.count + 1

end Writes

/-! ## Traversals as walks -/

section Walks

variable {h : LuaHeap} {objlen : Address → ℕ} {seen seen' : Visited} {i : ℕ} {v : LuaValue}
  {vs : List LuaValue} {cs : List Content}

theorem reduceOption_some (cs : List Content) : (cs.map some).reduceOption = cs := by
  rw [List.reduceOption, List.filterMap_map]
  exact List.filterMap_some

private theorem walks_both :
    (∀ seen i v cs seen', Encodes h objlen seen i v cs seen' →
        v.isData = true ∧ Walks h objlen seen i v (cs.map some) seen' 0) ∧
      ∀ seen i vs cs seen', EncodesAll h objlen seen i vs cs seen' →
        WalksAll h objlen seen i vs (cs.map some) seen' 0 := by
  apply encodes_induction
  case scalar =>
    intro seen i v c hc
    have hleaf : v.isData = true ∧ v.isLeaf = true := by
      cases v <;> first | (cases hc; done) | exact ⟨rfl, rfl⟩
    have hwalk : Walks h objlen seen i v [v.scalar] seen 0 := .leaf hleaf.2
    rw [hc] at hwalk
    exact ⟨hleaf.1, hwalk⟩
  case reference => exact fun _ _ _ _ ha => ⟨rfl, .met ha⟩
  case table =>
    intro seen seen' i a t cs hnew ht hmeta hall
    rw [← LuaTable.children_of_none hmeta] at hall
    have hwalk := Walks.table hnew ht hall
    rw [hmeta] at hwalk
    exact ⟨rfl, hwalk⟩
  case nil => exact fun _ _ => .nil
  case cons =>
    intro seen seen' seen'' i v vs cs cs' hv hrest
    rw [← reduceOption_some cs] at hrest
    rw [List.map_append]
    exact WalksAll.cons hv.2 hrest

theorem Encodes.walks (henc : Encodes h objlen seen i v cs seen') :
    Walks h objlen seen i v (cs.map some) seen' 0 :=
  (walks_both.1 _ _ _ _ _ henc).2

theorem Encodes.isData (henc : Encodes h objlen seen i v cs seen') : v.isData = true :=
  (walks_both.1 _ _ _ _ _ henc).1

theorem EncodesAll.trees (hall : EncodesAll h objlen seen i vs cs seen')
    (hsmall : cs.length < 2 ^ 31) : Trees Content.arity vs.length cs := by
  have htrees := (walks_both.2 _ _ _ _ _ hall).trees (by rwa [List.length_map])
  rw [trees_map] at htrees
  exact htrees

theorem Encodes.trees (henc : Encodes h objlen seen i v cs seen') (hsmall : cs.length < 2 ^ 31) :
    Trees Content.arity 1 cs := by
  have hall : EncodesAll h objlen seen i [v] (cs ++ []) seen' := .cons henc .nil
  rw [List.append_nil] at hall
  exact hall.trees hsmall

end Walks

/-! ## Writing a graph -/

section Write

variable {lib : LuaLibrary} {mem : ℕ → Block} {h : LuaHeap}

/-- With this fuel, a writer does what the traversal says. -/
def Follows (lib : LuaLibrary) (h : LuaHeap) (write : ValueWriter) (fuel : ℕ) : Prop :=
  ∀ (mb : Builder) (L : LuaState) (idx : ℤ) (v : LuaValue) (cs cs' : List Content)
    (seen seen' : Visited), L.heap = h → L.value idx = some v →
    Encodes h lib.objlen seen cs.length v cs' seen' → cs'.length < fuel →
    Writes mb cs seen → streamSize (cs ++ cs') < 2 ^ 31 →
    Written (write mb L idx) mb L (cs ++ cs') seen'

variable (mem) in
/-- `write_value` does what the traversal says. -/
theorem writeValue_follows [lib.StackGrows] (fuel : ℕ) :
    Follows lib h (writeValue lib mem fuel) fuel := by
  intro mb L idx v cs cs' seen seen' hheap hv henc hfuel hwrites hsmall
  have hlength := length_le_streamSize (cs ++ cs')
  rw [List.length_append] at hlength
  have hwalk := walkValue_covers lib h fuel L idx v _ _ _ _ _ hheap hv henc.walks
    (by rwa [List.length_map])
  have hsim := writeValue_simulates lib mem fuel mb L idx cs seen 0 hwrites.along
  rw [hwalk] at hsim
  cases hwrite : writeValue lib mem fuel mb L idx with
  | none =>
    rw [hwrite] at hsim
    cases hsim
  | some r =>
    rw [hwrite] at hsim
    obtain ⟨rc, L', mb'⟩ := r
    cases hsim with
    | some hr =>
      obtain ⟨hstate, halong, hcount⟩ := hr.1
      have hcontents : Walk.contents ⟨cs'.map some, seen', 0, L⟩ = cs' := reduceOption_some cs'
      rw [hcontents] at halong hcount
      obtain rfl : rc = ReturnCode.success.toInt := hr.2 v hv henc.isData
      obtain rfl : L' = L := hstate
      rw [(henc.trees (by omega)).roots_eq] at hcount
      exact ⟨mb', rfl, halong.writes hsmall, hcount⟩

end Write

/-! ## New messages -/

section Message

variable {lib : LuaLibrary} {L : LuaState} {vs rest : List LuaValue} {cs : List Content}
  {seen : Visited}

theorem EncodesAll.walkValues [lib.StackGrows] {fuel : ℕ} (hstack : L.stack = vs.reverse ++ rest)
    (hall : EncodesAll L.heap lib.objlen (fun _ => none) 0 vs cs seen) (hfuel : cs.length < fuel) :
    Casting.walkValues lib fuel L vs.length = some ⟨cs.map some, seen, 0, L⟩ :=
  (walks_both.2 _ _ _ _ _ hall).walkValues hstack (by rwa [List.length_map])

theorem EncodesAll.message (hall : EncodesAll L.heap lib.objlen (fun _ => none) 0 vs cs seen)
    (hsmall : cs.length < 2 ^ 31) :
    Walk.message ⟨cs.map some, seen, 0, L⟩ = messageOf cs vs.length := by
  have hcontents : Walk.contents ⟨cs.map some, seen, 0, L⟩ = cs := reduceOption_some cs
  rw [Walk.message, hcontents, (hall.trees hsmall).roots_eq, messageOf, marked_zero]
  rfl

/-- `lua_newmessage` writes the stream of the values on top of the stack, if there is room for
four bytes more than it asked for with each reference. -/
theorem luaNewmessage_follows [lib.StackGrows] {mem : ℕ → Block} {buf : Block} {slack fuel : ℕ}
    (hstack : L.stack = vs.reverse ++ rest)
    (hall : EncodesAll L.heap lib.objlen (fun _ => none) 0 vs cs seen)
    (hsmall : sizeofMessage + streamSize cs < 2 ^ 31) (hfuel : cs.length < fuel) :
    luaNewmessage lib mem buf slack fuel L vs.length =
      if 4 * repeats cs ≤ slack then some (messageOf cs vs.length, { L with stack := rest })
      else none := by
  have hlength := length_le_streamSize cs
  have hcontents : Walk.contents ⟨cs.map some, seen, 0, L⟩ = cs := reduceOption_some cs
  have hpop : luaPop L vs.length = { L with stack := rest } := by
    rw [luaPop, hstack, ← List.length_reverse, List.drop_left]
  rw [luaNewmessage_of_walk (hall.walkValues hstack hfuel) (by rwa [hcontents]),
    hall.message (by omega), hcontents, hpop]

end Message

end Casting
