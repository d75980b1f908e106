import Casting.Lua.Graph
import Casting.Message.Carried
import Casting.Message.Decode
import Casting.Message.Traversal

/-!
# Decoding follows the traversal

From a message that carries the stream of some values, `decode_value` makes new tables that are
to the old ones as a renaming says, and fills them as the old ones are filled.
-/

namespace Casting

/-! ## Reading a stream -/

/-- The cursor behind the first `i` values of a stream. -/
def cursorAt (cs : List Content) (i : ℕ) : Cursor := ⟨streamSize (cs.take i), i⟩

/-- A message with items for its data, of which its size counts `limit` bytes. -/
structure Lays (m : Message) (items : List Item) (limit : ℕ) : Prop where
  data : m.data = layout items
  size : m.size.toInt = sizeofMessage + limit
  small : (layout items).length < 2 ^ 31

theorem layout_take (items : List Item) (i : ℕ) :
    (layout (items.take i)).length = streamSize ((items.map Item.content).take i) := by
  rw [length_layout, streamSize, ← List.map_take, List.map_map]
  rfl

theorem Lays.msgNext {m : Message} {items : List Item} {limit : ℕ} (h : Lays m items limit)
    {i : ℕ} {it : Item} (hit : items[i]? = some it)
    (hlimit : streamSize ((items.map Item.content).take i) < limit) (v : Value) :
    ∃ v', Casting.msgNext m (cursorAt (items.map Item.content) i) v =
        some ((i : ℤ), cursorAt (items.map Item.content) (i + 1), v') ∧ v'.item? = some it := by
  obtain ⟨hlt, hget⟩ := List.getElem?_eq_some_iff.mp hit
  have hsplit : items = items.take i ++ it :: items.drop (i + 1) := by
    rw [← hget, List.cons_getElem_drop_succ, List.take_append_drop]
  have hat := at_layout hsplit
  rw [← h.data, layout_take] at hat
  have hlong := length_payload_lt_of_mem (List.mem_of_getElem? hit) h.small
  obtain ⟨v', hread, hv'⟩ := msgNext_at hat hlong (by rw [h.size]; omega) i v
  refine ⟨v', ?_, hv'⟩
  have hpos : streamSize ((items.map Item.content).take (i + 1)) =
      streamSize ((items.map Item.content).take i) + it.content.size := by
    rw [← layout_take, ← layout_take, List.take_succ_eq_append_getElem hlt, hget, layout_append,
      List.length_append, layout_singleton, Item.length_bytes]
  rw [cursorAt, hread, cursorAt, hpos]
  push_cast
  rfl

/-- A message with a stream for its data, of which its size counts `limit` bytes. -/
structure Carries (m : Message) (cs : List Content) (limit : ℕ) : Prop where
  data : m.data = layout (carried cs)
  size : m.size.toInt = sizeofMessage + limit
  small : streamSize cs < 2 ^ 31

theorem Carries.lays {m : Message} {cs : List Content} {limit : ℕ} (h : Carries m cs limit) :
    Lays m (carried cs) limit where
  data := h.data
  size := h.size
  small := by
    rw [length_layout_carried]
    exact h.small

section Read

variable {m : Message} {cs : List Content} {limit : ℕ} {lib : LuaLibrary} {top : ℤ}

theorem Carries.msgNext (h : Carries m cs limit) {i : ℕ} {c : Content} (hc : cs[i]? = some c)
    (hlimit : streamSize (cs.take i) < limit) (v : Value) :
    ∃ v', msgNext m (cursorAt cs i) v = some ((i : ℤ), cursorAt cs (i + 1), v') ∧
      v'.item? = some ⟨c, decide (Content.reference (BitVec.ofNat 32 i) ∈ cs), false⟩ := by
  have hitem : (carried cs)[i]? =
      some ⟨c, decide (Content.reference (BitVec.ofNat 32 i) ∈ cs), false⟩ := by
    rw [getElem?_carried, hc, Option.map_some]
  have hread := h.lays.msgNext hitem (by rwa [map_content_carried]) v
  rwa [map_content_carried] at hread

theorem Lays.msgNext_end {items : List Item} (h : Lays m items limit) {i : ℕ}
    (hlimit : limit ≤ streamSize ((items.map Item.content).take i)) (v : Value) :
    Casting.msgNext m (cursorAt (items.map Item.content) i) v =
      some (-1, cursorAt (items.map Item.content) i, v) := by
  apply Casting.msgNext_end
  rw [h.size]
  change (sizeofMessage + limit : ℤ) ≤ sizeofMessage + (streamSize _ : ℤ)
  omega

theorem Carries.msgNext_end (h : Carries m cs limit) {i : ℕ}
    (hlimit : limit ≤ streamSize (cs.take i)) (v : Value) :
    Casting.msgNext m (cursorAt cs i) v = some (-1, cursorAt cs i, v) := by
  have hend := h.lays.msgNext_end (i := i) (by rwa [map_content_carried]) v
  rwa [map_content_carried] at hend

variable (lib top) in
theorem Lays.decodeValue [lib.StackGrows] {items : List Item} (h : Lays m items limit) {i : ℕ}
    {it : Item}
    (hit : items[i]? = some it) (hlimit : streamSize ((items.map Item.content).take i) < limit)
    (fuel : ℕ) (L : LuaState) :
    ∃ v : Value, v.content? = some it.content ∧ v.valueIsReferenced = it.referenced ∧
      decodeValue lib m top (fuel + 1) L (cursorAt (items.map Item.content) i) =
        (decodeBody lib (decodeValue lib m top fuel) top i v L
          (cursorAt (items.map Item.content) (i + 1)) it.content.valueType).bind fun p =>
            if it.isMeta then
              (luaSetmetatable p.1 (-2)).map fun L => (ReturnCode.success.toInt, L, p.2)
            else some (ReturnCode.success.toInt, p.1, p.2) := by
  obtain ⟨v, hread, hitem⟩ := h.msgNext hit hlimit blankValue
  obtain ⟨hcontent, hreferenced, hmeta⟩ := Value.item?_eq_some_iff.mp hitem
  refine ⟨v, hcontent, hreferenced, ?_⟩
  have hvalueType := Value.content?_valueType hcontent
  have hcount : ¬ (i : ℤ) < ReturnCode.success.toInt := not_lt.mpr (Int.natCast_nonneg i)
  have hpushed : it.content.valueType ≠ .tLuserdata := by
    cases it.content with
    | boolean b => cases b <;> decide
    | _ => exact fun h => ValueType.noConfusion h
  rw [Casting.decodeValue, hread]
  simp only [Option.bind_eq_bind, Option.bind_some, hcount, if_false, luaCheckstack_of_grows,
    hvalueType, hmeta]
  generalize it.content.valueType = t at hpushed ⊢
  cases t with
  | tLuserdata => exact (hpushed rfl).elim
  | _ => simp only [Option.map_eq_bind, Function.comp_def]

variable (lib top) in
theorem Carries.decodeValue [lib.StackGrows] (h : Carries m cs limit) {i : ℕ} {c : Content}
    (hc : cs[i]? = some c) (hlimit : streamSize (cs.take i) < limit) (fuel : ℕ) (L : LuaState) :
    ∃ v : Value, v.content? = some c ∧
      v.valueIsReferenced = decide (Content.reference (BitVec.ofNat 32 i) ∈ cs) ∧
      decodeValue lib m top (fuel + 1) L (cursorAt cs i) =
        (decodeBody lib (decodeValue lib m top fuel) top i v L (cursorAt cs (i + 1))
          c.valueType).map fun p => (ReturnCode.success.toInt, p.1, p.2) := by
  have hitem : (carried cs)[i]? =
      some ⟨c, decide (Content.reference (BitVec.ofNat 32 i) ∈ cs), false⟩ := by
    rw [getElem?_carried, hc, Option.map_some]
  obtain ⟨v, hv, hreferenced, hdecode⟩ :=
    h.lays.decodeValue lib top hitem (by rwa [map_content_carried]) fuel L
  rw [map_content_carried] at hdecode
  refine ⟨v, hv, hreferenced, ?_⟩
  rw [hdecode, Option.map_eq_bind]
  rfl

variable (lib top) in
theorem Lays.decodeValue_end {items : List Item} (h : Lays m items limit) {i : ℕ}
    (hlimit : limit ≤ streamSize ((items.map Item.content).take i)) (fuel : ℕ) (L : LuaState) :
    Casting.decodeValue lib m top (fuel + 1) L (cursorAt (items.map Item.content) i) =
      some (-1, L, cursorAt (items.map Item.content) i) := by
  rw [Casting.decodeValue, h.msgNext_end hlimit]
  rfl

variable (lib top) in
theorem Carries.decodeValue_end (h : Carries m cs limit) {i : ℕ}
    (hlimit : limit ≤ streamSize (cs.take i)) (fuel : ℕ) (L : LuaState) :
    Casting.decodeValue lib m top (fuel + 1) L (cursorAt cs i) =
      some (-1, L, cursorAt cs i) := by
  rw [Casting.decodeValue, h.msgNext_end hlimit]
  rfl

end Read

/-! ## One value -/

section Body

variable {lib : LuaLibrary} {decode : ValueReader} {top count : ℤ} {v : Value} {L : LuaState}
  {cur : Cursor}

theorem decodeBody_scalar {c : Content} {w : LuaValue} (hv : v.content? = some c)
    (hw : w.scalar = some c) :
    decodeBody lib decode top count v L cur c.valueType = some (L.push w, cur) := by
  have hvalueType := Value.content?_valueType hv
  cases w with
  | nil =>
    cases hw
    rfl
  | boolean b =>
    cases hw
    cases b <;> rfl
  | number n =>
    cases hw
    rw [Value.content?, hvalueType] at hv
    cases hv
    rfl
  | string s =>
    cases hw
    rw [Value.content?, hvalueType] at hv
    simp only [Content.valueType, Option.map_eq_some_iff] at hv
    obtain ⟨bs, hpayload, hbs⟩ := hv
    cases hbs
    simp only [Content.valueType, decodeBody, hpayload, Option.map_some]
  | _ => cases hw

theorem decodeBody_table {slots array : Word} (hv : v.content? = some (.table slots array)) :
    decodeBody lib decode top count v L cur .tTable =
      (if v.valueIsReferenced then
        (luaPushvalue (luaCreatetable L) (-1)).bind fun L => luaRawseti L top count
      else some (luaCreatetable L)).bind fun L => decodeEntries decode slots.toNat L cur := by
  have hvalueType := Value.content?_valueType hv
  rw [Value.content?_tTable hvalueType] at hv
  cases hv
  cases hreferenced : v.valueIsReferenced with
  | true => simp only [decodeBody, hreferenced, if_true, Option.bind_eq_bind]
  | false =>
    simp only [decodeBody, hreferenced, Bool.false_eq_true, if_false, Option.bind_eq_bind]

theorem decodeBody_reference {ref : Word} (hv : v.content? = some (.reference ref)) :
    decodeBody lib decode top count v L cur .tReference =
      (luaRawgeti L top ref.toInt).map fun L => (L, cur) := by
  have hvalueType := Value.content?_valueType hv
  rw [Value.content?, hvalueType] at hv
  cases hv
  rfl

end Body

/-! ## Renamings -/

abbrev Renaming := Address → Option Address

def Renaming.Rel (ρ : Renaming) (a a' : Address) : Prop := ρ a = some a'

/-- `i` values of a stream have been read: the tables in them have become what the renaming
says, and the side table at index `top`, if there is one, has all that references lead to. -/
structure Tracks (cs : List Content) (top : ℤ) (side : Option Address) (seen : Visited)
    (ρ : Renaming) (i : ℕ) (L : LuaState) : Prop where
  domain : ∀ a, (ρ a).isSome = (seen a).isSome
  injective : ∀ a b c, ρ a = some c → ρ b = some c → a = b
  position : ∀ a j, seen a = some j → j < i
  bounded : ∀ a a', ρ a = some a' → a' < L.heap.fresh
  side : ∀ s, side = some s → 0 < top ∧ L.value top = some (.table s) ∧
    ∃ t, L.heap.tables s = some t ∧
      ∀ a j a', seen a = some j → ρ a = some a' → Content.reference (BitVec.ofNat 32 j) ∈ cs →
        t.rawget (.number (LuaNumber.ofInt j)) = .table a'

section Tracks

variable {cs : List Content} {top : ℤ} {side : Option Address} {seen : Visited} {ρ : Renaming}
  {i : ℕ} {L : LuaState}

theorem Tracks.biUnique (h : Tracks cs top side seen ρ i L) : Relator.BiUnique ρ.Rel := by
  constructor
  · intro a b c ha hb
    exact h.injective a b c ha hb
  · intro a b c hb hc
    exact Option.some.inj (hb.symm.trans hc)

theorem Tracks.side_lt (h : Tracks cs top side seen ρ i L) {s : Address} (hs : side = some s) :
    s < L.heap.fresh := by
  obtain ⟨-, -, t, ht, -⟩ := h.side s hs
  exact LuaHeap.lt_fresh ht

theorem Tracks.value_top (h : Tracks cs top side seen ρ i L) {s : Address} (hs : side = some s)
    {L' : LuaState} (hstack : ∃ front, L'.stack = front ++ L.stack) :
    L'.value top = some (.table s) := by
  obtain ⟨htop, hvalue, -⟩ := h.side s hs
  exact LuaState.value_of_bottom htop hstack hvalue

theorem Tracks.later (h : Tracks cs top side seen ρ i L) {i' : ℕ} {L' : LuaState} (hi : i ≤ i')
    (hfresh : L.heap.fresh ≤ L'.heap.fresh)
    (hvalue : ∀ s, side = some s → L'.value top = some (.table s))
    (htables : ∀ s, side = some s → L'.heap.tables s = L.heap.tables s) :
    Tracks cs top side seen ρ i' L' where
  domain := h.domain
  injective := h.injective
  position := fun a j ha => lt_of_lt_of_le (h.position a j ha) hi
  bounded := fun a a' ha => lt_of_lt_of_le (h.bounded a a' ha) hfresh
  side := by
    intro s hs
    obtain ⟨htop, -, t, ht, hget⟩ := h.side s hs
    exact ⟨htop, hvalue s hs, t, (htables s hs).trans ht, hget⟩

theorem Tracks.push (h : Tracks cs top side seen ρ i L) (v : LuaValue) :
    Tracks cs top side seen ρ (i + 1) (L.push v) :=
  h.later (Nat.le_succ i) le_rfl (fun _ hs => h.value_top hs ⟨[v], rfl⟩) (fun _ _ => rfl)

theorem Tracks.extend (h : Tracks cs top side seen ρ i L) (a : Address) {L' : LuaState}
    (hfresh : L'.heap.fresh = L.heap.fresh + 1)
    (hstack : ∃ front, L'.stack = front ++ L.stack)
    (hside : ∀ s t, side = some s → L.heap.tables s = some t →
      ∃ t', L'.heap.tables s = some t' ∧
        (∀ j : ℕ, j < i → t'.rawget (.number (LuaNumber.ofInt j)) =
          t.rawget (.number (LuaNumber.ofInt j))) ∧
        (Content.reference (BitVec.ofNat 32 i) ∈ cs →
          t'.rawget (.number (LuaNumber.ofInt i)) = .table L.heap.fresh)) :
    Tracks cs top side (Function.update seen a (some i))
      (Function.update ρ a (some L.heap.fresh)) (i + 1) L' := by
  have hlt : ∀ b c, ρ b = some c → c ≠ L.heap.fresh := fun b c hb => (h.bounded b c hb).ne
  constructor
  · intro b
    by_cases hba : b = a
    · rw [hba, Function.update_self, Function.update_self]
      rfl
    · rw [Function.update_of_ne hba, Function.update_of_ne hba, h.domain]
  · intro b c d hb hc
    by_cases hba : b = a
    · by_cases hca : c = a
      · rw [hba, hca]
      · rw [hba, Function.update_self, Option.some.injEq] at hb
        rw [Function.update_of_ne hca] at hc
        exact (hlt c d hc hb.symm).elim
    · by_cases hca : c = a
      · rw [hca, Function.update_self, Option.some.injEq] at hc
        rw [Function.update_of_ne hba] at hb
        exact (hlt b d hb hc.symm).elim
      · rw [Function.update_of_ne hba] at hb
        rw [Function.update_of_ne hca] at hc
        exact h.injective b c d hb hc
  · intro b j hb
    by_cases hba : b = a
    · rw [hba, Function.update_self, Option.some.injEq] at hb
      omega
    · rw [Function.update_of_ne hba] at hb
      exact Nat.lt_succ_of_lt (h.position b j hb)
  · intro b b' hb
    rw [hfresh]
    by_cases hba : b = a
    · rw [hba, Function.update_self, Option.some.injEq] at hb
      rw [← hb]
      exact Nat.lt_succ_self _
    · rw [Function.update_of_ne hba] at hb
      exact Nat.lt_succ_of_lt (h.bounded b b' hb)
  · intro s hs
    obtain ⟨htop, -, t, ht, hget⟩ := h.side s hs
    obtain ⟨t', ht', hsame, hhere⟩ := hside s t hs ht
    refine ⟨htop, h.value_top hs hstack, t', ht', ?_⟩
    intro b j b' hb hb' hmem
    by_cases hba : b = a
    · rw [hba, Function.update_self, Option.some.injEq] at hb hb'
      subst hb hb'
      exact hhere hmem
    · rw [Function.update_of_ne hba] at hb hb'
      rw [hsame j (h.position b j hb)]
      exact hget b j b' hb hb' hmem

theorem luaRawseti_table {s : Address} {t : LuaTable} {v : LuaValue} {stack : List LuaValue}
    (htable : L.tableAt top = some (s, t)) (hstack : L.stack = v :: stack) (hv : v ≠ .nil) {n : ℕ}
    (hn : n < 2 ^ 52) :
    ∃ t', luaRawseti L top n = some { L with stack := stack, heap := L.heap.put s t' } ∧
      ∀ j : ℕ, j < 2 ^ 52 → t'.rawget (.number (LuaNumber.ofInt j)) =
        if n = j then v else t.rawget (.number (LuaNumber.ofInt j)) := by
  have hkey : (LuaValue.number (LuaNumber.ofInt n)).isKey = true := by
    rw [LuaValue.isKey, LuaNumber.isNaN_ofInt hn]
    rfl
  have hset : t.rawset (.number (LuaNumber.ofInt n)) v =
      some (t.assign (.number (LuaNumber.ofInt n)) v hkey hv) := by
    rw [LuaTable.rawset, dif_pos hkey, dif_neg hv]
  refine ⟨t.assign (.number (LuaNumber.ofInt n)) v hkey hv, ?_, ?_⟩
  · unfold luaRawseti
    rw [htable]
    simp only [Option.bind_eq_bind, Option.bind_some, hstack, hset]
  · intro j hj
    rw [LuaTable.rawget_rawset hv hset, LuaValue.rawEqual, LuaNumber.eq_ofInt hn hj]
    simp only [decide_eq_true_eq]

theorem Tracks.create (h : Tracks cs top side seen ρ i L)
    (hneeded : ∀ ref, Content.reference ref ∈ cs → side ≠ none) (hi : i < 2 ^ 52) {v : Value}
    (hv : v.valueIsReferenced = decide (Content.reference (BitVec.ofNat 32 i) ∈ cs))
    (a : Address) :
    ∃ L', (if v.valueIsReferenced then
        (luaPushvalue (luaCreatetable L) (-1)).bind fun L => luaRawseti L top i
      else some (luaCreatetable L)) = some L' ∧
      L'.stack = .table L.heap.fresh :: L.stack ∧ L'.heap.fresh = L.heap.fresh + 1 ∧
      L'.heap.tables L.heap.fresh = some .empty ∧
      (∀ b < L.heap.fresh, side ≠ some b → L'.heap.tables b = L.heap.tables b) ∧
      Tracks cs top side (Function.update seen a (some i))
        (Function.update ρ a (some L.heap.fresh)) (i + 1) L' := by
  have hcreated : (luaCreatetable L).heap.tables L.heap.fresh = some .empty :=
    Function.update_self _ _ _
  have hkept : ∀ b < L.heap.fresh, (luaCreatetable L).heap.tables b = L.heap.tables b :=
    fun b hb => Function.update_of_ne hb.ne _ _
  cases hmarked : v.valueIsReferenced with
  | false =>
    rw [hmarked] at hv
    have hunmarked : Content.reference (BitVec.ofNat 32 i) ∉ cs := of_decide_eq_false hv.symm
    refine ⟨luaCreatetable L, rfl, rfl, rfl, hcreated, fun b hb _ => hkept b hb, ?_⟩
    apply h.extend a rfl
    · exact ⟨[.table L.heap.fresh], rfl⟩
    · intro s t hs ht
      exact ⟨t, (hkept s (h.side_lt hs)).trans ht, fun _ _ => rfl,
        fun hmem => (hunmarked hmem).elim⟩
  | true =>
    rw [hmarked] at hv
    have hmem : Content.reference (BitVec.ofNat 32 i) ∈ cs := of_decide_eq_true hv.symm
    obtain ⟨s, hs⟩ := Option.ne_none_iff_exists'.mp (hneeded _ hmem)
    obtain ⟨-, -, t, ht, -⟩ := h.side s hs
    have hlt := h.side_lt hs
    have hpush : luaPushvalue (luaCreatetable L) (-1) =
        some ((luaCreatetable L).push (.table L.heap.fresh)) := by
      rw [luaPushvalue, LuaState.value_top ⟨L.stack, rfl⟩]
      rfl
    have hvalue' : ((luaCreatetable L).push (.table L.heap.fresh)).value top = some (.table s) :=
      h.value_top hs ⟨[.table L.heap.fresh, .table L.heap.fresh], rfl⟩
    have htable : ((luaCreatetable L).push (.table L.heap.fresh)).tableAt top = some (s, t) := by
      unfold LuaState.tableAt
      rw [hvalue']
      simp only [LuaState.push, hkept s hlt, ht, Option.map_some]
    obtain ⟨t', hset, hget⟩ := luaRawseti_table htable rfl LuaValue.noConfusion hi
    have hput : ∀ b, b ≠ s → ((luaCreatetable L).heap.put s t').tables b =
        (luaCreatetable L).heap.tables b := fun b hb => Function.update_of_ne hb _ _
    refine ⟨{ luaCreatetable L with heap := (luaCreatetable L).heap.put s t' }, ?_, rfl, rfl, ?_,
      ?_, ?_⟩
    · rw [if_pos rfl, hpush, Option.bind_some]
      exact hset
    · exact (hput _ hlt.ne').trans hcreated
    · intro b hb hbs
      have hne : b ≠ s := by
        rintro rfl
        exact hbs hs
      exact (hput b hne).trans (hkept b hb)
    · apply h.extend a rfl
      · exact ⟨[.table L.heap.fresh], rfl⟩
      · intro s₁ t₁ hs₁ ht₁
        rw [hs, Option.some.injEq] at hs₁
        subst hs₁
        rw [ht, Option.some.injEq] at ht₁
        subst ht₁
        refine ⟨t', ?_, ?_, ?_⟩
        · show Function.update _ s _ s = _
          rw [Function.update_self]
          show Option.map _ ((luaCreatetable L).heap.tables s) = _
          rw [hkept s hlt, ht]
          rfl
        · intro j hj
          rw [hget j (by omega), if_neg (by omega)]
        · intro _
          rw [hget i hi, if_pos rfl]

end Tracks

/-! ## What has been rebuilt -/

/-- Between two heaps, tables have been made and filled as the renaming says; of the tables that
were there, only those in `X` may have changed. -/
structure Rebuilt (h : LuaHeap) (X : Address → Prop) (ρ : Renaming) (H : LuaHeap) (ρ' : Renaming)
    (H' : LuaHeap) : Prop where
  grows : ∀ a a', ρ a = some a' → ρ' a = some a'
  fresh : H.fresh ≤ H'.fresh
  kept : ∀ b < H.fresh, ¬ X b → H'.tables b = H.tables b
  made : ∀ a a', ρ a = none → ρ' a = some a' → H.fresh ≤ a' ∧
    ∃ t t', h.tables a = some t ∧ H'.tables a' = some t' ∧ t.Same ρ'.Rel t'

section Rebuilt

variable {h H₁ H₂ H₃ : LuaHeap} {X Y : Address → Prop} {ρ₁ ρ₂ ρ₃ : Renaming}

theorem Rebuilt.of_kept (hfresh : H₁.fresh ≤ H₂.fresh)
    (hkept : ∀ b < H₁.fresh, ¬ X b → H₂.tables b = H₁.tables b) : Rebuilt h X ρ₁ H₁ ρ₁ H₂ where
  grows := fun _ _ ha => ha
  fresh := hfresh
  kept := hkept
  made := by
    intro a a' hnone hsome
    rw [hnone] at hsome
    cases hsome

theorem Rebuilt.mono (h₁ : Rebuilt h X ρ₁ H₁ ρ₂ H₂) (hXY : ∀ b, X b → Y b) :
    Rebuilt h Y ρ₁ H₁ ρ₂ H₂ where
  grows := h₁.grows
  fresh := h₁.fresh
  kept := fun b hb hY => h₁.kept b hb fun hX => hY (hXY b hX)
  made := h₁.made

theorem Rebuilt.trans (h₁ : Rebuilt h X ρ₁ H₁ ρ₂ H₂) (h₂ : Rebuilt h X ρ₂ H₂ ρ₃ H₃)
    (hX : ∀ b, X b → b < H₁.fresh) (hbounded : ∀ a a', ρ₂ a = some a' → a' < H₂.fresh) :
    Rebuilt h X ρ₁ H₁ ρ₃ H₃ where
  grows := fun a a' ha => h₂.grows a a' (h₁.grows a a' ha)
  fresh := h₁.fresh.trans h₂.fresh
  kept := by
    intro b hb hbX
    rw [h₂.kept b (lt_of_lt_of_le hb h₁.fresh) hbX, h₁.kept b hb hbX]
  made := by
    intro a a' hnone hsome
    cases hmid : ρ₂ a with
    | none =>
      obtain ⟨hle, hmade⟩ := h₂.made a a' hmid hsome
      exact ⟨h₁.fresh.trans hle, hmade⟩
    | some b =>
      have hb := h₂.grows a b hmid
      rw [hsome, Option.some.injEq] at hb
      subst hb
      obtain ⟨hle, t, t', ht, ht', hsame⟩ := h₁.made a a' hnone hmid
      have hnot : ¬ X a' := fun hXa => absurd (hX a' hXa) (not_lt.mpr hle)
      refine ⟨hle, t, t', ht, ?_, hsame.mono h₂.grows⟩
      rw [h₂.kept a' (hbounded a a' hmid) hnot, ht']

theorem Rebuilt.table {a : Address} {t made : LuaTable} (hnew : ρ₁ a = none)
    (hbuilt : Rebuilt h (fun b => X b ∨ b = H₁.fresh) (Function.update ρ₁ a (some H₁.fresh)) H₂ ρ₃
      H₃)
    (hfresh : H₂.fresh = H₁.fresh + 1)
    (hkept : ∀ b < H₁.fresh, ¬ X b → H₂.tables b = H₁.tables b) (ht : h.tables a = some t)
    (hmade : H₃.tables H₁.fresh = some made) (hsame : t.Same ρ₃.Rel made) :
    Rebuilt h X ρ₁ H₁ ρ₃ H₃ := by
  have hle : H₁.fresh ≤ H₂.fresh := hfresh.ge.trans' (Nat.le_succ _)
  constructor
  · intro b b' hb
    apply hbuilt.grows
    rw [Function.update_of_ne]
    · exact hb
    · rintro rfl
      rw [hnew] at hb
      cases hb
  · exact hle.trans hbuilt.fresh
  · intro b hb hbX
    rw [hbuilt.kept b (lt_of_lt_of_le hb hle) (not_or.mpr ⟨hbX, hb.ne⟩), hkept b hb hbX]
  · intro b b' hnone hsome
    by_cases hba : b = a
    · have ha := hbuilt.grows a H₁.fresh (Function.update_self _ _ _)
      rw [hba, ha, Option.some.injEq] at hsome
      subst hba hsome
      exact ⟨le_rfl, t, made, ht, hmade, hsame⟩
    · obtain ⟨hle', hrest⟩ := hbuilt.made b b' (by rw [Function.update_of_ne hba, hnone]) hsome
      exact ⟨hle.trans hle', hrest⟩

end Rebuilt

/-! ## Walking a stream -/

theorem luaRawset_fresh {L : LuaState} {n : Address} {made : LuaTable} {k v : LuaValue}
    {stack : List LuaValue} (hstack : L.stack = v :: k :: .table n :: stack)
    (hmade : L.heap.tables n = some made) (hk : k.isKey = true) (hv : v ≠ .nil)
    (hnew : ∀ e ∈ made.entries, LuaValue.rawEqual e.1 k = false) :
    ∃ made', luaRawset L (-3) =
        some { L with stack := .table n :: stack, heap := L.heap.put n made' } ∧
      made'.entries = made.entries ++ [(k, v)] ∧ made'.metatable = made.metatable := by
  obtain ⟨made', hset, hentries, hmeta⟩ := LuaTable.rawset_fresh hk hv hnew
  refine ⟨made', ?_, hentries, hmeta⟩
  unfold luaRawset LuaState.tableAt
  rw [LuaState.value_third ⟨stack, hstack⟩]
  simp only [hmade, Option.map_some, Option.bind_eq_bind, Option.bind_some, hstack, hset]

section Walk

variable (h : LuaHeap) (objlen : Address → ℕ) (cs : List Content) (top : ℤ)
  (side : Option Address)

/-- With this fuel, a reader rebuilds what the traversal stands for. -/
def Rebuilds (decode : ValueReader) (fuel : ℕ) : Prop :=
  ∀ (L : LuaState) (v : LuaValue) (es : List Content) (i : ℕ) (seen seen' : Visited)
    (ρ : Renaming), Encodes h objlen seen i v es seen' → es <+: cs.drop i → es.length < fuel →
    Tracks cs top side seen ρ i L →
    ∃ v' L' ρ', decode L (cursorAt cs i) =
        some (ReturnCode.success.toInt, L', cursorAt cs (i + es.length)) ∧
      L'.stack = v' :: L.stack ∧ v.Same ρ'.Rel v' ∧
      Tracks cs top side seen' ρ' (i + es.length) L' ∧
      Rebuilt h (fun b => side = some b) ρ L.heap ρ' L'.heap

variable {h objlen cs top side}

theorem prefix_drop_append {es es' : List Content} {i : ℕ} (hes : es ++ es' <+: cs.drop i) :
    es <+: cs.drop i ∧ es' <+: cs.drop (i + es.length) := by
  obtain ⟨rest, hrest⟩ := hes
  rw [List.append_assoc] at hrest
  refine ⟨⟨es' ++ rest, hrest⟩, rest, ?_⟩
  rw [← List.drop_drop, ← hrest, List.drop_left]

theorem Rebuilds.entry {decode : ValueReader} {fuel : ℕ}
    (hdecode : Rebuilds h objlen cs top side decode fuel) {n : Address} (hn : side ≠ some n)
    {t made : LuaTable} {before after : List LuaEntry} {e : LuaEntry}
    (hentries : t.entries = before ++ e :: after) {L : LuaState} {stack : List LuaValue}
    (hstack : L.stack = .table n :: stack) (hmade : L.heap.tables n = some made) {ρ : Renaming}
    (hsame : List.Forall₂ (SameEntry ρ.Rel) before made.entries) {seen seenk seenv : Visited}
    {csk csv : List Content} {i : ℕ} (hkey : Encodes h objlen seen i e.1 csk seenk)
    (hvalue : Encodes h objlen seenk (i + csk.length) e.2 csv seenv)
    (hcsk : csk <+: cs.drop i) (hcsv : csv <+: cs.drop (i + csk.length))
    (hfuelk : csk.length < fuel) (hfuelv : csv.length < fuel)
    (htracks : Tracks cs top side seen ρ i L) :
    ∃ Lk Lv L' ρ' made',
      decode L (cursorAt cs i) =
        some (ReturnCode.success.toInt, Lk, cursorAt cs (i + csk.length)) ∧
      decode Lk (cursorAt cs (i + csk.length)) =
        some (ReturnCode.success.toInt, Lv, cursorAt cs (i + csk.length + csv.length)) ∧
      luaRawset Lv (-3) = some L' ∧ L'.stack = .table n :: stack ∧
      L'.heap.tables n = some made' ∧ made'.metatable = made.metatable ∧
      List.Forall₂ (SameEntry ρ'.Rel) (before ++ [e]) made'.entries ∧
      Tracks cs top side seenv ρ' (i + csk.length + csv.length) L' ∧
      Rebuilt h (fun b => side = some b ∨ b = n) ρ L.heap ρ' L'.heap := by
  have hnlt : n < L.heap.fresh := LuaHeap.lt_fresh hmade
  obtain ⟨k', Lk, ρk, hreadk, hstackk, hsamek, htracksk, hbuiltk⟩ :=
    hdecode L e.1 csk i seen seenk ρ hkey hcsk hfuelk htracks
  obtain ⟨v', Lv, ρv, hreadv, hstackv, hsamev, htracksv, hbuiltv⟩ :=
    hdecode Lk e.2 csv (i + csk.length) seenk seenv ρk hvalue hcsv hfuelv htracksk
  have hbuilt := hbuiltk.trans hbuiltv (fun b hb => htracks.side_lt hb) htracksk.bounded
  have hmadev : Lv.heap.tables n = some made := (hbuilt.kept n hnlt hn).trans hmade
  rw [hstackk, hstack] at hstackv
  have hsamek' := hsamek.mono hbuiltv.grows
  have hsame' : List.Forall₂ (SameEntry ρv.Rel) before made.entries :=
    hsame.imp fun f f' hf => hf.mono hbuilt.grows
  have hmem : e ∈ t.entries := by simp [hentries]
  have hdistinct : ∀ f ∈ before, LuaValue.rawEqual f.1 e.1 = false := by
    have hpairwise := t.distinct
    rw [hentries, List.pairwise_append] at hpairwise
    exact fun f hf => hpairwise.2.2 f hf e List.mem_cons_self
  have hnew : ∀ f' ∈ made.entries, LuaValue.rawEqual f'.1 k' = false := by
    intro f' hf'
    obtain ⟨f, hf, hff'⟩ := exists_of_mem_right hsame' hf'
    rw [hff'.1.rawEqual htracksv.biUnique hsamek']
    exact hdistinct f hf
  obtain ⟨made', hset, hentries', hmeta⟩ := luaRawset_fresh hstackv hmadev
    (hsamek'.isKey.trans (t.keys e hmem)) (hsamev.ne_nil (t.values e hmem)) hnew
  have hput : ∀ b, b ≠ n → (Lv.heap.put n made').tables b = Lv.heap.tables b :=
    fun b hb => Function.update_of_ne hb _ _
  refine ⟨Lk, Lv, _, ρv, made', hreadk, hreadv, hset, rfl, ?_, hmeta, ?_, ?_, ?_⟩
  · show Function.update _ n _ n = _
    rw [Function.update_self, hmadev]
    rfl
  · rw [hentries']
    exact List.rel_append hsame' (.cons ⟨hsamek', hsamev⟩ .nil)
  · apply htracksv.later le_rfl
    · exact le_refl Lv.heap.fresh
    · intro s hs
      exact htracks.value_top hs ⟨[], hstack.symm⟩
    · intro s hs
      have hne : s ≠ n := by
        rintro rfl
        exact hn hs
      exact hput s hne
  · have hchanged : Rebuilt h (fun b => side = some b ∨ b = n) ρv Lv.heap ρv
        (Lv.heap.put n made') :=
      Rebuilt.of_kept (le_refl Lv.heap.fresh) fun b _ hb => hput b fun heq => hb (.inr heq)
    apply (hbuilt.mono fun b hb => .inl hb).trans hchanged _ htracksv.bounded
    rintro b (hb | rfl)
    · exact htracks.side_lt hb
    · exact hnlt

theorem decodeEntries_rebuilds {decode : ValueReader} {fuel : ℕ}
    (hdecode : Rebuilds h objlen cs top side decode fuel) {n : Address} (hn : side ≠ some n)
    {t made : LuaTable} {before after : List LuaEntry} (hentries : t.entries = before ++ after)
    {L : LuaState} {stack : List LuaValue} (hstack : L.stack = .table n :: stack)
    (hmade : L.heap.tables n = some made) (hmeta : made.metatable = none) {ρ : Renaming}
    (hsame : List.Forall₂ (SameEntry ρ.Rel) before made.entries) {seen seen' : Visited}
    {es : List Content} {i : ℕ}
    (hall : EncodesAll h objlen seen i (after.flatMap fun e => [e.1, e.2]) es seen')
    (hes : es <+: cs.drop i) (hfuel : es.length < fuel) (htracks : Tracks cs top side seen ρ i L) :
    ∃ L' ρ' made', decodeEntries decode after.length L (cursorAt cs i) =
        some (L', cursorAt cs (i + es.length)) ∧
      L'.stack = .table n :: stack ∧ L'.heap.tables n = some made' ∧ made'.metatable = none ∧
      List.Forall₂ (SameEntry ρ'.Rel) t.entries made'.entries ∧
      Tracks cs top side seen' ρ' (i + es.length) L' ∧
      Rebuilt h (fun b => side = some b ∨ b = n) ρ L.heap ρ' L'.heap := by
  have hnlt : n < L.heap.fresh := LuaHeap.lt_fresh hmade
  induction after generalizing before L made ρ seen es i with
  | nil =>
    cases hall
    rw [List.append_nil] at hentries
    refine ⟨L, ρ, made, rfl, hstack, hmade, hmeta, ?_, htracks,
      Rebuilt.of_kept le_rfl fun _ _ _ => rfl⟩
    rw [hentries]
    exact hsame
  | cons e after ih =>
    rw [List.flatMap_cons] at hall
    cases hall with
    | cons hkey hrest =>
      rename_i seenk csk csv
      cases hrest with
      | cons hvalue hrest =>
        rename_i seenv csv csr
        obtain ⟨hcsk, hcsvr⟩ := prefix_drop_append hes
        obtain ⟨hcsv, hcsr⟩ := prefix_drop_append hcsvr
        rw [List.length_append, List.length_append] at hfuel
        obtain ⟨Lk, Lv, L₁, ρ₁, made₁, hreadk, hreadv, hset, hstack₁, hmade₁, hmeta₁, hsame₁,
          htracks₁, hbuilt₁⟩ := hdecode.entry hn hentries hstack hmade hsame hkey hvalue hcsk hcsv
          (by omega) (by omega) htracks
        have hentries₁ : t.entries = (before ++ [e]) ++ after :=
          hentries.trans (List.append_cons before e after)
        obtain ⟨L', ρ', made', hloop, hstack', hmade', hmeta', hsame', htracks', hbuilt'⟩ :=
          ih hentries₁ hstack₁ hmade₁ (hmeta₁.trans hmeta) hsame₁ hrest hcsr (by omega) htracks₁
            (lt_of_lt_of_le hnlt hbuilt₁.fresh)
        have hpos : i + csk.length + csv.length + csr.length =
            i + (csk ++ (csv ++ csr)).length := by
          rw [List.length_append, List.length_append]
          omega
        rw [hpos] at hloop htracks'
        refine ⟨L', ρ', made', ?_, hstack', hmade', hmeta', hsame', htracks', ?_⟩
        · rw [List.length_cons, decodeEntries, hreadk]
          simp only [Option.bind_eq_bind, Option.bind_some, hreadv, hset, hloop]
        · apply hbuilt₁.trans hbuilt' _ htracks₁.bounded
          rintro b (hb | rfl)
          · exact htracks.side_lt hb
          · exact hnlt

theorem getElem?_of_drop {c : Content} {es : List Content} {i : ℕ}
    (hes : c :: es <+: cs.drop i) : cs[i]? = some c := by
  obtain ⟨rest, hrest⟩ := hes
  have hget := congrArg (·[0]?) hrest
  rw [List.getElem?_drop, Nat.add_zero] at hget
  exact hget.symm

variable {lib : LuaLibrary} {m : Message} {limit : ℕ}

variable (lib) in
theorem decodeValue_reference [lib.StackGrows] (hcarries : Carries m cs limit)
    (hneeded : ∀ ref, Content.reference ref ∈ cs → side ≠ none) {L : LuaState} {a : Address}
    {i j : ℕ} {seen : Visited} {ρ : Renaming} (ha : seen a = some j)
    (hc : cs[i]? = some (.reference (BitVec.ofNat 32 j)))
    (hlimit : streamSize (cs.take i) < limit) (htracks : Tracks cs top side seen ρ i L)
    (fuel : ℕ) :
    ∃ a', ρ a = some a' ∧ decodeValue lib m top (fuel + 1) L (cursorAt cs i) =
      some (ReturnCode.success.toInt, L.push (.table a'), cursorAt cs (i + 1)) := by
  have hmem := List.mem_of_getElem? hc
  have hlength := length_le_streamSize cs
  have hsmall := hcarries.small
  have hlt := (List.getElem?_eq_some_iff.mp hc).1
  have hj := htracks.position a j ha
  have hint : (BitVec.ofNat 32 j).toInt = j := toInt_ofNat_small (by omega)
  obtain ⟨a', ha'⟩ := Option.isSome_iff_exists.mp
    ((htracks.domain a).trans (Option.isSome_iff_exists.mpr ⟨j, ha⟩))
  obtain ⟨s, hs⟩ := Option.ne_none_iff_exists'.mp (hneeded _ hmem)
  obtain ⟨-, hvalue, t, ht, hget⟩ := htracks.side s hs
  have hrawget := hget a j a' ha ha' hmem
  obtain ⟨v, hv, -, hdecode⟩ := hcarries.decodeValue lib top hc hlimit fuel L
  refine ⟨a', ha', ?_⟩
  have hrawgeti : luaRawgeti L top (BitVec.ofNat 32 j).toInt = some (L.push (.table a')) := by
    unfold luaRawgeti LuaState.tableAt
    rw [hvalue, hint]
    simp only [ht, Option.map_some, Option.bind_eq_bind, Option.bind_some, hrawget]
  rw [hdecode, Content.valueType, decodeBody_reference hv, hrawgeti]
  rfl

theorem decodeValue_table [lib.StackGrows] (hcarries : Carries m cs limit)
    (hneeded : ∀ ref, Content.reference ref ∈ cs → side ≠ none) {fuel : ℕ}
    (hdecode : Rebuilds h objlen cs top side (decodeValue lib m top fuel) fuel) {L : LuaState}
    {a : Address} {t : LuaTable} {es : List Content} {i : ℕ} {seen seen' : Visited} {ρ : Renaming}
    (hnew : seen a = none) (ht : h.tables a = some t) (hmeta : t.metatable = none)
    (hall : EncodesAll h objlen (Function.update seen a (some i)) (i + 1) t.elements es seen')
    (hes : t.header (objlen a) :: es <+: cs.drop i) (hlimit : streamSize (cs.take i) < limit)
    (hfuel : es.length < fuel) (htracks : Tracks cs top side seen ρ i L) :
    ∃ a' L' ρ', decodeValue lib m top (fuel + 1) L (cursorAt cs i) =
        some (ReturnCode.success.toInt, L', cursorAt cs (i + 1 + es.length)) ∧
      L'.stack = .table a' :: L.stack ∧ ρ' a = some a' ∧
      Tracks cs top side seen' ρ' (i + 1 + es.length) L' ∧
      Rebuilt h (fun b => side = some b) ρ L.heap ρ' L'.heap := by
  have hc := getElem?_of_drop hes
  have hlength := length_le_streamSize cs
  have hsmall := hcarries.small
  have hlt := (List.getElem?_eq_some_iff.mp hc).1
  have hle := hes.length_le
  rw [List.length_cons, List.length_drop] at hle
  have hslots : (BitVec.ofNat 32 t.entries.length).toNat = t.entries.length := by
    have hentries := hall.length_le
    rw [LuaTable.length_elements] at hentries
    exact toNat_ofNat_of_lt (by omega)
  obtain ⟨v, hv, hreferenced, hread⟩ :=
    hcarries.decodeValue lib top hc hlimit fuel L
  obtain ⟨L₁, hcreate, hstack₁, hfresh₁, hmade₁, hkept₁, htracks₁⟩ :=
    htracks.create hneeded (by omega) hreferenced a
  have hρ : ρ a = none := by
    have hdomain := htracks.domain a
    rw [hnew] at hdomain
    exact Option.isSome_eq_false_iff.mp hdomain |> Option.isNone_iff_eq_none.mp
  have hn : side ≠ some L.heap.fresh := fun hs => (htracks.side_lt hs).false
  rw [← List.singleton_append] at hes
  obtain ⟨L', ρ', made, hloop, hstack', hmade, hmeta', hsame, htracks', hbuilt⟩ :=
    decodeEntries_rebuilds hdecode hn (List.nil_append _).symm hstack₁ hmade₁ rfl .nil hall
      (prefix_drop_append hes).2 hfuel htracks₁
  refine ⟨L.heap.fresh, L', ρ', ?_, hstack', ?_, htracks', ?_⟩
  · rw [hread]
    show Option.map _ (decodeBody _ _ _ _ _ _ _ .tTable) = _
    rw [decodeBody_table hv, hcreate, hslots, Option.bind_some, hloop]
    rfl
  · exact hbuilt.grows a _ (Function.update_self _ _ _)
  · apply hbuilt.table hρ hfresh₁ hkept₁ ht hmade
    refine ⟨?_, made.entries, List.Perm.refl _, hsame⟩
    rw [hmeta, hmeta']
    exact .none

variable (lib) in
theorem decodeValue_rebuilds [lib.StackGrows] (hcarries : Carries m cs limit)
    (hread : ∀ i < cs.length, streamSize (cs.take i) < limit)
    (hneeded : ∀ ref, Content.reference ref ∈ cs → side ≠ none) (fuel : ℕ) :
    Rebuilds h objlen cs top side (decodeValue lib m top fuel) fuel := by
  induction fuel with
  | zero => exact fun _ _ _ _ _ _ _ _ _ hfuel => (Nat.not_lt_zero _ hfuel).elim
  | succ fuel ih =>
    intro L v es i seen seen' ρ henc hes hfuel htracks
    cases henc with
    | @scalar _ _ _ c hv =>
      have hc := getElem?_of_drop hes
      have hlt := (List.getElem?_eq_some_iff.mp hc).1
      obtain ⟨w, hw, -, hdecode⟩ :=
        hcarries.decodeValue lib top hc (hread i hlt) fuel L
      refine ⟨v, L.push v, ρ, ?_, rfl, ?_, htracks.push v, Rebuilt.of_kept le_rfl fun _ _ _ => rfl⟩
      · rw [hdecode, decodeBody_scalar hw hv]
        rfl
      · apply LuaValue.Same.scalar
        rintro a rfl
        cases hv
    | @reference _ _ j a ha =>
      have hc := getElem?_of_drop hes
      have hlt := (List.getElem?_eq_some_iff.mp hc).1
      obtain ⟨a', ha', hdecode⟩ :=
        decodeValue_reference lib hcarries hneeded ha hc (hread i hlt) htracks fuel
      exact ⟨.table a', L.push (.table a'), ρ, hdecode, rfl, .table ha', htracks.push _,
        Rebuilt.of_kept le_rfl fun _ _ _ => rfl⟩
    | @table _ _ _ a t es hnew ht hmeta hall =>
      have hlt := (List.getElem?_eq_some_iff.mp (getElem?_of_drop hes)).1
      rw [List.length_cons] at hfuel
      obtain ⟨a', L', ρ', hdecode, hstack', ha', htracks', hbuilt⟩ :=
        decodeValue_table hcarries hneeded ih hnew ht hmeta hall hes (hread i hlt) (by omega)
          htracks
      rw [Nat.add_assoc, Nat.add_comm 1] at hdecode htracks'
      exact ⟨.table a', L', ρ', hdecode, hstack', .table ha', htracks', hbuilt⟩

variable (lib) in
theorem decodeLoop_rebuilds [lib.StackGrows] (hcarries : Carries m cs limit)
    (hread : ∀ i < cs.length, streamSize (cs.take i) < limit) (hend : limit ≤ streamSize cs)
    (hneeded : ∀ ref, Content.reference ref ∈ cs → side ≠ none) {fuel n : ℕ} {vs : List LuaValue}
    {L : LuaState} {es : List Content} {i : ℕ} {seen seen' : Visited} {ρ : Renaming}
    (hall : EncodesAll h objlen seen i vs es seen') (hes : cs.drop i = es)
    (hi : i + es.length = cs.length) (hfuel : es.length < fuel) (hn : vs.length < n)
    (htracks : Tracks cs top side seen ρ i L) :
    ∃ vs' L' ρ', decodeLoop lib m top fuel n L (cursorAt cs i) = some L' ∧
      L'.stack = vs'.reverse ++ L.stack ∧ List.Forall₂ (LuaValue.Same ρ'.Rel) vs vs' ∧
      Tracks cs top side seen' ρ' cs.length L' ∧
      Rebuilt h (fun b => side = some b) ρ L.heap ρ' L'.heap := by
  induction vs generalizing n L es i seen ρ with
  | nil =>
    obtain ⟨n, rfl⟩ := Nat.exists_eq_succ_of_ne_zero (Nat.ne_of_gt hn)
    obtain ⟨fuel, rfl⟩ := Nat.exists_eq_succ_of_ne_zero (Nat.ne_of_gt (Nat.zero_lt_of_lt hfuel))
    cases hall
    rw [List.length_nil, Nat.add_zero] at hi
    have hlast := hcarries.decodeValue_end lib top (i := i)
      (by rw [hi, List.take_length]; exact hend) fuel L
    rw [hi] at htracks
    refine ⟨[], L, ρ, ?_, rfl, .nil, htracks, Rebuilt.of_kept le_rfl fun _ _ _ => rfl⟩
    rw [decodeLoop, hlast]
    rfl
  | cons v vs ih =>
    obtain ⟨n, rfl⟩ := Nat.exists_eq_succ_of_ne_zero (Nat.ne_of_gt (Nat.zero_lt_of_lt hn))
    cases hall with
    | cons hv hrest =>
      rename_i seenv csv csr
      have hstart : csv ++ csr <+: cs.drop i := by rw [hes]
      rw [List.length_append] at hi hfuel
      obtain ⟨v', L₁, ρ₁, hdecode, hstack₁, hsame₁, htracks₁, hbuilt₁⟩ :=
        decodeValue_rebuilds lib hcarries hread hneeded fuel L v csv i seen seenv ρ hv
          (prefix_drop_append hstart).1 (by omega) htracks
      have hes' : cs.drop (i + csv.length) = csr := by
        rw [← List.drop_drop, hes, List.drop_left]
      obtain ⟨vs', L', ρ', hloop, hstack', hsame', htracks', hbuilt'⟩ :=
        ih hrest hes' (by omega) (by omega) (Nat.lt_of_succ_lt_succ hn) htracks₁
      refine ⟨v' :: vs', L', ρ', ?_, ?_, .cons (hsame₁.mono hbuilt'.grows) hsame', htracks',
        hbuilt₁.trans hbuilt' (fun b hb => htracks.side_lt hb) htracks₁.bounded⟩
      · rw [decodeLoop, hdecode]
        exact hloop
      · rw [hstack', hstack₁, List.reverse_cons, List.append_assoc]
        rfl

theorem tracks_decodeStart (hrefs : ∀ ref, Content.reference ref ∈ cs → m.refs ≠ 0)
    (R : LuaState) :
    ∃ side : Option Address, (∀ ref, Content.reference ref ∈ cs → side ≠ none) ∧
      Tracks cs (luaGettop (decodeStart m R)) side (fun _ => none) (fun _ => none) 0
        (decodeStart m R) := by
  by_cases hzero : m.refs = 0
  · refine ⟨none, fun ref hmem => (hrefs ref hmem hzero).elim, ?_⟩
    exact ⟨by simp, by simp, by simp, by simp, by simp⟩
  · refine ⟨some R.heap.fresh, by simp, by simp, by simp, by simp, by simp, ?_⟩
    intro s hs
    cases hs
    have hstart : decodeStart m R = luaCreatetable R := if_pos hzero
    have htop : luaGettop (decodeStart m R) = R.stack.length + 1 := by
      rw [hstart, luaGettop, luaCreatetable, List.length_cons]
      rfl
    have hpos : 0 < luaGettop (decodeStart m R) := by omega
    refine ⟨hpos, ?_, .empty, ?_, by simp⟩
    · rw [LuaState.value_of_pos hpos, htop, hstart, luaCreatetable, List.reverse_cons,
        List.getElem?_append_right (by rw [List.length_reverse]; omega), List.length_reverse]
      simp
    · rw [hstart]
      exact Function.update_self _ _ _

end Walk

end Casting
