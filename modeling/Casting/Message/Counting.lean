import Casting.Message.Termination

/-!
# What an encoding counts

`write_value` counts every value that it pushes and takes the values inside a table or a function
and a metatable off again, so that one value is counted for each call.
-/

namespace Casting

open Relation

/-- The types that messages have, apart from userdata. -/
def LuaValue.isEncodable : LuaValue → Bool
  | .userdata _ | .lightuserdata _ | .thread _ => false
  | _ => true

/-- Nothing else can be found inside a value. -/
def LuaHeap.Encodable (h : LuaHeap) (v : LuaValue) : Prop :=
  ∀ w, ReflTransGen h.Inside v w → w.isEncodable = true

theorem LuaHeap.Encodable.inside {h : LuaHeap} {v w : LuaValue} (hv : h.Encodable v)
    (hw : h.Inside v w) : h.Encodable w := fun u hu => hv u (.head hw hu)

/-! ## The parts of a value -/

section Parts

variable {mem : ℕ → Block} {mb mb' : Builder}

theorem count_push (f : Value → Value) (size : Word) (block : Block) (mb : Builder) :
    (push f size (some block) mb).2.count = mb.count + 1 := (push_frame f size block mb).2.2.2.2

theorem refCheck_count {a : Address} {found : Bool}
    (h : refCheck mem mb a = some (found, mb')) :
    mb'.count = mb.count + if found then 1 else 0 := by
  unfold refCheck at h
  simp only at h
  split at h
  · cases h
    exact (lcPushreference_frame _ _ _).2.2.2
  · obtain ⟨inserted, -, heq⟩ := Option.map_eq_some_iff.mp h
    cases heq
    exact (BitVec.add_zero _).symm

/-- A call of this writer leaves the Lua state as it was and counts one value. -/
def CountsOne (h : LuaHeap) (write : ValueWriter) : Prop :=
  ∀ (mb mb' : Builder) (L L' : LuaState) (idx rc : ℤ) (v : LuaValue),
    write mb L idx = some (rc, L', mb') → L.heap = h → L.value idx = some v → h.Encodable v →
    L' = L ∧ mb'.count = mb.count + 1

variable {h : LuaHeap} {write : ValueWriter}

theorem CountsOne.entries (hcounts : CountsOne h write) {bottom L' : LuaState} {idx : ℤ}
    {a : Address} {t : LuaTable} (hidx : 0 < idx) (hheap : bottom.heap = h)
    (hbottom : bottom.value idx = some (.table a)) (ht : h.tables a = some t)
    {before after : List LuaEntry} (hentries : t.entries = before ++ after) {k : LuaValue}
    (hk : t.next k = some after.head?) {n : ℕ} {slots slots' : Word}
    (hencodable : ∀ v ∈ after.flatMap fun e => [e.1, e.2], h.Encodable v)
    (hwrite : writeEntries write idx n slots mb (bottom.push k) = some (slots', L', mb')) :
    L' = bottom ∧ slots' = slots + BitVec.ofNat 32 after.length ∧
      mb'.count = mb.count + 2 * BitVec.ofNat 32 after.length := by
  have htable := tableAt_push hidx hbottom (hheap ▸ ht)
  induction after generalizing before k n slots mb with
  | nil =>
    cases n with
    | zero => cases hwrite
    | succ n =>
      rw [writeEntries, luaNext_end (htable k) hk] at hwrite
      simp only [Option.bind_eq_bind, Option.bind_some, Bool.false_eq_true, if_false,
        Option.some.injEq, Prod.mk.injEq] at hwrite
      obtain ⟨rfl, rfl, rfl⟩ := hwrite
      simp
  | cons e after ih =>
    cases n with
    | zero => cases hwrite
    | succ n =>
      rw [writeEntries, luaNext_entry (htable k) hk] at hwrite
      simp only [Option.bind_eq_bind, Option.bind_some, if_true] at hwrite
      obtain ⟨⟨rck, Lk, mbk⟩, hkey, hwrite⟩ := Option.bind_eq_some_iff.mp hwrite
      obtain ⟨⟨rcv, Lv, mbv⟩, hvalue, hwrite⟩ := Option.bind_eq_some_iff.mp hwrite
      obtain ⟨rfl, hcountk⟩ := hcounts _ _ _ _ _ _ e.1 hkey hheap
        (LuaState.value_second ⟨bottom.stack, rfl⟩) (hencodable e.1 (by simp))
      obtain ⟨rfl, hcountv⟩ := hcounts _ _ _ _ _ _ e.2 hvalue hheap
        (LuaState.value_top ⟨_, rfl⟩) (hencodable e.2 (by simp))
      have hpop : luaPop ((bottom.push e.1).push e.2) 1 = bottom.push e.1 := rfl
      simp only [hpop] at hwrite
      have hentries' : t.entries = (before ++ [e]) ++ after :=
        hentries.trans (List.append_cons before e after)
      obtain ⟨hstate, hslots, hcount⟩ := ih hentries' (LuaTable.next_key hentries)
        (fun v hv => hencodable v (List.mem_append_right _ hv)) hwrite
      refine ⟨hstate, ?_, ?_⟩
      · rw [hslots, slots_succ, List.length_cons]
      · have hsucc : BitVec.ofNat 32 (after.length + 1) = BitVec.ofNat 32 after.length + 1 :=
          BitVec.ofNat_add _ _
        simp only [hcountk] at hcountv
        rw [hcount, hcountv, List.length_cons, hsucc]
        ring

theorem CountsOne.upvalues (hcounts : CountsOne h write) {L L' : LuaState} {idx : ℤ}
    {a : Address} {c : Closure} (hheap : L.heap = h) (hv : L.value idx = some (.function a))
    (hc : h.closures a = some c) {before after : List LuaValue}
    (hupvalues : c.upvalues = before ++ after) (hencodable : ∀ v ∈ after, h.Encodable v)
    (hwrite : writeUpvalues write idx after.length before.length mb L = some (L', mb')) :
    L' = L ∧ mb'.count = mb.count + BitVec.ofNat 32 after.length := by
  induction after generalizing before mb with
  | nil =>
    cases hwrite
    exact ⟨rfl, (BitVec.add_zero _).symm⟩
  | cons v after ih =>
    rw [List.length_cons, writeUpvalues, luaGetupvalue_mem hv (hheap ▸ hc) hupvalues] at hwrite
    simp only [Option.bind_eq_bind] at hwrite
    obtain ⟨⟨rc, Lv, mbv⟩, hvalue, hwrite⟩ := Option.bind_eq_some_iff.mp hwrite
    obtain ⟨rfl, hcountv⟩ := hcounts _ _ _ _ _ _ v hvalue hheap
      (LuaState.value_top ⟨L.stack, rfl⟩) (hencodable v List.mem_cons_self)
    have hupvalues' : c.upvalues = (before ++ [v]) ++ after :=
      hupvalues.trans (List.append_cons before v after)
    have hpop : luaPop (L.push v) 1 = L := rfl
    simp only [hpop] at hwrite
    obtain ⟨hstate, hcount⟩ := ih hupvalues'
      (fun u hu => hencodable u (List.mem_cons_of_mem v hu)) (by
        rw [List.length_append, List.length_singleton]
        exact hwrite)
    refine ⟨hstate, ?_⟩
    rw [hcount, hcountv, slots_succ, List.length_cons]

theorem CountsOne.metatable (hcounts : CountsOne h write) {L L' : LuaState} {idx : ℤ}
    {a : Address} {t : LuaTable} {rc : ℤ} (hheap : L.heap = h)
    (hv : L.value idx = some (.table a)) (ht : h.tables a = some t)
    (hencodable : ∀ v ∈ (t.metatable.map LuaValue.table).toList, h.Encodable v)
    (hwrite : (luaGetmetatable L idx).bind (fun p =>
      if p.1 then
        (write mb p.2 (-1)).bind fun r =>
          some (ReturnCode.success.toInt, luaPop r.2.1 1, lcSetmeta r.2.2 r.1)
      else some (ReturnCode.success.toInt, p.2, mb)) = some (rc, L', mb')) :
    L' = L ∧ mb'.count = mb.count := by
  rw [luaGetmetatable_table hv (hheap ▸ ht)] at hwrite
  cases hmeta : t.metatable with
  | none =>
    rw [hmeta] at hwrite
    cases hwrite
    exact ⟨rfl, rfl⟩
  | some m =>
    rw [hmeta] at hwrite hencodable
    simp only [Option.bind_some, if_true] at hwrite
    obtain ⟨⟨rcm, Lm, mbm⟩, hvalue, hwrite⟩ := Option.bind_eq_some_iff.mp hwrite
    obtain ⟨rfl, hcount⟩ := hcounts _ _ _ _ _ _ (.table m) hvalue hheap
      (LuaState.value_top ⟨L.stack, rfl⟩) (hencodable _ List.mem_cons_self)
    cases hwrite
    refine ⟨rfl, ?_⟩
    change mbm.count - 1 = mb.count
    rw [hcount]
    exact add_sub_cancel_right _ _

theorem exists_table_of_write {L : LuaState} {idx : ℤ} {a : Address} (hidx : 0 < idx)
    (hv : L.value idx = some (.table a)) {n : ℕ} {slots : Word} {k : LuaValue}
    {r : Word × LuaState × Builder}
    (hwrite : writeEntries write idx n slots mb (L.push k) = some r) :
    ∃ t, L.heap.tables a = some t := by
  cases n with
  | zero => cases hwrite
  | succ n =>
    obtain ⟨next, hnext, -⟩ := Option.bind_eq_some_iff.mp hwrite
    exact exists_table_of_luaNext hidx hv hnext

end Parts

/-! ## One value -/

/-- Each call of `write_value` counts one, whatever builder it is given. -/
theorem writeValue_countsOne (lib : LuaLibrary) (mem : ℕ → Block) (h : LuaHeap) (fuel : ℕ) :
    CountsOne h (writeValue lib mem fuel) := by
  induction fuel with
  | zero =>
    intro mb mb' L L' idx rc v hwrite
    cases hwrite
  | succ fuel ih =>
    intro mb mb' L L' idx rc v hwrite hheap hv hencodable
    cases v with
    | table a =>
      simp only [writeValue, hv, Option.bind_eq_bind] at hwrite
      obtain ⟨⟨found, mb₁⟩, hcheck, hwrite⟩ := Option.bind_eq_some_iff.mp hwrite
      have hcount₁ := refCheck_count hcheck
      cases found with
      | true =>
        cases hwrite
        exact ⟨rfl, hcount₁⟩
      | false =>
        simp only [Bool.false_eq_true, if_false] at hwrite
        obtain ⟨hidx, habs⟩ := value_lcAbsindex hv
        obtain ⟨L₁, hroom, hwrite⟩ := Option.bind_eq_some_iff.mp hwrite
        obtain ⟨-, rfl⟩ := luaCheckstack_eq_some.mp hroom
        obtain ⟨⟨slots, L₂, mb₂⟩, hentries, hwrite⟩ := Option.bind_eq_some_iff.mp hwrite
        obtain ⟨t, ht⟩ := exists_table_of_write hidx habs hentries
        rw [hheap] at ht
        have hchildren : ∀ u ∈ t.children, h.Encodable u :=
          fun u hu => hencodable.inside (.table ht hu)
        obtain ⟨rfl, rfl, hcount₂⟩ := ih.entries hidx hheap habs ht (List.nil_append _).symm
          t.next_nil (fun u hu => hchildren u (List.mem_append_left _ hu)) hentries
        obtain ⟨rfl, hcount⟩ := ih.metatable hheap habs ht
          (fun u hu => hchildren u (List.mem_append_right _ hu)) hwrite
        have hcreate := count_push
          (fun v => { v with type := ValueType.tTable.code, low := 0, high := 0 }) (4 + 4 + 4)
          (mem mb₁.last) mb₁
        change (lcCreatetable (some (mem mb₁.last)) mb₁).2.count = _ at hcreate
        refine ⟨rfl, hcount.trans ?_⟩
        change mb₂.count - (((0 : Word) + BitVec.ofNat 32 t.entries.length).signExtend 64 *
          2).setWidth 32 = _
        rw [BitVec.setWidth_mul _ _ (by decide), setWidth_signExtend, hcount₂, hcreate, hcount₁,
          zero_add]
        change mb.count + 0 + 1 + 2 * BitVec.ofNat 32 t.entries.length -
          BitVec.ofNat 32 t.entries.length * 2 = _
        ring
    | function a =>
      simp only [writeValue, hv, hheap, Option.bind_eq_bind] at hwrite
      obtain ⟨c, hc, hwrite⟩ := Option.bind_eq_some_iff.mp hwrite
      obtain ⟨⟨L₂, mb₂⟩, hupvalues, hwrite⟩ := Option.bind_eq_some_iff.mp hwrite
      cases hwrite
      obtain ⟨rfl, hcount⟩ := ih.upvalues hheap hv hc (List.nil_append _).symm
        (fun u hu => hencodable.inside (.upvalue hc hu)) hupvalues
      refine ⟨rfl, ?_⟩
      change mb₂.count - BitVec.ofNat 32 c.upvalues.length = _
      rw [hcount, add_sub_cancel_right]
      exact count_push _ _ _ _
    | userdata a | lightuserdata a | thread a => cases hencodable _ .refl
    | _ =>
      simp only [writeValue, hv] at hwrite
      cases hwrite
      exact ⟨rfl, count_push _ _ _ _⟩

/-! ## The arguments -/

section Arguments

variable {lib : LuaLibrary} {mem : ℕ → Block} {L L' : LuaState} {vs rest : List LuaValue}

theorem CountsOne.saved {write : ValueWriter} (hcounts : CountsOne L.heap write) {idx : ℤ}
    (hvs : ∀ (j : ℕ) v, vs[j]? = some v → L.value (idx + j) = some v)
    (hencodable : ∀ v ∈ vs, L.heap.Encodable v) {mb mb' : Builder}
    (hwrite : writeSaved write vs.length idx mb L = some (L', mb')) :
    L' = L ∧ mb'.count = mb.count + BitVec.ofNat 32 vs.length := by
  induction vs generalizing idx mb with
  | nil =>
    cases hwrite
    exact ⟨rfl, (BitVec.add_zero _).symm⟩
  | cons v vs ih =>
    rw [List.length_cons, writeSaved] at hwrite
    simp only [Option.bind_eq_bind] at hwrite
    obtain ⟨⟨rc, Lv, mbv⟩, hvalue, hwrite⟩ := Option.bind_eq_some_iff.mp hwrite
    obtain ⟨hv, hvs'⟩ := value_cons hvs
    obtain ⟨hstatev, hcountv⟩ :=
      hcounts _ _ _ _ _ _ v hvalue rfl hv (hencodable v List.mem_cons_self)
    simp only [hstatev] at hwrite
    obtain ⟨hstate, hcount⟩ := ih hvs' (fun u hu => hencodable u (List.mem_cons_of_mem v hu)) hwrite
    refine ⟨hstate, ?_⟩
    rw [hcount, hcountv, slots_succ, List.length_cons]

/-- Each call of `write_value` that an encoding makes counts one, the encoding ends, and the message
counts its arguments. -/
theorem counts_arguments (lib : LuaLibrary) [lib.StackGrows] (mem : ℕ → Block) (buf : Block)
    (L : LuaState) (vs rest : List LuaValue) (hstack : L.stack = vs.reverse ++ rest)
    (hgraph : L.heap.IsGraph vs)
    (hencodable : ∀ v, L.heap.Contains vs v → v.isEncodable = true)
    (hacyclic : ∀ a, L.heap.Contains vs (.function a) → ¬ TransGen L.heap.Captures a a) :
    (∀ (fuel : ℕ) (mb mb' : Builder) (S S' : LuaState) (idx rc : ℤ) (v : LuaValue),
        S.heap = L.heap → S.value idx = some v → L.heap.Contains vs v →
        writeValue lib mem fuel mb S idx = some (rc, S', mb') →
        S' = S ∧ mb'.count = mb.count + 1) ∧
      ∃ N, ∀ fuel, N ≤ fuel →
        ∃ mb, writeValues lib mem fuel vs.length (luaGettop L - vs.length + 1)
            (msgBuilderInit buf) L = some (L, mb) ∧
          mb.count = BitVec.ofNat 32 vs.length ∧
          ∀ slack,
            luaNewmessage lib mem buf slack fuel L vs.length =
              (msgNew slack mb).map (fun m => (m, luaPop L vs.length)) ∧
            ∀ m, msgNew slack mb = some m → m.count = BitVec.ofNat 32 vs.length := by
  have hinside : ∀ v, L.heap.Contains vs v → L.heap.Encodable v := by
    intro v ⟨r, hr, hpath⟩ w hw
    exact hencodable w ⟨r, hr, hpath.trans hw⟩
  refine ⟨?_, ?_⟩
  · intro fuel mb mb' S S' idx rc v hheap hv hcontains hwrite
    exact writeValue_countsOne lib mem L.heap fuel mb mb' S S' idx rc v hwrite hheap hv
      (hinside v hcontains)
  · have hwalks := hgraph.walksAll hacyclic lib.objlen
    obtain ⟨N, hends⟩ : EncodingEnds lib mem buf L vs.length :=
      (encodingEnds_iff_walks hstack hgraph.plain).mpr hwalks
    refine ⟨N, fun fuel hfuel => ?_⟩
    obtain ⟨⟨S, mb⟩, hwrite⟩ := Option.isSome_iff_exists.mp (hends fuel hfuel)
    have hsaved := hwrite
    rw [writeValues_eq] at hsaved
    obtain ⟨rfl, hcount⟩ := (writeValue_countsOne lib mem L.heap fuel).saved
      (fun _ _ hv => value_argument hstack hv) (fun v hv => hinside v ⟨v, hv, .refl⟩) hsaved
    have hzero : (msgBuilderInit buf).count = 0 := rfl
    rw [hzero, zero_add] at hcount
    refine ⟨mb, hwrite, hcount, fun slack => ⟨luaNewmessage_of_writeValues hwrite slack, ?_⟩⟩
    intro m hmsg
    obtain ⟨data, -, hmsg⟩ := Option.bind_eq_some_iff.mp hmsg
    split at hmsg
    · cases hmsg
      exact hcount
    · cases hmsg

/-- A table that holds itself is one argument. -/
theorem counts_arguments_loop :
    (∀ (fuel : ℕ) (mb mb' : Builder) (S S' : LuaState) (idx rc : ℤ) (v : LuaValue),
        S.heap = loopHeap → S.value idx = some v → loopHeap.Contains [.table 0] v →
        writeValue loopLibrary (fun _ _ => blankValue) fuel mb S idx = some (rc, S', mb') →
        S' = S ∧ mb'.count = mb.count + 1) ∧
      ∃ N, ∀ fuel, N ≤ fuel →
        ∃ mb, writeValues loopLibrary (fun _ _ => blankValue) fuel 1
            (luaGettop (loopState [.table 0]) - (1 : ℕ) + 1) (msgBuilderInit fun _ => blankValue)
            (loopState [.table 0]) = some (loopState [.table 0], mb) ∧
          mb.count = BitVec.ofNat 32 1 ∧
          ∀ slack,
            luaNewmessage loopLibrary (fun _ _ => blankValue) (fun _ => blankValue) slack fuel
                (loopState [.table 0]) 1 =
              (msgNew slack mb).map (fun m => (m, luaPop (loopState [.table 0]) 1)) ∧
            ∀ m, msgNew slack mb = some m → m.count = BitVec.ofNat 32 1 := by
  refine counts_arguments _ _ _ (loopState [.table 0]) [.table 0] [] rfl isGraph_loopHeap ?_ ?_
  · intro v hv
    rcases contains_loopHeap hv with rfl | rfl <;> rfl
  · intro a ha
    rcases contains_loopHeap ha with heq | heq <;> cases heq

end Arguments

end Casting
