import Casting.Framework.Forest
import Casting.Message.Carried
import Casting.Message.Walk

/-!
# Encoding follows the walk

`write_value` ends exactly where the walk does.  Its builder then holds what the walk says,
whatever its values are, and counts one value for each that was written, less those that tables
and functions claim and less one for each metatable.
-/

namespace Casting

open Forest

/-! ## The reference map -/

theorem compares_cmpRef : MapNode.Compares cmpRef RefData.key where
  lt x y := by
    unfold cmpRef
    split
    · omega
    · split <;> omega
  eq x y := by
    unfold cmpRef
    split
    · omega
    · split <;> omega

/-- A map that has the tables met so far under their addresses. -/
structure Records (map : Map RefData) (seen : Visited) : Prop where
  searchable : map.Searchable RefData.key
  dup : map.dup = some dupRef
  find : ∀ f, mapFind map f = (seen f.key).map fun j => ⟨f.key, BitVec.ofNat 32 j⟩

theorem Records.insert {map : Map RefData} {seen : Visited} (h : Records map seen)
    {a : Address} {i : ℕ} (hnew : seen a = none) :
    ∃ map' size, mapInsert true map ⟨a, BitVec.ofNat 32 i⟩ = some (map', .ok size) ∧
      Records map' (Function.update seen a (some i)) := by
  have habsent : mapFind map ⟨a, BitVec.ofNat 32 i⟩ = none := by
    rw [h.find, hnew]
    rfl
  obtain ⟨map', size, hinsert, hsearchable, hdup, hfind⟩ :=
    h.searchable.mapInsert_absent h.dup rfl habsent
  refine ⟨map', size, hinsert, hsearchable, hdup.trans h.dup, ?_⟩
  intro f
  rw [hfind, h.find]
  by_cases heq : a = f.key
  · rw [if_pos heq, ← heq, Function.update_self]
    rfl
  · rw [if_neg heq, Function.update_of_ne (Ne.symm heq)]

/-- All of a builder that decides which way `write_value` goes: how many values it has, and the
tables that have been met. -/
structure Remembers (mb : Builder) (seen : Visited) (i : ℕ) : Prop where
  last : mb.last = i
  records : Records (mb.refmap.getD (mapNew cmpRef (some dupRef))) seen

theorem refCheck_unmet {mb : Builder} {seen : Visited} {i : ℕ} (h : Remembers mb seen i)
    (mem : ℕ → Block) {a : Address} (ha : seen a = none) :
    ∃ map, refCheck mem mb a = some (false, { mb with refmap := some map }) ∧
      Records map (Function.update seen a (some i)) := by
  obtain ⟨map, size, hinsert, hrecords⟩ := h.records.insert (i := i) ha
  have hfind := h.records.find ⟨a, BitVec.ofNat 32 mb.last⟩
  simp only [ha, Option.map_none] at hfind
  rw [← h.last] at hinsert
  refine ⟨map, ?_, hrecords⟩
  simp only [refCheck, hfind, hinsert, Option.map_some]

/-! ## The builder along a walk -/

/-- What holds of the builder when `cs` has been written, the tables in it are `seen`, and
`metas` of them had a metatable; the values in it while their size does not wrap. -/
structure Along (mb : Builder) (cs : List Content) (seen : Visited) (metas : ℕ) : Prop where
  last : mb.last = cs.length
  records : Records (mb.refmap.getD (mapNew cmpRef (some dupRef))) seen
  tables : ∀ a j, seen a = some j → ∃ slots array, cs[j]? = some (.table slots array)
  backward : Backward cs
  refs : mb.refs = BitVec.ofNat 32 (2 * repeats cs)
  first : metas ≠ 0 → cs ≠ []
  represents : streamSize cs < 2 ^ 31 → Represents mb (marked cs metas)

theorem Along.remembers {mb : Builder} {cs : List Content} {seen : Visited} {metas : ℕ}
    (h : Along mb cs seen metas) : Remembers mb seen cs.length := ⟨h.last, h.records⟩

theorem along_msgBuilderInit (buf : Block) : Along (msgBuilderInit buf) [] (fun _ => none) 0 where
  last := rfl
  records := ⟨searchable_mapNew compares_cmpRef, rfl, fun _ => rfl⟩
  tables := by simp
  backward := by simp [Backward]
  refs := rfl
  first := fun h => (h rfl).elim
  represents := fun _ => represents_msgBuilderInit buf

theorem push_frame (f : Value → Value) (size : Word) (block : Block) (mb : Builder) :
    (push f size (some block) mb).1 = mb.last ∧
      (push f size (some block) mb).2.last = mb.last + 1 ∧
      (push f size (some block) mb).2.refmap = mb.refmap ∧
      (push f size (some block) mb).2.refs = mb.refs ∧
      (push f size (some block) mb).2.count = mb.count + 1 := by
  unfold push nextIndex
  split <;> exact ⟨rfl, rfl, rfl, rfl, rfl⟩

section Push

variable {mb mb' : Builder} {cs : List Content} {seen seen' : Visited} {metas : ℕ} {c : Content}

theorem Along.append (h : Along mb cs seen metas) (hc : c.isReference = false)
    (hlast : mb'.last = mb.last + 1)
    (hrecords : Records (mb'.refmap.getD (mapNew cmpRef (some dupRef))) seen')
    (htables : ∀ a j, seen' a = some j →
      seen a = some j ∨ j = cs.length ∧ ∃ slots array, c = .table slots array)
    (hrefs : mb'.refs = mb.refs)
    (hrepresents : streamSize (cs ++ [c]) < 2 ^ 31 → Represents mb (marked cs metas) →
      Represents mb' (marked cs metas ++ [itemOf c])) : Along mb' (cs ++ [c]) seen' metas where
  last := by rw [hlast, h.last, List.length_append, List.length_singleton]
  records := hrecords
  tables := by
    intro a j ha
    rcases htables a j ha with ha | ⟨rfl, slots, array, rfl⟩
    · obtain ⟨slots, array, hj⟩ := h.tables a j ha
      refine ⟨slots, array, ?_⟩
      rw [List.getElem?_append_left (List.getElem?_eq_some_iff.mp hj).1]
      exact hj
    · exact ⟨slots, array, List.getElem?_concat_length⟩
  backward := by
    intro ref href
    rcases List.mem_append.mp href with href | href
    · have := h.backward ref href
      rw [List.length_append]
      omega
    · rw [← List.mem_singleton.mp href] at hc
      cases hc
  refs := by
    rw [hrefs, h.refs, repeats_append, repeats_cons, hc]
    rfl
  first := fun _ => List.append_ne_nil_of_right_ne_nil _ (List.cons_ne_nil _ _)
  represents := by
    intro hsmall
    have hlength := length_le_streamSize (cs ++ [c])
    rw [List.length_append, List.length_singleton] at hlength
    rw [marked_append hc h.backward (by omega) h.first]
    apply hrepresents hsmall
    apply h.represents
    rw [streamSize_append] at hsmall
    omega

theorem Along.push (h : Along mb cs seen metas) (hc : c.isReference = false) {f : Value → Value}
    {size : Word} {block : Block}
    (hrepresents : streamSize (cs ++ [c]) < 2 ^ 31 → Represents mb (marked cs metas) →
      Represents (push f size (some block) mb).2 (marked cs metas ++ [itemOf c])) :
    Along (push f size (some block) mb).2 (cs ++ [c]) seen metas := by
  obtain ⟨-, hlast, hrefmap, hrefs, -⟩ := push_frame f size block mb
  apply h.append hc hlast _ (fun _ _ ha => .inl ha) hrefs hrepresents
  rw [hrefmap]
  exact h.records

theorem Along.complete {c' : Content} {cs' : List Content}
    (h : Along mb (cs ++ c :: cs') seen metas) (hc : c.isReference = false)
    (hc' : c'.isReference = false) (hsize : c'.size = c.size) (htable : c'.isTable = c.isTable)
    (hlast : mb'.last = mb.last) (hrefmap : mb'.refmap = mb.refmap) (hrefs : mb'.refs = mb.refs)
    (hrepresents : ∀ items it, Represents mb items → items[cs.length]? = some it →
      it.content = c →
      Represents mb' (items.modify cs.length fun it => { it with content := c' })) :
    Along mb' (cs ++ c' :: cs') seen metas := by
  have hold : (cs ++ c :: cs')[cs.length]? = some c := by
    rw [List.getElem?_append_right le_rfl, Nat.sub_self]
    rfl
  have hset : (cs ++ c :: cs').set cs.length c' = cs ++ c' :: cs' := by
    rw [List.set_append_right _ _ le_rfl, Nat.sub_self]
    rfl
  have hmem : ∀ ref, Content.reference ref ∈ cs ++ c' :: cs' →
      Content.reference ref ∈ cs ++ c :: cs' := by
    intro ref href
    rw [List.mem_append, List.mem_cons] at href ⊢
    rcases href with href | rfl | href
    · exact .inl href
    · cases hc'
    · exact .inr (.inr href)
  constructor
  · rw [hlast, h.last, List.length_append, List.length_append]
    rfl
  · rw [hrefmap]
    exact h.records
  · intro a j ha
    obtain ⟨s, r, hj⟩ := h.tables a j ha
    rw [← hset]
    by_cases hjc : cs.length = j
    · subst hjc
      rw [hold, Option.some.injEq] at hj
      rw [hj] at htable
      cases c' with
      | table s' r' =>
        exact ⟨s', r', List.getElem?_set_self (List.getElem?_eq_some_iff.mp hold).1⟩
      | _ => cases htable
    · exact ⟨s, r, by rw [List.getElem?_set_ne hjc]; exact hj⟩
  · intro ref href
    have := h.backward ref (hmem ref href)
    simpa using this
  · rw [hrefs, h.refs, repeats_append, repeats_append, repeats_cons, repeats_cons, hc, hc']
  · intro _
    exact List.append_ne_nil_of_right_ne_nil _ (List.cons_ne_nil _ _)
  · intro hsmall
    have hold' : ∀ old, (cs ++ c :: cs')[cs.length]? = some old → old.isReference = false := by
      intro old hj
      rw [hold] at hj
      cases hj
      exact hc
    rw [← hset, marked_set hc' hold']
    apply hrepresents
    · apply h.represents
      rw [streamSize_append, streamSize_cons] at hsmall ⊢
      omega
    · rw [getElem?_marked, hold, Option.map_some]
    · rfl

/-- A metatable, wherever it was written, marks the first value. -/
theorem Along.setmeta (h : Along mb cs seen metas) (hfirst : cs ≠ []) :
    Along (lcSetmeta mb ReturnCode.success.toInt) cs seen (metas + 1) where
  last := h.last
  records := h.records
  tables := h.tables
  backward := h.backward
  refs := h.refs
  first := fun _ => hfirst
  represents := by
    intro hsmall
    rw [marked_succ]
    exact represents_lcSetmeta (h.represents hsmall) le_rfl

end Push

/-! ## One value -/

/-- What has been written to a builder along a walk. -/
structure Outcome (mb : Builder) (cs : List Content) (metas : ℕ) (w : Walk)
    (r : LuaState × Builder) : Prop where
  state : r.1 = w.state
  along : Along r.2 (cs ++ w.contents) w.seen (metas + w.metas)
  count : r.2.count = mb.count + BitVec.ofInt 32 (roots Content.arity w.contents - w.metas)

section Outcome

variable {mb : Builder} {cs : List Content} {seen : Visited} {metas : ℕ} {w w' : Walk}
  {r r' : LuaState × Builder}

theorem Outcome.nothing (h : Along mb cs seen metas) (calls : List (Option Content))
    (hcalls : calls.reduceOption = []) (L : LuaState) :
    Outcome mb cs metas ⟨calls, seen, 0, L⟩ (L, mb) where
  state := rfl
  along := by
    rw [Walk.contents, hcalls, List.append_nil]
    exact h
  count := by
    rw [Walk.contents, hcalls]
    exact (BitVec.add_zero _).symm

theorem Outcome.append (h : Outcome mb cs metas w r)
    (h' : Outcome r.2 (cs ++ w.contents) (metas + w.metas) w' r') :
    Outcome mb cs metas (w.append w') r' where
  state := h'.state
  along := by
    rw [Walk.contents_append, ← List.append_assoc]
    have hmetas : metas + (w.append w').metas = metas + w.metas + w'.metas :=
      (Nat.add_assoc _ _ _).symm
    rw [hmetas]
    exact h'.along
  count := by
    rw [h'.count, h.count, BitVec.add_assoc, ← BitVec.ofInt_add, Walk.contents_append, roots_append]
    congr 2
    change _ = _ - ((w.metas + w'.metas : ℕ) : ℤ)
    push_cast
    ring

theorem Outcome.leaf {mb' : Builder} {c : Content} (h : Along mb' (cs ++ [c]) seen metas)
    (hc : c.arity = 0) (hcount : mb'.count = mb.count + 1) (L : LuaState) :
    Outcome mb cs metas ⟨[some c], seen, 0, L⟩ (L, mb') where
  state := rfl
  along := h
  count := by
    rw [hcount]
    change _ = mb.count + BitVec.ofInt 32 (1 - c.arity + 0 - ((0 : ℕ) : ℤ))
    rw [hc]
    rfl

end Outcome

section Push

variable {mb : Builder} {cs : List Content} {seen : Visited} {metas : ℕ}

theorem lcPushreference_frame (block : Block) (mb : Builder) (ref : Word) :
    (lcPushreference (some block) mb ref).2.last = mb.last + 1 ∧
      (lcPushreference (some block) mb ref).2.refmap = mb.refmap ∧
      (lcPushreference (some block) mb ref).2.refs = mb.refs + 1 ∧
      (lcPushreference (some block) mb ref).2.count = mb.count + 1 := (push_frame _ _ _ _).2

theorem writeValue_scalar (h : Along mb cs seen metas) (lib : LuaLibrary) (mem : ℕ → Block)
    {L : LuaState} {idx : ℤ} {v : LuaValue} {c : Content} (hv : L.value idx = some v)
    (hc : v.scalar = some c) (fuel : ℕ) :
    ∃ mb', writeValue lib mem (fuel + 1) mb L idx = some (ReturnCode.success.toInt, L, mb') ∧
      Outcome mb cs metas ⟨[some c], seen, 0, L⟩ (L, mb') := by
  have hcount := fun f size => (push_frame f size (mem mb.last) mb).2.2.2.2
  cases v with
  | nil =>
    cases hc
    refine ⟨_, by simp only [writeValue, hv]; rfl, .leaf (h.push rfl ?_) rfl (hcount _ _) L⟩
    exact fun _ hitems => represents_lcPushnil hitems _
  | boolean b =>
    cases hc
    refine ⟨_, by simp only [writeValue, hv]; rfl, .leaf (h.push rfl ?_) rfl (hcount _ _) L⟩
    intro _ hitems
    have hpush := represents_lcPushboolean hitems (if b then 1 else 0) (mem mb.last)
    have hb : decide ((if b then 1 else 0 : Word) ≠ 0) = b := by cases b <;> rfl
    rw [hb] at hpush
    exact hpush
  | number n =>
    cases hc
    refine ⟨_, by simp only [writeValue, hv]; rfl, .leaf (h.push rfl ?_) rfl (hcount _ _) L⟩
    exact fun _ hitems => represents_lcPushnumber hitems n _
  | string s =>
    cases hc
    refine ⟨_, by simp only [writeValue, hv]; rfl, .leaf (h.push rfl ?_) rfl (hcount _ _) L⟩
    intro hsmall hitems
    have hsize := hsmall
    have hlong := (Content.string s).length_payload_le_size
    change s.length + 4 ≤ _ at hlong
    rw [streamSize_append, streamSize_cons] at hsize
    have htoNat : (BitVec.ofNat 64 s.length).toNat = s.length := by
      rw [BitVec.toNat_ofNat, Nat.mod_eq_of_lt (by omega)]
    have htake : s.take (BitVec.ofNat 64 s.length).toNat = s := by
      rw [htoNat, List.take_length]
    have hlayout : (layout (marked cs metas ++ [itemOf (.string s)])).length < 2 ^ 31 := by
      rw [layout_append, List.length_append, length_layout_marked, layout_singleton,
        Item.length_bytes]
      exact hsize
    have hpush := represents_lcPushlstring hitems htoNat.le (by rw [htake]; exact hlayout)
      (mem mb.last)
    rw [htake] at hpush
    exact hpush
  | _ => cases hc

theorem at_marked {j : ℕ} {slots array : Word} (hj : cs[j]? = some (.table slots array)) :
    BuilderCall.At (marked cs metas) j Content.isTable := by
  refine ⟨Int.natCast_nonneg j, ⟨.table slots array,
    decide (Content.reference (BitVec.ofNat 32 j) ∈ cs), decide (j = 0 ∧ metas ≠ 0)⟩, ?_, rfl⟩
  rw [Int.toNat_natCast, getElem?_marked, hj]
  rfl

theorem refCheck_met (h : Along mb cs seen metas) (mem : ℕ → Block) {a : Address} {j : ℕ}
    (ha : seen a = some j) :
    ∃ mb', refCheck mem mb a = some (true, mb') ∧
      Along mb' (cs ++ [.reference (BitVec.ofNat 32 j)]) seen metas ∧
      mb'.count = mb.count + 1 := by
  obtain ⟨slots, array, hj⟩ := h.tables a j ha
  have hlt := (List.getElem?_eq_some_iff.mp hj).1
  have hfind := h.records.find ⟨a, BitVec.ofNat 32 mb.last⟩
  simp only [ha, Option.map_some] at hfind
  let mapped : Builder :=
    { mb with refmap := some (mb.refmap.getD (mapNew cmpRef (some dupRef))) }
  obtain ⟨hlast, hrefmap, hrefs, hcount⟩ :=
    lcPushreference_frame (mem mb.last) mapped (BitVec.ofNat 32 j)
  let pushed := (lcPushreference (some (mem mb.last)) mapped (BitVec.ofNat 32 j)).2
  refine ⟨{ pushed with refs := pushed.refs + 1 }, by simp only [refCheck, hfind]; rfl, ?_, hcount⟩
  constructor
  · change pushed.last = _
    rw [hlast, List.length_append]
    exact congrArg (· + 1) h.last
  · change Records (pushed.refmap.getD _) seen
    rw [hrefmap]
    exact h.records
  · intro b i hb
    obtain ⟨s, r, hi⟩ := h.tables b i hb
    refine ⟨s, r, ?_⟩
    rw [List.getElem?_append_left (List.getElem?_eq_some_iff.mp hi).1]
    exact hi
  · intro ref href
    rw [List.length_append]
    rcases List.mem_append.mp href with href | href
    · have := h.backward ref href
      omega
    · cases List.mem_singleton.mp href
      have hle := Nat.mod_le j (2 ^ 32)
      rw [BitVec.toNat_ofNat]
      omega
  · change pushed.refs + 1 = _
    rw [hrefs, repeats_append, Nat.mul_add, BitVec.ofNat_add, ← h.refs, BitVec.add_assoc]
    rfl
  · intro _
    exact List.append_ne_nil_of_right_ne_nil _ (List.cons_ne_nil _ _)
  · intro hsmall
    have hlength := length_le_streamSize (cs ++ [.reference (BitVec.ofNat 32 j)])
    rw [List.length_append, List.length_singleton] at hlength
    have hint : (BitVec.ofNat 32 j).toInt = j := toInt_ofNat_small (by omega)
    have hvalid : BuilderCall.At (marked cs metas) (BitVec.ofNat 32 j).toInt Content.isTable := by
      rw [hint]
      exact at_marked hj
    have hold := h.represents (by rw [streamSize_append] at hsmall; omega)
    have hmapped : Represents mapped (marked cs metas) := ⟨hold.last, hold.value, hold.bytes⟩
    have hpush := represents_lcPushreference hmapped hvalid (mem mb.last)
    rw [hint, Int.toNat_natCast, ← marked_append_reference hlt h.backward (by omega)] at hpush
    exact ⟨hpush.last, hpush.value, hpush.bytes⟩

theorem Along.createtable (h : Along mb cs seen metas) {a : Address} {map : Map RefData}
    (hrecords : Records map (Function.update seen a (some cs.length))) (block : Block) :
    ∃ mb', lcCreatetable (some block) { mb with refmap := some map } = ((cs.length : ℤ), mb') ∧
      Along mb' (cs ++ [.table 0 0]) (Function.update seen a (some cs.length)) metas ∧
      mb'.count = mb.count + 1 := by
  obtain ⟨hidx, hlast, hrefmap, hrefs, hcount⟩ := push_frame
    (fun v => { v with type := ValueType.tTable.code, low := 0, high := 0 }) (4 + 4 + 4) block
    { mb with refmap := some map }
  refine ⟨_, Prod.ext (hidx.trans (congrArg Nat.cast h.last)) rfl, ?_, hcount⟩
  apply h.append rfl hlast
  · rw [hrefmap]
    exact hrecords
  · intro b j hb
    by_cases hba : b = a
    · rw [hba, Function.update_self, Option.some.injEq] at hb
      exact .inr ⟨hb.symm, 0, 0, rfl⟩
    · rw [Function.update_of_ne hba] at hb
      exact .inl hb
  · exact hrefs
  · intro _ hitems
    have hmapped : Represents { mb with refmap := some map } (marked cs metas) :=
      ⟨hitems.last, hitems.value, hitems.bytes⟩
    exact represents_lcCreatetable hmapped block

theorem setWidth_signExtend (x : Word) : (x.signExtend 64).setWidth 32 = x := by
  apply BitVec.eq_of_getLsbD_eq
  intro i hi
  have hi' : i < 64 := by omega
  rw [BitVec.getLsbD_setWidth, BitVec.getLsbD_signExtend]
  simp only [hi, hi', decide_true, Bool.true_and, if_true]

private theorem ofInt_sub (x y : ℤ) :
    BitVec.ofInt 32 (x - y) = BitVec.ofInt 32 x - BitVec.ofInt 32 y := by
  rw [sub_eq_add_neg, BitVec.ofInt_add, BitVec.ofInt_neg, BitVec.sub_eq_add_neg]

private theorem count_under (x : Word) (n k : ℤ) :
    x + 1 + BitVec.ofInt 32 n - BitVec.ofInt 32 k = x + BitVec.ofInt 32 (1 - k + n) := by
  have hone : BitVec.ofInt 32 1 = 1 := rfl
  rw [show 1 - k + n = 1 + n - k by ring, ofInt_sub, BitVec.ofInt_add, hone, add_assoc,
    add_sub_assoc]

theorem Outcome.complete {mb₁ mb' : Builder} {c c' : Content} {w : Walk} {L : LuaState}
    (h : Outcome mb₁ (cs ++ [c]) metas w (L, mb')) (hcount : mb₁.count = mb.count + 1)
    (hc : c.isReference = false) (hc' : c'.isReference = false) (hsize : c'.size = c.size)
    (htable : c'.isTable = c.isTable) {mb'' : Builder} (hlast : mb''.last = mb'.last)
    (hrefmap : mb''.refmap = mb'.refmap) (hrefs : mb''.refs = mb'.refs)
    (hcount' : mb''.count = mb'.count - BitVec.ofInt 32 c'.arity)
    (hrepresents : ∀ items it, Represents mb' items → items[cs.length]? = some it →
      it.content = c →
      Represents mb'' (items.modify cs.length fun it => { it with content := c' })) :
    Outcome mb cs metas (w.under (some c')) (L, mb'') where
  state := h.state
  along := by
    have halong := h.along
    rw [List.append_assoc, List.singleton_append] at halong
    rw [Walk.contents_under]
    exact halong.complete hc hc' hsize htable hlast hrefmap hrefs hrepresents
  count := by
    rw [hcount', h.count, hcount, count_under, Walk.contents_under, roots_cons, add_sub_assoc]
    rfl

theorem Represents.settable {items : List Item} (h : Represents mb items) {n : ℕ} {it : Item}
    (hit : items[n]? = some it) (hcontent : it.content = .table 0 0) (slots array : Word) :
    Represents (lcSettable mb n (slots.signExtend 64) (array.signExtend 64))
      (items.modify n fun it => { it with content := .table slots array }) := by
  have hvalid : BuilderCall.At items n Content.isTable := by
    refine ⟨Int.natCast_nonneg _, it, ?_, ?_⟩
    · rw [Int.toNat_natCast]
      exact hit
    · rw [hcontent]
      rfl
  have hset := represents_lcSettable h hvalid (slots.signExtend 64) (array.signExtend 64)
  rw [setWidth_signExtend, setWidth_signExtend, Int.toNat_natCast] at hset
  exact hset

theorem Outcome.settable {mb₁ mb' : Builder} {w : Walk} {L : LuaState}
    (h : Outcome mb₁ (cs ++ [.table 0 0]) metas w (L, mb')) (hcount : mb₁.count = mb.count + 1)
    (slots array : Word) :
    Outcome mb cs metas (w.under (some (.table slots array)))
      (L, lcSettable mb' cs.length (slots.signExtend 64) (array.signExtend 64)) := by
  refine h.complete hcount rfl (by rfl) (by rfl) (by rfl) (by rfl) (by rfl) (by rfl) ?_ ?_
  · change mb'.count - (slots.signExtend 64 * 2).setWidth 32 = mb'.count - BitVec.ofInt 32 (2 * _)
    rw [BitVec.setWidth_mul _ _ (by decide), setWidth_signExtend, BitVec.ofInt_mul,
      BitVec.ofInt_toInt, BitVec.mul_comm]
    rfl
  · exact fun items it hitems hit hcontent => hitems.settable hit hcontent slots array

theorem modify_content {items : List Item} {j : ℕ} {it : Item} {f : Content → Content}
    (hit : items[j]? = some it) :
    (items.modify j fun it => { it with content := f it.content }) =
      items.modify j fun it' => { it' with content := f it.content } := by
  apply List.ext_getElem?
  intro i
  rw [List.getElem?_modify, List.getElem?_modify]
  by_cases hji : j = i
  · subst hji
    rw [hit]
    rfl
  · simp [hji]

theorem Outcome.setUpvals {mb₁ mb' : Builder} {c : Content} {w : Walk} {L : LuaState}
    (h : Outcome mb₁ (cs ++ [c]) metas w (L, mb')) (hcount : mb₁.count = mb.count + 1)
    (hkind : c.isFunction = true ∨ c.isUserdata = true) (upvals : Word) :
    Outcome mb cs metas (w.under (some (c.setUpvals upvals)))
      (L, Casting.setUpvals mb' cs.length upvals) := by
  have hfacts : c.isReference = false ∧ (c.setUpvals upvals).isReference = false ∧
      (c.setUpvals upvals).size = c.size ∧ (c.setUpvals upvals).isTable = c.isTable ∧
      (c.setUpvals upvals).arity = upvals.toInt := by
    cases c with
    | function => simp [Content.setUpvals, Content.isReference, Content.size, Content.bytes,
        Content.isTable, Content.arity]
    | userdata => simp [Content.setUpvals, Content.isReference, Content.size, Content.bytes,
        Content.isTable, Content.arity]
    | _ => simp [Content.isFunction, Content.isUserdata] at hkind
  obtain ⟨hc, hc', hsize, htable, harity⟩ := hfacts
  refine h.complete hcount hc hc' hsize htable rfl rfl rfl ?_ ?_
  · rw [harity, BitVec.ofInt_toInt]
    rfl
  · intro items it hitems hit hcontent
    have hset := represents_setUpvals hitems (Int.natCast_nonneg cs.length)
      (fun it' hit' => by
        rw [Int.toNat_natCast, hit, Option.some.injEq] at hit'
        rw [← hit', hcontent]
        exact hkind) upvals
    rw [Int.toNat_natCast, modify_content hit, hcontent] at hset
    exact hset

end Push

/-! ## Whole values -/

theorem rel_bind {α β γ δ : Type*} {r : α → β → Prop} {s : γ → δ → Prop} {x : Option α}
    {y : Option β} {f : α → Option γ} {g : β → Option δ} (h : Option.Rel r x y)
    (hfg : ∀ a b, r a b → Option.Rel s (f a) (g b)) : Option.Rel s (x.bind f) (y.bind g) := by
  cases h with
  | none => exact .none
  | some hab => exact hfg _ _ hab

theorem rel_imp {α β : Type*} {r s : α → β → Prop} {x : Option α} {y : Option β}
    (h : Option.Rel r x y) (hrs : ∀ a b, r a b → s a b) : Option.Rel s x y := by
  cases h with
  | none => exact .none
  | some hab => exact .some (hrs _ _ hab)

theorem rel_map {α β γ : Type*} {r : α → β → Prop} {s : γ → β → Prop} {x : Option α}
    {y : Option β} {f : α → γ} (h : Option.Rel r x y) (hf : ∀ a b, r a b → s (f a) b) :
    Option.Rel s (x.bind fun a => some (f a)) y := by
  cases h with
  | none => exact .none
  | some hab => exact .some (hf _ _ hab)

/-- A writer and a walker end for the same arguments, the writer with what the walker says.  For
data it returns `SUCCESS`. -/
def Simulates (write : ValueWriter) (walk : Walker) : Prop :=
  ∀ (mb : Builder) (L : LuaState) (idx : ℤ) (cs : List Content) (seen : Visited) (metas : ℕ),
    Along mb cs seen metas →
      Option.Rel
        (fun w r => Outcome mb cs metas w r.2 ∧
          ∀ v, L.value idx = some v → v.isData = true → r.1 = ReturnCode.success.toInt)
        (walk seen cs.length L idx) (write mb L idx)

section Loops

variable {write : ValueWriter} {walk : Walker} {cs : List Content} {seen : Visited} {metas : ℕ}

theorem writeEntries_simulates (hsim : Simulates write walk) (idx : ℤ) (fuel : ℕ) {mb : Builder}
    (h : Along mb cs seen metas) (slots : Word) (L : LuaState) :
    Option.Rel (fun sw r => sw.1 = r.1 ∧ Outcome mb cs metas sw.2 r.2)
      (walkEntries walk idx fuel slots seen cs.length L)
      (writeEntries write idx fuel slots mb L) := by
  induction fuel generalizing mb cs seen metas slots L with
  | zero => exact .none
  | succ fuel ih =>
    simp only [walkEntries, writeEntries, Option.bind_eq_bind]
    cases luaNext L idx with
    | none => exact .none
    | some next =>
      obtain ⟨more, L⟩ := next
      cases more with
      | false => exact .some ⟨rfl, .nothing h [] rfl L⟩
      | true =>
        simp only [Option.bind_some, if_true]
        apply rel_bind (hsim mb L (-2) cs seen metas h)
        rintro key ⟨_, Lk, mbk⟩ ⟨hkey, -⟩
        obtain rfl : Lk = key.state := hkey.state
        have hvalue := hsim mbk key.state (-1) _ _ _ hkey.along
        rw [List.length_append] at hvalue
        apply rel_bind hvalue
        rintro value ⟨_, Lv, mbv⟩ ⟨hvalue, -⟩
        obtain rfl : Lv = value.state := hvalue.state
        have hentry := hkey.append hvalue
        have hrest := ih hentry.along (slots + 1) (luaPop value.state 1)
        rw [List.length_append] at hrest
        exact rel_map hrest fun sw r hsw => ⟨hsw.1, hentry.append hsw.2⟩

theorem writeUpvalues_simulates (hsim : Simulates write walk) (idx : ℤ) (n k : ℕ) {mb : Builder}
    (h : Along mb cs seen metas) (L : LuaState) :
    Option.Rel (Outcome mb cs metas) (walkUpvalues walk idx n k seen cs.length L)
      (writeUpvalues write idx n k mb L) := by
  induction n generalizing mb cs seen metas k L with
  | zero => exact .some (.nothing h [] rfl L)
  | succ n ih =>
    simp only [walkUpvalues, writeUpvalues, Option.bind_eq_bind]
    obtain ⟨found, L⟩ := luaGetupvalue L idx (k + 1)
    cases found with
    | false => exact .some (.nothing h _ List.reduceOption_replicate_none L)
    | true =>
      apply rel_bind (hsim mb L (-1) cs seen metas h)
      rintro value ⟨_, Lv, mbv⟩ ⟨hvalue, -⟩
      obtain rfl : Lv = value.state := hvalue.state
      have hrest := ih (k + 1) hvalue.along (luaPop value.state 1)
      rw [List.length_append] at hrest
      exact rel_map hrest fun rest r hrest => hvalue.append hrest

theorem writeSaved_simulates (hsim : Simulates write walk) (n : ℕ) (idx : ℤ) {mb : Builder}
    (h : Along mb cs seen metas) (L : LuaState) :
    Option.Rel (Outcome mb cs metas) (walkSaved walk n idx seen cs.length L)
      (writeSaved write n idx mb L) := by
  induction n generalizing mb cs seen metas idx L with
  | zero => exact .some (.nothing h [] rfl L)
  | succ n ih =>
    simp only [walkSaved, writeSaved, Option.bind_eq_bind]
    apply rel_bind (hsim mb L idx cs seen metas h)
    rintro value ⟨_, Lv, mbv⟩ ⟨hvalue, -⟩
    obtain rfl : Lv = value.state := hvalue.state
    have hrest := ih (idx + 1) hvalue.along value.state
    rw [List.length_append] at hrest
    exact rel_map hrest fun rest r hrest => hvalue.append hrest

end Loops

/-- The loop of `lua_newmessage` is the one over what a `__save` returned. -/
theorem writeValues_eq (lib : LuaLibrary) (mem : ℕ → Block) (fuel n : ℕ) (idx : ℤ) (mb : Builder)
    (L : LuaState) :
    writeValues lib mem fuel n idx mb L = writeSaved (writeValue lib mem fuel) n idx mb L := by
  induction n generalizing idx mb L with
  | zero => rfl
  | succ n ih => simp only [writeValues, writeSaved, ih]

theorem luaGetmetatable_value {L L' : LuaState} {idx : ℤ}
    (h : luaGetmetatable L idx = some (true, L')) : ∃ a, L'.value (-1) = some (.table a) := by
  unfold luaGetmetatable at h
  simp only [Option.bind_eq_bind] at h
  obtain ⟨⟨b, t⟩, -, h⟩ := Option.bind_eq_some_iff.mp h
  cases hmeta : t.metatable with
  | none =>
    rw [hmeta] at h
    cases h
  | some m =>
    rw [hmeta] at h
    cases h
    exact ⟨m, LuaState.value_top ⟨L.stack, rfl⟩⟩

section Value

variable {mb : Builder} {cs : List Content} {seen : Visited} {metas : ℕ} {w : Walk}
  {L : LuaState} {mb' : Builder}

theorem Outcome.setmeta (h : Outcome mb cs metas w (L, mb')) (hcs : cs ≠ []) :
    Outcome mb cs metas { w with metas := w.metas + 1, state := luaPop w.state 1 }
      (luaPop L 1, lcSetmeta mb' ReturnCode.success.toInt) where
  state := congrArg (luaPop · 1) h.state
  along := h.along.setmeta (List.append_ne_nil_of_left_ne_nil hcs _)
  count := by
    change mb'.count - 1 =
      mb.count + BitVec.ofInt 32 (roots Content.arity w.contents - ((w.metas + 1 : ℕ) : ℤ))
    have hone : BitVec.ofInt 32 1 = 1 := rfl
    rw [h.count, Nat.cast_add, Nat.cast_one, ← sub_sub, ofInt_sub _ 1, hone, add_sub_assoc]

variable {lib : LuaLibrary} {mem : ℕ → Block} {fuel : ℕ}

theorem walkMetatable_simulates
    (hsim : Simulates (writeValue lib mem fuel) (walkValue lib fuel)) {idx : ℤ} {slots : Word}
    {array : Word} {entries : Walk}
    (h : Outcome mb cs metas (entries.under (some (.table slots array))) (entries.state, mb')) :
    Option.Rel
      (fun w r => Outcome mb cs metas (w.under (some (.table slots array))) r.2 ∧
        r.1 = ReturnCode.success.toInt)
      (walkMetatable (walkValue lib fuel) idx (cs.length + 1) entries)
      ((luaGetmetatable entries.state idx).bind fun p =>
        if p.1 then
          (writeValue lib mem fuel mb' p.2 (-1)).bind fun r =>
            some (ReturnCode.success.toInt, luaPop r.2.1 1, lcSetmeta r.2.2 r.1)
        else some (ReturnCode.success.toInt, p.2, mb')) := by
  simp only [walkMetatable, Option.bind_eq_bind]
  cases hmeta : luaGetmetatable entries.state idx with
  | none => exact .none
  | some p =>
    obtain ⟨hasMeta, L⟩ := p
    cases hasMeta with
    | false =>
      have hL : L = entries.state := by
        unfold luaGetmetatable at hmeta
        simp only [Option.bind_eq_bind] at hmeta
        obtain ⟨⟨b, t⟩, -, hmeta⟩ := Option.bind_eq_some_iff.mp hmeta
        split at hmeta <;> cases hmeta
        rfl
      exact .some ⟨⟨rfl, h.along, h.count⟩, rfl⟩
    | true =>
      obtain ⟨m, hm⟩ := luaGetmetatable_value hmeta
      have hvalue := hsim mb' L (-1) _ _ _ h.along
      rw [Walk.contents_under, List.length_append, List.length_cons, Nat.add_comm _ 1,
        ← Nat.add_assoc] at hvalue
      simp only [Option.bind_some, if_true]
      apply rel_bind hvalue
      intro value ⟨rc, Lv, mbv⟩ ⟨hvalue, hrc⟩
      obtain rfl : rc = ReturnCode.success.toInt := hrc _ hm rfl
      obtain rfl : Lv = value.state := hvalue.state
      refine .some ⟨h.append (hvalue.setmeta ?_), rfl⟩
      exact List.append_ne_nil_of_right_ne_nil _ (List.cons_ne_nil _ _)

theorem writeValue_table (hsim : Simulates (writeValue lib mem fuel) (walkValue lib fuel))
    (h : Along mb cs seen metas) {idx : ℤ} {a : Address} (hv : L.value idx = some (.table a)) :
    Option.Rel
      (fun w r => Outcome mb cs metas w r.2 ∧ r.1 = ReturnCode.success.toInt)
      (walkValue lib (fuel + 1) seen cs.length L idx)
      (writeValue lib mem (fuel + 1) mb L idx) := by
  simp only [walkValue, writeValue, hv]
  cases ha : seen a with
  | some j =>
    obtain ⟨mb', hcheck, halong, hcount⟩ := refCheck_met h mem ha
    simp only [hcheck, Option.bind_eq_bind, Option.bind_some, if_true]
    exact .some ⟨.leaf halong rfl hcount L, rfl⟩
  | none =>
    obtain ⟨map, hcheck, hrecords⟩ := refCheck_unmet h.remembers mem ha
    obtain ⟨mb₁, hcreate, halong, hcount⟩ := h.createtable hrecords (mem mb.last)
    simp only [hcheck, Option.bind_eq_bind, Option.bind_some, Bool.false_eq_true, if_false,
      hcreate]
    cases luaCheckstack lib (L.push .nil) 2 with
    | none => exact .none
    | some L' =>
    simp only [Option.bind_some]
    have hentries := writeEntries_simulates hsim (lcAbsindex L idx) fuel halong 0 L'
    rw [List.length_append, List.length_singleton] at hentries
    apply rel_bind hentries
    intro ⟨slots, entries⟩ ⟨slots', L', mb'⟩ ⟨hslots, hentries⟩
    obtain rfl : slots = slots' := hslots
    obtain rfl : L' = entries.state := hentries.state
    have hheader := hentries.settable hcount slots (BitVec.ofNat 32 (lib.objlen a))
    exact rel_map (walkMetatable_simulates hsim hheader) fun table r htable => htable

theorem writeValue_function (hsim : Simulates (writeValue lib mem fuel) (walkValue lib fuel))
    (h : Along mb cs seen metas) {idx : ℤ} {a : Address} (hv : L.value idx = some (.function a)) :
    Option.Rel (fun w r => Outcome mb cs metas w r.2)
      (walkValue lib (fuel + 1) seen cs.length L idx)
      (writeValue lib mem (fuel + 1) mb L idx) := by
  simp only [walkValue, writeValue, hv, Option.bind_eq_bind]
  cases L.heap.closures a with
  | none => exact .none
  | some c =>
    simp only [Option.bind_some]
    obtain ⟨hidx, -, -, -, hcount⟩ := push_frame
      (fun v => { v with
        type := ValueType.tFunction.code, low := 0, len := BitVec.ofNat 32 c.code.length
        ptr := c.code })
      (4 + 4 + 4 + BitVec.ofNat 32 c.code.length) (mem mb.last) mb
    have halong : Along (lcPushfunction (some (mem mb.last)) mb c.code).2
        (cs ++ [.function 0 c.code]) seen metas := by
      apply h.push rfl
      intro hsmall hitems
      apply represents_lcPushfunction hitems
      rw [layout_append, List.length_append, length_layout_marked, layout_singleton,
        Item.length_bytes]
      rwa [streamSize_append, streamSize_cons, streamSize_nil, Nat.add_zero] at hsmall
    have hupvalues := writeUpvalues_simulates hsim idx c.upvalues.length 0 halong L
    rw [List.length_append, List.length_singleton] at hupvalues
    apply rel_bind hupvalues
    intro upvalues ⟨L', mb'⟩ hupvalues
    obtain rfl : L' = upvalues.state := hupvalues.state
    have hheader := hupvalues.setUpvals hcount (.inl rfl) (BitVec.ofNat 32 c.upvalues.length)
    have hfunction : (lcPushfunction (some (mem mb.last)) mb c.code).1 = cs.length :=
      hidx.trans (congrArg Nat.cast h.last)
    rw [← hfunction] at hheader
    exact .some hheader

theorem writeValue_userdata (hsim : Simulates (writeValue lib mem fuel) (walkValue lib fuel))
    (h : Along mb cs seen metas) {idx : ℤ} {a : Address} (hv : L.value idx = some (.userdata a)) :
    Option.Rel (fun w r => Outcome mb cs metas w r.2)
      (walkValue lib (fuel + 1) seen cs.length L idx)
      (writeValue lib mem (fuel + 1) mb L idx) := by
  simp only [walkValue, writeValue, hv]
  cases lib.saver a with
  | none => exact .some (.nothing h [none] rfl L)
  | some save =>
    simp only [Option.bind_eq_bind]
    cases luaPushvalue (L.push save) idx with
    | none => exact .none
    | some L₁ =>
      simp only [Option.bind_some]
      cases luaCall L₁ lib 1 with
      | none => exact .none
      | some called =>
        obtain ⟨results, L₂⟩ := called
        simp only [Option.bind_some]
        generalize hL₃ : ({ L₂ with stack := results.reverse ++ L₂.stack } : LuaState) = L₃
        generalize hnamed : luaTolstring L₃ (luaGettop L₁ - 2 + 1) lib = named
        obtain ⟨name, L₄⟩ := named
        obtain ⟨hidx, -, -, -, hcount⟩ := push_frame
          (fun v => { v with
            type := ValueType.tUserdata.code, low := 0, len := BitVec.ofNat 32 name.length
            ptr := name.take (BitVec.ofNat 32 name.length).toNat })
          (4 + 4 + 4 + BitVec.ofNat 32 name.length) (mem mb.last) mb
        have halong :
            Along (lcPushuserdata (some (mem mb.last)) mb name (BitVec.ofNat 32 name.length)).2
              (cs ++ [.userdata 0 (name.take (BitVec.ofNat 32 name.length).toNat)]) seen metas := by
          apply h.push rfl
          intro hsmall hitems
          have hvalid : (BitVec.ofNat 32 name.length).toNat ≤ name.length := by
            rw [BitVec.toNat_ofNat]
            exact Nat.mod_le _ _
          apply represents_lcPushuserdata hitems hvalid
          rw [layout_append, List.length_append, length_layout_marked, layout_singleton,
            Item.length_bytes]
          rwa [streamSize_append, streamSize_cons, streamSize_nil, Nat.add_zero] at hsmall
        have hsaved := writeSaved_simulates hsim (luaGettop L₃ - (luaGettop L₁ - 2 + 1)).toNat
          (luaGettop L₁ - 2 + 2) halong L₄
        rw [List.length_append, List.length_singleton] at hsaved
        apply rel_bind hsaved
        intro saved ⟨L', mb'⟩ hsaved
        obtain rfl : L' = saved.state := hsaved.state
        have hheader := hsaved.setUpvals hcount (.inr rfl)
          (BitVec.ofInt 32 (luaGettop L₃ - (luaGettop L₁ - 2 + 1)))
        have huserdata :
            (lcPushuserdata (some (mem mb.last)) mb name (BitVec.ofNat 32 name.length)).1 =
              cs.length := hidx.trans (congrArg Nat.cast h.last)
        rw [← huserdata] at hheader
        exact .some hheader

end Value

/-- `write_value` ends for the arguments for which the walk does, and writes what it says. -/
theorem writeValue_simulates (lib : LuaLibrary) (mem : ℕ → Block) (fuel : ℕ) :
    Simulates (writeValue lib mem fuel) (walkValue lib fuel) := by
  induction fuel with
  | zero => exact fun _ _ _ _ _ _ _ => .none
  | succ fuel ih =>
    intro mb L idx cs seen metas h
    have hscalar : ∀ v c, L.value idx = some v → v.scalar = some c →
        Option.Rel (fun w r => Outcome mb cs metas w r.2 ∧ r.1 = ReturnCode.success.toInt)
          (walkValue lib (fuel + 1) seen cs.length L idx)
          (writeValue lib mem (fuel + 1) mb L idx) := by
      intro v c hv hc
      obtain ⟨mb', hwrite, houtcome⟩ := writeValue_scalar h lib mem hv hc fuel
      have hwalk : walkValue lib (fuel + 1) seen cs.length L idx = some ⟨[some c], seen, 0, L⟩ := by
        cases v <;> first | (cases hc; done) | simp only [walkValue, hv, hc]
      rw [hwrite, hwalk]
      exact .some ⟨houtcome, rfl⟩
    cases hv : L.value idx with
    | none =>
      simp only [walkValue, writeValue, hv]
      exact .some ⟨.nothing h [none] rfl L, fun v hv => by cases hv⟩
    | some v =>
      cases v with
      | table a => exact rel_imp (writeValue_table ih h hv) fun w r hr => ⟨hr.1, fun _ _ _ => hr.2⟩
      | function a =>
        refine rel_imp (writeValue_function ih h hv) fun w r hr => ⟨hr, ?_⟩
        rintro v ⟨⟩ hdata
        cases hdata
      | userdata a =>
        refine rel_imp (writeValue_userdata ih h hv) fun w r hr => ⟨hr, ?_⟩
        rintro v ⟨⟩ hdata
        cases hdata
      | lightuserdata a | thread a =>
        simp only [walkValue, writeValue, hv]
        refine .some ⟨.nothing h [none] rfl L, ?_⟩
        rintro v ⟨⟩ hdata
        cases hdata
      | _ => exact rel_imp (hscalar _ _ hv rfl) fun w r hr => ⟨hr.1, fun _ _ _ => hr.2⟩

theorem writeValues_simulates (lib : LuaLibrary) (mem : ℕ → Block) (fuel count : ℕ) (buf : Block)
    (L : LuaState) :
    Option.Rel (Outcome (msgBuilderInit buf) [] 0) (walkValues lib fuel L count)
      (writeValues lib mem fuel count (luaGettop L - count + 1) (msgBuilderInit buf) L) := by
  rw [writeValues_eq]
  exact writeSaved_simulates (writeValue_simulates lib mem fuel) count _ (along_msgBuilderInit buf)
    L

/-! ## New messages -/

/-- The message that `msg_new` makes of a walk. -/
def Walk.message (w : Walk) : Message where
  refCount := 1
  size := BitVec.ofNat 32 (sizeofMessage + (streamSize w.contents - 4 * repeats w.contents))
  count := BitVec.ofInt 32 (roots Content.arity w.contents - w.metas)
  refs := BitVec.ofNat 32 (2 * repeats w.contents)
  data := layout (marked w.contents w.metas)

theorem luaNewmessage_of_writeValues {lib : LuaLibrary} {mem : ℕ → Block} {buf : Block}
    {fuel count : ℕ} {L L' : LuaState} {mb : Builder}
    (hwrite : writeValues lib mem fuel count (luaGettop L - count + 1) (msgBuilderInit buf) L =
      some (L', mb)) (slack : ℕ) :
    luaNewmessage lib mem buf slack fuel L count =
      (msgNew slack mb).map fun m => (m, luaPop L' count) := by
  simp only [luaNewmessage, hwrite, Option.bind_eq_bind, Option.bind_some]
  cases msgNew slack mb <;> rfl

/-- `lua_newmessage` writes what its values come to, if there is room for four bytes more than it
asked for with each reference. -/
theorem luaNewmessage_of_walk {lib : LuaLibrary} {mem : ℕ → Block} {buf : Block} {slack fuel : ℕ}
    {L : LuaState} {count : ℕ} {w : Walk} (hwalk : walkValues lib fuel L count = some w)
    (hsmall : sizeofMessage + streamSize w.contents < 2 ^ 31) :
    luaNewmessage lib mem buf slack fuel L count =
      if 4 * repeats w.contents ≤ slack then some (w.message, luaPop w.state count) else none := by
  have hsim := writeValues_simulates lib mem fuel count buf L
  rw [hwalk] at hsim
  cases hwrite : writeValues lib mem fuel count (luaGettop L - count + 1) (msgBuilderInit buf) L
    with
  | none =>
    rw [hwrite] at hsim
    cases hsim
  | some r =>
    rw [hwrite] at hsim
    obtain ⟨L', mb⟩ := r
    cases hsim with
    | some houtcome =>
      have halong := houtcome.along
      rw [List.nil_append, Nat.zero_add] at halong
      have hcount : mb.count = BitVec.ofInt 32 (roots Content.arity w.contents - w.metas) :=
        houtcome.count.trans (BitVec.zero_add _)
      have hmsg : msgNew slack mb =
          if 4 * repeats w.contents ≤ slack then some w.message else none := by
        rw [(halong.represents (by omega)).msgNew (by rw [length_layout_marked]; exact hsmall)
          slack, length_layout_marked, references_marked, hcount, halong.refs]
        rfl
      obtain rfl : L' = w.state := houtcome.state
      rw [luaNewmessage_of_writeValues hwrite, hmsg]
      by_cases hfits : 4 * repeats w.contents ≤ slack
      · rw [if_pos hfits, if_pos hfits]
        rfl
      · rw [if_neg hfits, if_neg hfits]
        rfl

theorem luaNewmessage_none {lib : LuaLibrary} {mem : ℕ → Block} {buf : Block} {slack fuel : ℕ}
    {L : LuaState} {count : ℕ} (hwalk : walkValues lib fuel L count = none) :
    luaNewmessage lib mem buf slack fuel L count = none := by
  have hsim := writeValues_simulates lib mem fuel count buf L
  rw [hwalk] at hsim
  unfold luaNewmessage
  cases hwrite : writeValues lib mem fuel count (luaGettop L - count + 1) (msgBuilderInit buf) L
    with
  | none => rfl
  | some r =>
    rw [hwrite] at hsim
    cases hsim

end Casting
