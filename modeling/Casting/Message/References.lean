import Casting.Message.Origins

/-!
# References in a built message

The types and the references in a builder, flags included, along the encoding of a graph of
tables, however long its strings are and however often the builder grew.
-/

namespace Casting

open Relation

/-! ## The types of the values in a builder -/

/-- The values have the types of the items, and say what these refer to. -/
structure Types (mb : Builder) (items : List Item) : Prop where
  type : ∀ (i : ℕ) it, items[i]? = some it → (mb.values i).type = it.type
  ref : ∀ (i : ℕ) it r, items[i]? = some it → it.content = .reference r → (mb.values i).ref = r

section Types

variable {mb mb' : Builder} {items : List Item}

theorem Types.push (h : Types mb items) (hlast : mb.last = items.length) {f : Value → Value}
    {it : Item} (htype : ∀ v, (f v).type = it.type)
    (href : ∀ v r, it.content = .reference r → (f v).ref = r) (size : Word) (block : Block) :
    Types (Casting.push f size (some block) mb).2 (items ++ [it]) := by
  obtain ⟨hold, v, hnew⟩ := push_values f size block mb
  have hcases : ∀ (i : ℕ) x, (items ++ [it])[i]? = some x →
      items[i]? = some x ∧ (Casting.push f size (some block) mb).2.values i = mb.values i ∨
        x = it ∧ (Casting.push f size (some block) mb).2.values i = f v := by
    intro i x hx
    by_cases hi : i < items.length
    · rw [List.getElem?_append_left hi] at hx
      exact .inl ⟨hx, hold i (hlast ▸ hi)⟩
    · have hlt := (List.getElem?_eq_some_iff.mp hx).1
      rw [List.length_append, List.length_singleton] at hlt
      obtain rfl : i = items.length := by omega
      rw [List.getElem?_concat_length, Option.some.injEq] at hx
      exact .inr ⟨hx.symm, by rw [← hlast, hnew]⟩
  constructor
  · intro i x hx
    rcases hcases i x hx with ⟨hx, hvalue⟩ | ⟨rfl, hvalue⟩
    · rw [hvalue, h.type i x hx]
    · rw [hvalue, htype]
  · intro i x r hx hr
    rcases hcases i x hx with ⟨hx, hvalue⟩ | ⟨rfl, hvalue⟩
    · rw [hvalue, h.ref i x r hx hr]
    · rw [hvalue, href v r hr]

theorem Types.write (h : Types mb items) {j : ℕ} {f : Value → Value} {g : Item → Item}
    (htype : ∀ v it, items[j]? = some it → v.type = it.type → (f v).type = (g it).type)
    (href : ∀ v it r, items[j]? = some it → (g it).content = .reference r →
      it.content = .reference r ∧ (f v).ref = v.ref)
    (hvalues : mb'.values = (mb.write j f).values) : Types mb' (items.modify j g) := by
  have hcases : ∀ (i : ℕ) x, (items.modify j g)[i]? = some x →
      items[i]? = some x ∧ mb'.values i = mb.values i ∨
        ∃ it, items[j]? = some it ∧ i = j ∧ x = g it ∧ mb'.values i = f (mb.values j) := by
    intro i x hx
    rw [List.getElem?_modify] at hx
    rw [hvalues]
    by_cases hij : j = i
    · subst hij
      simp only [if_true, Option.map_eq_map, Option.map_eq_some_iff] at hx
      obtain ⟨it, hit, rfl⟩ := hx
      exact .inr ⟨it, hit, rfl, rfl, Function.update_self ..⟩
    · simp only [hij, if_false, Option.map_eq_map, Option.map_id'] at hx
      have hne : (i : ℤ) ≠ j := by omega
      exact .inl ⟨hx, Function.update_of_ne hne ..⟩
  constructor
  · intro i x hx
    rcases hcases i x hx with ⟨hx, hvalue⟩ | ⟨it, hit, rfl, rfl, hvalue⟩
    · rw [hvalue, h.type i x hx]
    · rw [hvalue, htype _ it hit (h.type i it hit)]
  · intro i x r hx hr
    rcases hcases i x hx with ⟨hx, hvalue⟩ | ⟨it, hit, rfl, rfl, hvalue⟩
    · rw [hvalue, h.ref i x r hx hr]
    · obtain ⟨hr, hsame⟩ := href (mb.values i) it r hit hr
      rw [hvalue, hsame, h.ref i it r hit hr]

theorem Item.type_or_referenced (it : Item) :
    it.type ||| tReferenced = { it with referenced := true : Item }.type := by
  simp only [Item.type, if_true]
  cases it.referenced <;> simp only [Bool.false_eq_true, if_false, if_true] <;>
    ac_rfl

theorem Item.type_or_meta (it : Item) :
    it.type ||| tMeta = { it with isMeta := true : Item }.type := by
  simp only [Item.type, if_true]
  cases it.isMeta <;> simp only [Bool.false_eq_true, if_false, if_true] <;>
    ac_rfl

theorem type_itemOf (c : Content) : (itemOf c).type = c.valueType.code := by
  simp [Item.type, itemOf]

end Types

/-! ## What has been written -/

/-- A builder to which `cs` has been written, with the tables in `seen` recorded. -/
def Held (mb : Builder) (cs : List Content) (seen : Visited) : Prop :=
  ∃ metas, Along mb cs seen metas ∧ Types mb (marked cs metas)

section Held

variable {mb : Builder} {cs : List Content} {seen : Visited}

theorem held_msgBuilderInit (buf : Block) : Held (msgBuilderInit buf) [] fun _ => none :=
  ⟨0, along_msgBuilderInit buf, by simp [marked], by simp [marked]⟩

theorem Along.types_push {metas : ℕ} {c : Content} (h : Along mb cs seen metas)
    (htypes : Types mb (marked cs metas)) (hc : c.isReference = false)
    (hsmall : cs.length < 2 ^ 31) {f : Value → Value} (hf : ∀ v, (f v).type = c.valueType.code)
    (size : Word) (block : Block) :
    Types (Casting.push f size (some block) mb).2 (marked (cs ++ [c]) metas) := by
  rw [marked_append hc h.backward hsmall h.first]
  apply htypes.push
  · rw [h.last, length_marked]
  · intro v
    rw [hf, type_itemOf]
  · intro v r hr
    have hcontent : c = .reference r := hr
    rw [hcontent] at hc
    cases hc

theorem writeValue_pushes (lib : LuaLibrary) (mem : ℕ → Block) {L : LuaState} {idx : ℤ}
    {v : LuaValue} {c : Content} (hv : L.value idx = some v) (hc : v.scalar = some c)
    (fuel : ℕ) (mb : Builder) :
    ∃ f size, writeValue lib mem (fuel + 1) mb L idx =
        some (ReturnCode.success.toInt, L, (Casting.push f size (some (mem mb.last)) mb).2) ∧
      ∀ v, (f v).type = c.valueType.code := by
  cases v with
  | boolean b =>
    cases hc
    exact ⟨_, _, by simp only [writeValue, hv]; rfl, fun v => by cases b <;> rfl⟩
  | nil | number n | string s =>
    cases hc
    exact ⟨_, _, by simp only [writeValue, hv]; rfl, fun v => rfl⟩
  | _ => cases hc

theorem scalar_not_reference {v : LuaValue} {c : Content} (hc : v.scalar = some c) :
    c.isReference = false := by
  cases v <;> cases hc <;> rfl

theorem Held.scalar (h : Held mb cs seen) (lib : LuaLibrary) (mem : ℕ → Block) {L : LuaState}
    {idx : ℤ} {v : LuaValue} {c : Content} (hv : L.value idx = some v) (hc : v.scalar = some c)
    (hsmall : cs.length < 2 ^ 31) (fuel : ℕ) :
    ∃ mb', writeValue lib mem (fuel + 1) mb L idx = some (ReturnCode.success.toInt, L, mb') ∧
      Held mb' (cs ++ [c]) seen := by
  obtain ⟨metas, halong, htypes⟩ := h
  obtain ⟨f, size, hpush, hf⟩ := writeValue_pushes lib mem hv hc fuel mb
  obtain ⟨mb', hwrite, houtcome⟩ := writeValue_scalar halong lib mem hv hc fuel
  rw [hpush] at hwrite
  cases hwrite
  exact ⟨_, hpush, metas, houtcome.along,
    halong.types_push htypes (scalar_not_reference hc) hsmall hf size _⟩

theorem Held.met (h : Held mb cs seen) (mem : ℕ → Block) {a : Address} {j : ℕ}
    (ha : seen a = some j) (hsmall : cs.length < 2 ^ 31) :
    ∃ mb', refCheck mem mb a = some (true, mb') ∧
      Held mb' (cs ++ [.reference (BitVec.ofNat 32 j)]) seen := by
  obtain ⟨metas, halong, htypes⟩ := h
  obtain ⟨mb', hcheck, halong', -⟩ := refCheck_met halong mem ha
  refine ⟨mb', hcheck, metas, halong', ?_⟩
  obtain ⟨slots, array, hj⟩ := halong.tables a j ha
  have hlt := (List.getElem?_eq_some_iff.mp hj).1
  have hint : (BitVec.ofNat 32 j).toInt = j := toInt_ofNat_small (by omega)
  have hfind := halong.records.find ⟨a, BitVec.ofNat 32 mb.last⟩
  simp only [ha, Option.map_some] at hfind
  simp only [refCheck, hfind, Option.some.injEq, Prod.mk.injEq, true_and] at hcheck
  subst hcheck
  rw [marked_append_reference hlt halong.backward hsmall]
  have hflagged : Types
      ({ mb with
          refmap := some (mb.refmap.getD (mapNew cmpRef (some dupRef))), refs := mb.refs + 1
          : Builder }.write (BitVec.ofNat 32 j).toInt
        fun v => { v with type := v.type ||| tReferenced })
      ((marked cs metas).modify j fun it => { it with referenced := true }) := by
    rw [hint]
    apply htypes.write (f := fun v => { v with type := v.type ||| tReferenced })
    · intro v it _ htype
      rw [htype]
      exact it.type_or_referenced
    · exact fun v it r _ hr => ⟨hr, rfl⟩
    · rfl
  have hlength : mb.last = ((marked cs metas).modify j
      fun it => { it with referenced := true }).length := by
    rw [List.length_modify, length_marked]
    exact halong.last
  have htype := type_itemOf (.reference (BitVec.ofNat 32 j))
  have hpush := hflagged.push hlength
    (f := fun v => { v with type := ValueType.tReference.code, low := BitVec.ofNat 32 j })
    (fun _ => htype.symm) (fun _ r hr => Content.reference.inj hr) 4 (mem mb.last)
  exact ⟨hpush.type, hpush.ref⟩

theorem Held.createtable (h : Held mb cs seen) (mem : ℕ → Block) {a : Address}
    (ha : seen a = none) (hsmall : cs.length < 2 ^ 31) :
    ∃ mb₁ mb₂, refCheck mem mb a = some (false, mb₁) ∧
      lcCreatetable (some (mem mb₁.last)) mb₁ = ((cs.length : ℤ), mb₂) ∧
      Held mb₂ (cs ++ [.table 0 0]) (Function.update seen a (some cs.length)) := by
  obtain ⟨metas, halong, htypes⟩ := h
  obtain ⟨map, hcheck, hrecords⟩ := refCheck_unmet halong.remembers mem ha
  obtain ⟨mb₂, hcreate, halong', -⟩ := halong.createtable hrecords (mem mb.last)
  refine ⟨_, mb₂, hcheck, hcreate, metas, halong', ?_⟩
  obtain rfl : (lcCreatetable (some (mem mb.last)) { mb with refmap := some map }).2 = mb₂ :=
    congrArg Prod.snd hcreate
  have hmapped : Types { mb with refmap := some map } (marked cs metas) :=
    ⟨htypes.type, htypes.ref⟩
  rw [marked_append rfl halong.backward hsmall halong.first]
  apply hmapped.push
  · rw [length_marked]
    exact halong.last
  · exact fun _ => (type_itemOf (.table 0 0)).symm
  · intro v r hr
    cases hr

theorem Held.settable {cs' : List Content} (h : Held mb (cs ++ .table 0 0 :: cs') seen)
    (slots array : Word) :
    Held (lcSettable mb cs.length (slots.signExtend 64) (array.signExtend 64))
      (cs ++ .table slots array :: cs') seen := by
  obtain ⟨metas, halong, htypes⟩ := h
  refine ⟨metas, ?_, ?_⟩
  · refine halong.complete rfl rfl rfl rfl rfl rfl rfl ?_
    exact fun items it hitems hit hcontent => hitems.settable hit hcontent slots array
  · have hold : (cs ++ .table 0 0 :: cs')[cs.length]? = some (.table 0 0) := by
      rw [List.getElem?_append_right le_rfl, Nat.sub_self]
      rfl
    have hset : (cs ++ .table 0 0 :: cs').set cs.length (.table slots array) =
        cs ++ .table slots array :: cs' := by
      rw [List.set_append_right _ _ le_rfl, Nat.sub_self]
      rfl
    rw [← hset, marked_set rfl (by rw [hold]; rintro old ⟨⟩; rfl)]
    apply htypes.write (f := fun v => { v with
      high := (slots.signExtend 64).setWidth 32, low := (array.signExtend 64).setWidth 32 })
    · intro v it hit htype
      rw [getElem?_marked, hold, Option.map_some, Option.some.injEq] at hit
      rw [← hit] at htype ⊢
      exact htype
    · intro v it r _ hr
      cases hr
    · rfl

theorem Held.setmeta (h : Held mb cs seen) (hcs : cs ≠ []) :
    Held (lcSetmeta mb ReturnCode.success.toInt) cs seen := by
  obtain ⟨metas, halong, htypes⟩ := h
  refine ⟨metas + 1, halong.setmeta hcs, ?_⟩
  rw [marked_succ]
  apply htypes.write (f := fun v => { v with type := v.type ||| tMeta })
  · intro v it _ htype
    rw [htype]
    exact it.type_or_meta
  · exact fun v it r _ hr => ⟨hr, rfl⟩
  · rfl

end Held

/-! ## Loops -/

/-- With this fuel a writer writes what is pushed for data, and leaves the Lua state as it was. -/
def WritesData (lib : LuaLibrary) (h : LuaHeap) (write : ValueWriter) (fuel : ℕ) : Prop :=
  ∀ (mb : Builder) (L : LuaState) (idx : ℤ) (v : LuaValue) (cs : List Content)
    (seen seen' : Visited) (ps : List Origin), L.heap = h → L.value idx = some v →
    Pushes h lib.objlen seen cs.length v ps seen' → ps.length < fuel →
    cs.length + ps.length < 2 ^ 31 → Held mb cs seen →
    ∃ mb', write mb L idx = some (ReturnCode.success.toInt, L, mb') ∧
      Held mb' (cs ++ ps.map Prod.snd) seen'

section Loops

variable {lib : LuaLibrary} {h : LuaHeap} {write : ValueWriter} {fuel : ℕ} {mb : Builder}
  {cs : List Content} {seen seen' : Visited} {ps : List Origin}

theorem WritesData.entries (hwrites : WritesData lib h write fuel) {bottom : LuaState} {idx : ℤ}
    {a : Address} {t : LuaTable} (hidx : 0 < idx) (hheap : bottom.heap = h)
    (hbottom : bottom.value idx = some (.table a)) (ht : h.tables a = some t)
    {before after : List LuaEntry} (hentries : t.entries = before ++ after) {k : LuaValue}
    (hk : t.next k = some after.head?) {n : ℕ} (slots : Word)
    (hall : PushesAll h lib.objlen seen cs.length (after.flatMap fun e => [e.1, e.2]) ps seen')
    (hfuel : ps.length < fuel) (hn : after.length < n) (hsmall : cs.length + ps.length < 2 ^ 31)
    (hheld : Held mb cs seen) :
    ∃ mb', writeEntries write idx n slots mb (bottom.push k) =
        some (slots + BitVec.ofNat 32 after.length, bottom, mb') ∧
      Held mb' (cs ++ ps.map Prod.snd) seen' := by
  have htable := tableAt_push hidx hbottom (hheap ▸ ht)
  induction after generalizing before k n slots seen ps mb cs with
  | nil =>
    obtain ⟨n, rfl⟩ := Nat.exists_eq_succ_of_ne_zero (Nat.ne_of_gt hn)
    cases hall
    refine ⟨mb, ?_, by simpa using hheld⟩
    rw [writeEntries, luaNext_end (htable k) hk]
    simp
  | cons e after ih =>
    obtain ⟨n, rfl⟩ := Nat.exists_eq_succ_of_ne_zero (Nat.ne_of_gt (Nat.zero_lt_of_lt hn))
    rw [List.flatMap_cons] at hall
    cases hall with
    | @cons _ seenk _ _ _ _ psk _ hkey hrest =>
      cases hrest with
      | @cons _ seenv _ _ _ _ psv psr hvalue hrest =>
        rw [List.length_append, List.length_append] at hfuel hsmall
        obtain ⟨mbk, hkey', hheldk⟩ := hwrites mb ((bottom.push e.1).push e.2) (-2) e.1 _ _ _ _
          hheap (LuaState.value_second ⟨bottom.stack, rfl⟩) hkey (by omega) (by omega) hheld
        have hlengthk : (cs ++ psk.map Prod.snd).length = cs.length + psk.length := by simp
        rw [← hlengthk] at hvalue
        obtain ⟨mbv, hvalue', hheldv⟩ := hwrites mbk ((bottom.push e.1).push e.2) (-1) e.2 _ _ _ _
          hheap (LuaState.value_top ⟨_, rfl⟩) hvalue (by omega) (by omega) hheldk
        have hlengthv : ((cs ++ psk.map Prod.snd) ++ psv.map Prod.snd).length =
            cs.length + psk.length + psv.length := by simp [Nat.add_assoc]
        rw [← hlengthv] at hrest
        have hentries' : t.entries = (before ++ [e]) ++ after :=
          hentries.trans (List.append_cons before e after)
        obtain ⟨mb', hloop, hheld'⟩ := ih hentries' (LuaTable.next_key hentries) (slots + 1) hrest
          (by omega) (Nat.lt_of_succ_lt_succ hn) (by omega) hheldv
        have hpop : luaPop ((bottom.push e.1).push e.2) 1 = bottom.push e.1 := rfl
        refine ⟨mb', ?_, ?_⟩
        · rw [writeEntries, luaNext_entry (htable k) hk]
          simp only [Option.bind_eq_bind, Option.bind_some, if_true, hkey', hvalue', hpop, hloop,
            slots_succ, List.length_cons]
        · simpa using hheld'

theorem WritesData.metatable (hwrites : WritesData lib h write fuel) {L : LuaState} {idx : ℤ}
    {a : Address} {t : LuaTable} (hheap : L.heap = h) (hv : L.value idx = some (.table a))
    (ht : h.tables a = some t)
    (hall : PushesAll h lib.objlen seen cs.length (t.metatable.map LuaValue.table).toList ps seen')
    (hfuel : ps.length < fuel) (hsmall : cs.length + ps.length < 2 ^ 31) (hcs : cs ≠ [])
    (hheld : Held mb cs seen) :
    ∃ mb', (luaGetmetatable L idx).bind (fun p =>
        if p.1 then
          (write mb p.2 (-1)).bind fun r =>
            some (ReturnCode.success.toInt, luaPop r.2.1 1, lcSetmeta r.2.2 r.1)
        else some (ReturnCode.success.toInt, p.2, mb)) =
          some (ReturnCode.success.toInt, L, mb') ∧
      Held mb' (cs ++ ps.map Prod.snd) seen' := by
  rw [luaGetmetatable_table hv (hheap ▸ ht)]
  cases hmeta : t.metatable with
  | none =>
    rw [hmeta] at hall
    cases hall
    exact ⟨mb, rfl, by simpa using hheld⟩
  | some m =>
    rw [hmeta] at hall
    cases hall with
    | cons hvalue hrest =>
      cases hrest
      rw [List.append_nil] at hfuel hsmall ⊢
      obtain ⟨mbm, hvalue', hheldm⟩ := hwrites mb (L.push (.table m)) (-1) (.table m) _ _ _ _ hheap
        (LuaState.value_top ⟨L.stack, rfl⟩) hvalue hfuel hsmall hheld
      refine ⟨_, ?_, hheldm.setmeta (List.append_ne_nil_of_left_ne_nil hcs _)⟩
      simp only [Option.bind_some, if_true, hvalue']
      rfl

theorem WritesData.saved (hwrites : WritesData lib h write fuel) {L : LuaState} {idx : ℤ}
    (hheap : L.heap = h) {vs : List LuaValue}
    (hvs : ∀ (j : ℕ) v, vs[j]? = some v → L.value (idx + j) = some v)
    (hall : PushesAll h lib.objlen seen cs.length vs ps seen') (hfuel : ps.length < fuel)
    (hsmall : cs.length + ps.length < 2 ^ 31) (hheld : Held mb cs seen) :
    ∃ mb', writeSaved write vs.length idx mb L = some (L, mb') ∧
      Held mb' (cs ++ ps.map Prod.snd) seen' := by
  induction vs generalizing idx seen ps mb cs with
  | nil =>
    cases hall
    exact ⟨mb, rfl, by simpa using hheld⟩
  | cons v vs ih =>
    cases hall with
    | @cons _ seenv _ _ _ _ psv psr hv hrest =>
      rw [List.length_append] at hfuel hsmall
      obtain ⟨hvalue, hvs'⟩ := value_cons hvs
      obtain ⟨mbv, hvalue', hheldv⟩ :=
        hwrites mb L idx v _ _ _ _ hheap hvalue hv (by omega) (by omega) hheld
      have hlength : (cs ++ psv.map Prod.snd).length = cs.length + psv.length := by simp
      rw [← hlength] at hrest
      obtain ⟨mb', hloop, hheld'⟩ := ih hvs' hrest (by omega) (by omega) hheldv
      refine ⟨mb', ?_, by simpa using hheld'⟩
      simp only [List.length_cons, writeSaved, hvalue', Option.bind_eq_bind, Option.bind_some,
        hloop]

end Loops

theorem writeValue_writesData (lib : LuaLibrary) [lib.StackGrows] (mem : ℕ → Block) (h : LuaHeap)
    (fuel : ℕ) :
    WritesData lib h (writeValue lib mem fuel) fuel := by
  induction fuel with
  | zero => exact fun _ _ _ _ _ _ _ _ _ _ _ hfuel => (Nat.not_lt_zero _ hfuel).elim
  | succ fuel ih =>
    intro mb L idx v cs seen seen' ps hheap hv hpushes hfuel hsmall hheld
    cases hpushes with
    | scalar hc => exact hheld.scalar lib mem hv hc (by omega) fuel
    | @met _ _ j a ha =>
      obtain ⟨mb', hcheck, hheld'⟩ := hheld.met mem ha (by omega)
      refine ⟨mb', ?_, hheld'⟩
      simp only [writeValue, hv, hcheck, Option.bind_eq_bind, Option.bind_some, if_true]
    | @table _ _ _ a t ps hnew ht hall =>
      obtain ⟨ps₁, ps₂, seen₁, rfl, hentries, hmeta⟩ := hall.split
      rw [List.length_cons, List.length_append] at hfuel hsmall
      obtain ⟨mb₁, mb₂, hcheck, hcreate, hheld₂⟩ := hheld.createtable mem hnew (by omega)
      obtain ⟨hidx, habs⟩ := value_lcAbsindex hv
      have hle := hentries.length_le
      rw [LuaTable.length_elements] at hle
      have hlength : (cs ++ [Content.table 0 0]).length = cs.length + 1 := by simp
      rw [← hlength] at hentries hmeta
      obtain ⟨mb₃, hloop, hheld₃⟩ := ih.entries hidx hheap habs ht (List.nil_append _).symm
        t.next_nil 0 hentries (by omega) (by omega : t.entries.length < fuel) (by omega) hheld₂
      rw [List.append_assoc] at hheld₃
      have hheld₄ := hheld₃.settable (BitVec.ofNat 32 t.entries.length)
        (BitVec.ofNat 32 (lib.objlen a))
      have hlength₄ : (cs ++ t.header (lib.objlen a) :: ps₁.map Prod.snd).length =
          (cs ++ [Content.table 0 0]).length + ps₁.length := by simp; omega
      rw [← hlength₄] at hmeta
      obtain ⟨mb', hmetatable, hheld'⟩ := ih.metatable hheap habs ht hmeta (by omega) (by omega)
        (List.append_ne_nil_of_right_ne_nil _ (List.cons_ne_nil _ _)) hheld₄
      have hslots : (0 : Word) + BitVec.ofNat 32 t.entries.length =
          BitVec.ofNat 32 t.entries.length := BitVec.zero_add _
      refine ⟨mb', ?_, by simpa using hheld'⟩
      simp only [writeValue, hv, hcheck, hcreate, luaCheckstack_of_grows, Option.bind_eq_bind,
        Option.bind_some, Bool.false_eq_true, if_false, hloop, hslots]
      exact hmetatable

/-! ## Reading the values back -/

section Reading

theorem Value.length_payload_lt {v : Value} {c : Content} (h : v.content? = some c) :
    c.payload.length < 2 ^ 31 := by
  have hpayload : ∀ bs, v.payload = some bs → bs.length < 2 ^ 31 := by
    intro bs hbs
    unfold payload Bytes.read at hbs
    split at hbs
    · split at hbs
      · cases hbs
        rw [List.length_take]
        omega
      · cases hbs
    · cases hbs
  have hvalueType := content?_valueType h
  cases c with
  | string s =>
    rw [content?, hvalueType] at h
    obtain ⟨bs, hbs, heq⟩ := Option.map_eq_some_iff.mp h
    cases heq
    exact hpayload s hbs
  | function upvals code =>
    rw [content?_tFunction hvalueType] at h
    obtain ⟨bs, hbs, heq⟩ := Option.map_eq_some_iff.mp h
    cases heq
    exact hpayload code hbs
  | userdata upvals name =>
    rw [content?_tUserdata hvalueType] at h
    obtain ⟨bs, hbs, heq⟩ := Option.map_eq_some_iff.mp h
    cases heq
    exact hpayload name hbs
  | _ => exact Nat.zero_lt_of_lt (by decide : (0 : ℕ) < 2 ^ 31)

theorem Value.item?_of_written {v : Value} {c : Content} {bs : List Byte}
    (htype : v.valueType = some c.valueType) (hwritten : v.written = some bs) :
    ∃ it, v.item? = some it := by
  have hcontent : ∃ c', v.content? = some c' := by
    obtain ⟨body, hbody, -⟩ := Option.map_eq_some_iff.mp hwritten
    cases c with
    | string s | function upvals code | userdata upvals name =>
      simp only [htype, Content.valueType, Option.map_eq_some_iff] at hbody
      obtain ⟨bs, hbs, -⟩ := hbody
      simp only [content?, htype, Content.valueType, hbs, Option.map_some]
      exact ⟨_, rfl⟩
    | boolean b =>
      simp only [content?, htype]
      cases b <;> exact ⟨_, rfl⟩
    | _ =>
      simp only [content?, htype]
      exact ⟨_, rfl⟩
  obtain ⟨c', hc'⟩ := hcontent
  exact ⟨_, by rw [item?, hc']; rfl⟩

theorem exists_items {values : Block} {cs : List Content} {n : ℕ} {data : List Byte}
    (htypes : ∀ (i : ℕ) c, cs[i]? = some c → (values i).valueType = some c.valueType)
    (hn : n ≤ cs.length) (h : writtenBefore values n = some data) :
    ∃ items : List Item, items.length = n ∧ (∀ i < n, (values i).item? = items[i]?) ∧
      data = layout items := by
  induction n generalizing data with
  | zero =>
    cases h
    exact ⟨[], rfl, fun i hi => absurd hi (Nat.not_lt_zero i), rfl⟩
  | succ n ih =>
    obtain ⟨before, hbefore, h⟩ := Option.bind_eq_some_iff.mp h
    obtain ⟨bs, hbs, rfl⟩ := Option.map_eq_some_iff.mp h
    obtain ⟨items, rfl, hitems, rfl⟩ := ih (Nat.le_of_succ_le hn) hbefore
    obtain ⟨it, hit⟩ := Value.item?_of_written (htypes _ _ (List.getElem?_eq_getElem hn)) hbs
    have hbytes := Value.written_of_item? hit
    rw [hbs, Option.some.injEq] at hbytes
    refine ⟨items ++ [it], by simp, ?_, by rw [layout_append, layout_singleton, hbytes]⟩
    intro i hi
    rcases Nat.lt_succ_iff_lt_or_eq.mp hi with hlt | rfl
    · rw [hitems i hlt, List.getElem?_append_left hlt]
    · rw [hit, List.getElem?_concat_length]

variable {m : Message}

theorem writtenBefore_of_msgNew {slack : ℕ} {mb : Builder} (h : msgNew slack mb = some m) :
    writtenBefore mb.values mb.last = some m.data := by
  obtain ⟨data, hdata, h⟩ := Option.bind_eq_some_iff.mp h
  split at h
  · cases h
    exact hdata
  · cases h

theorem msgNexts_end {c : Cursor} (hend : m.size.toInt ≤ sizeofMessage + c.pos) {vs : List Value}
    {results : List (ℤ × Value)} (hread : msgNexts m c vs = some results) :
    ∀ r ∈ results, r.1 = -1 := by
  induction vs generalizing results with
  | nil =>
    cases hread
    simp
  | cons v vs ih =>
    rw [msgNexts, msgNext_end hend] at hread
    simp only [Option.bind_eq_bind, Option.bind_some] at hread
    obtain ⟨rest, hrest, heq⟩ := Option.bind_eq_some_iff.mp hread
    cases heq
    intro r hr
    rcases List.mem_cons.mp hr with rfl | hr
    · rfl
    · exact ih hrest r hr

/-- What `msg_next` finds is numbered by its place among the items. -/
theorem msgNexts_numbered {items before after : List Item} (hdata : m.data = layout items)
    (hlong : ∀ it ∈ items, it.content.payload.length < 2 ^ 31) (hitems : items = before ++ after)
    {vs : List Value} {results : List (ℤ × Value)}
    (hread : msgNexts m ⟨(layout before).length, before.length⟩ vs = some results) {i : ℕ} {r : ℤ}
    {v : Value} (hi : results[i]? = some (r, v)) :
    r = -1 ∨ r = (before.length + i : ℕ) ∧
      ∃ it, items[before.length + i]? = some it ∧ v.item? = some it := by
  induction vs generalizing before after results i with
  | nil =>
    cases hread
    cases hi
  | cons w vs ih =>
    by_cases hend : m.size.toInt ≤ sizeofMessage + (layout before).length
    · exact .inl (msgNexts_end hend hread (r, v) (List.mem_of_getElem? hi))
    · cases after with
      | nil =>
        -- the size counts more than there is
        rw [List.append_nil] at hitems
        have hnone : m.memRead 4 (layout before).length = none := by
          unfold Message.memRead Bytes.readWord Bytes.read
          rw [if_neg (by omega), Int.toNat_natCast, hdata, hitems, if_neg (by omega)]
          rfl
        rw [msgNexts, msgNext, if_neg hend, hnone] at hread
        cases hread
      | cons it after =>
        have hat := at_layout hitems
        rw [← hdata] at hat
        have hmem : it ∈ items := by simp [hitems]
        obtain ⟨w', hnext, hw'⟩ :=
          msgNext_at hat (hlong it hmem) (not_le.mp hend) before.length w
        rw [msgNexts, hnext] at hread
        simp only [Option.bind_eq_bind, Option.bind_some] at hread
        obtain ⟨rest, hrest, heq⟩ := Option.bind_eq_some_iff.mp hread
        cases heq
        cases i with
        | zero =>
          cases hi
          refine .inr ⟨rfl, it, ?_, hw'⟩
          rw [hitems, List.getElem?_append_right (Nat.le_add_right _ _)]
          simp
        | succ i =>
          have hsplit : items = (before ++ [it]) ++ after :=
            hitems.trans (List.append_cons before it after)
          have hpos : (layout (before ++ [it])).length =
              (layout before).length + it.content.size := by
            rw [layout_append, List.length_append, layout_singleton, Item.length_bytes]
          have hcount : before.length + (i + 1) = (before ++ [it]).length + i := by
            rw [List.length_append, List.length_singleton]
            omega
          rw [List.getElem?_cons_succ] at hi
          rw [hcount]
          apply ih hsplit _ hi
          rw [hpos, List.length_append]
          exact hrest

end Reading

/-! ## The arguments -/

/-- A builder with the values that were pushed, whose references lead back to tables. -/
structure Linked (mb : Builder) (ps : List Origin) (seen : Visited) : Prop where
  last : mb.last = ps.length
  types : ∀ (i : ℕ) v c, ps[i]? = some (v, c) → (mb.values i).valueType = some c.valueType
  recorded : ∀ f, mapFind (mb.refmap.getD (mapNew cmpRef (some dupRef))) f =
    (seen f.key).map fun j => ⟨f.key, BitVec.ofNat 32 j⟩
  references : ∀ i < mb.last, (mb.values i).valueType = some .tReference →
    ∃ a j slots array, ps[i]? = some (.table a, .reference (BitVec.ofNat 32 j)) ∧
      (mb.values i).ref.toNat = j ∧ j < i ∧ ps[j]? = some (.table a, .table slots array) ∧
      (mb.values j).valueType = some .tTable ∧ (mb.values j).valueIsReferenced = true

section Linked

variable {mb : Builder} {cs : List Content} {ps : List Origin} {seen : Visited}

theorem Held.marked_type (h : Held mb cs seen) {i : ℕ} {c : Content} (hc : cs[i]? = some c) :
    ∃ it : Item, it.content = c ∧ (mb.values i).type = it.type ∧
      (Content.reference (BitVec.ofNat 32 i) ∈ cs → it.referenced = true) ∧
      ∀ r, c = .reference r → (mb.values i).ref = r := by
  obtain ⟨metas, -, htypes⟩ := h
  have hit := getElem?_marked cs metas i
  rw [hc, Option.map_some] at hit
  exact ⟨_, rfl, htypes.type i _ hit, fun hmem => decide_eq_true hmem,
    fun r hr => htypes.ref i _ r hit hr⟩

theorem Held.types (h : Held mb cs seen) (i : ℕ) (c : Content) (hc : cs[i]? = some c) :
    (mb.values i).valueType = some c.valueType := by
  obtain ⟨it, rfl, htype, -⟩ := h.marked_type hc
  exact Item.valueType_of_type htype

theorem Held.linked (h : Held mb (ps.map Prod.snd) seen) (hplaced : Placed ps seen)
    (hsmall : ps.length < 2 ^ 31) : Linked mb ps seen := by
  have hlast : mb.last = ps.length := by
    obtain ⟨metas, halong, -⟩ := h
    rw [halong.last, List.length_map]
  have hget : ∀ (i : ℕ) v c, ps[i]? = some (v, c) → (ps.map Prod.snd)[i]? = some c := by
    intro i v c hp
    rw [List.getElem?_map, hp]
    rfl
  have htypes : ∀ (i : ℕ) v c, ps[i]? = some (v, c) →
      (mb.values i).valueType = some c.valueType := fun i v c hp => h.types i c (hget i v c hp)
  refine ⟨hlast, htypes, ?_, ?_⟩
  · obtain ⟨metas, halong, -⟩ := h
    exact halong.records.find
  · intro i hi hreference
    rw [hlast] at hi
    obtain ⟨v, c, hp⟩ : ∃ v c, ps[i]? = some (v, c) := ⟨_, _, List.getElem?_eq_getElem hi⟩
    rw [htypes i v c hp, Option.some.injEq] at hreference
    cases c with
    | reference ref =>
      obtain ⟨a, j, rfl, rfl, hj, ha⟩ := hplaced.references i v ref hp
      obtain ⟨slots, array, hpj⟩ := (hplaced.tables a j).mp ha
      obtain ⟨-, -, -, -, href⟩ := h.marked_type (hget i _ _ hp)
      obtain ⟨it, -, htype, hflag, -⟩ := h.marked_type (hget j _ _ hpj)
      refine ⟨a, j, slots, array, hp, ?_, hj, hpj, htypes j _ _ hpj, ?_⟩
      · rw [href _ rfl, toNat_ofNat_of_lt (by omega)]
      · rw [Item.valueIsReferenced_of_type htype]
        exact hflag (List.mem_of_getElem? (hget i _ _ hp))
    | boolean b => cases b <;> cases hreference
    | _ => cases hreference

end Linked

/-- On data, as far as an `int` counts the values, `lua_newmessage` links the references in its
builder, which has one place for each table, and `msg_next` numbers the values of the message as
the builder does. -/
theorem references_linked (lib : LuaLibrary) [lib.StackGrows] (mem : ℕ → Block) (buf : Block)
    (L : LuaState) (vs rest : List LuaValue) (hstack : L.stack = vs.reverse ++ rest)
    (hgraph : L.heap.IsGraph vs) (hdata : ∀ v, L.heap.Contains vs v → v.isData = true) :
    ∃ ps seen, PushesAll L.heap lib.objlen (fun _ => none) 0 vs ps seen ∧
      (∀ a, L.heap.Contains vs (.table a) →
        ∃! j : ℕ, ∃ slots array, ps[j]? = some (.table a, .table slots array)) ∧
      (ps.length < 2 ^ 31 → ∃ N, ∀ fuel, N ≤ fuel → ∃ mb,
        writeValues lib mem fuel vs.length (luaGettop L - vs.length + 1) (msgBuilderInit buf) L =
            some (L, mb) ∧
          Linked mb ps seen ∧
          ∀ slack,
            luaNewmessage lib mem buf slack fuel L vs.length =
              (msgNew slack mb).map (fun m => (m, luaPop L vs.length)) ∧
            ∀ m, msgNew slack mb = some m → ∀ blanks results,
              msgNexts m msgCursorInit blanks = some results →
              ∀ (i : ℕ) r v, results[i]? = some (r, v) →
                r = -1 ∨ r = i ∧ i < mb.last ∧ v.item? = (mb.values i).item?) := by
  have hnofunction : ∀ a, L.heap.Contains vs (.function a) → ¬ TransGen L.heap.Captures a a :=
    fun a ha => nomatch hdata _ ha
  obtain ⟨calls, seen, metas, hwalks⟩ := hgraph.walksAll hnofunction lib.objlen
  obtain ⟨ps, rfl, hall⟩ := hwalks.pushes fun v hv w hw => hdata w ⟨v, hv, hw⟩
  have hplaced := hall.placed List.length_nil placed_nil
  rw [List.nil_append] at hplaced
  refine ⟨ps, seen, hall, ?_, ?_⟩
  · intro a ha
    obtain ⟨_, _, _, _, _, hwalk, hwithin⟩ := hwalks.contains_of_none ha
    obtain ⟨j, hj⟩ := Option.ne_none_iff_exists'.mp (hwithin a hwalk.met_table)
    refine ⟨j, (hplaced.tables a j).mp hj, fun i hi => ?_⟩
    have hi' := (hplaced.tables a i).mpr hi
    rw [hj, Option.some.injEq] at hi'
    exact hi'.symm
  · intro hsmall
    refine ⟨ps.length + 1, fun fuel hfuel => ?_⟩
    have hsmall' : ([] : List Content).length + ps.length < 2 ^ 31 := by simpa using hsmall
    obtain ⟨mb, hwrite, hheld⟩ := (writeValue_writesData lib mem L.heap fuel).saved rfl
      (fun _ _ hv => value_argument hstack hv) hall hfuel hsmall' (held_msgBuilderInit buf)
    rw [← writeValues_eq] at hwrite
    have hlinked := Held.linked hheld hplaced hsmall
    refine ⟨mb, hwrite, hlinked, fun slack => ⟨luaNewmessage_of_writeValues hwrite slack, ?_⟩⟩
    intro m hm blanks results hread i r v hi
    have hwritten := writtenBefore_of_msgNew hm
    rw [hlinked.last] at hwritten ⊢
    obtain ⟨items, hlength, hitems, hlayout⟩ := exists_items hheld.types
      (by rw [List.nil_append, List.length_map]) hwritten
    have hlong : ∀ it ∈ items, it.content.payload.length < 2 ^ 31 := by
      intro it hit
      obtain ⟨j, hj⟩ := List.mem_iff_getElem?.mp hit
      have hlt := (List.getElem?_eq_some_iff.mp hj).1
      rw [← hitems j (by omega)] at hj
      exact Value.length_payload_lt (Value.item?_eq_some_iff.mp hj).1
    have hsplit : items = [] ++ items := (List.nil_append _).symm
    rcases msgNexts_numbered hlayout hlong hsplit hread hi with hstop | ⟨hr, it, hit, hv⟩
    · exact .inl hstop
    · rw [List.length_nil, Nat.zero_add] at hr hit
      have hlt := (List.getElem?_eq_some_iff.mp hit).1
      exact .inr ⟨hr, by omega, by rw [hitems i (by omega), hv, hit]⟩

/-- A table that holds itself has one place, to which it refers. -/
theorem references_linked_loop :
    ∃ ps seen, PushesAll loopHeap loopLibrary.objlen (fun _ => none) 0 [.table 0] ps seen ∧
      (∀ a, loopHeap.Contains [.table 0] (.table a) →
        ∃! j : ℕ, ∃ slots array, ps[j]? = some (.table a, .table slots array)) ∧
      (ps.length < 2 ^ 31 → ∃ N, ∀ fuel, N ≤ fuel → ∃ mb,
        writeValues loopLibrary (fun _ _ => blankValue) fuel 1
            (luaGettop (loopState [.table 0]) - (1 : ℕ) + 1) (msgBuilderInit fun _ => blankValue)
            (loopState [.table 0]) = some (loopState [.table 0], mb) ∧
          Linked mb ps seen ∧
          ∀ slack,
            luaNewmessage loopLibrary (fun _ _ => blankValue) (fun _ => blankValue) slack fuel
                (loopState [.table 0]) 1 =
              (msgNew slack mb).map (fun m => (m, luaPop (loopState [.table 0]) 1)) ∧
            ∀ m, msgNew slack mb = some m → ∀ blanks results,
              msgNexts m msgCursorInit blanks = some results →
              ∀ (i : ℕ) r v, results[i]? = some (r, v) →
                r = -1 ∨ r = i ∧ i < mb.last ∧ v.item? = (mb.values i).item?) := by
  refine references_linked loopLibrary (fun _ _ => blankValue) (fun _ => blankValue)
    (loopState [.table 0]) [.table 0] [] rfl isGraph_loopHeap fun v hv => ?_
  rcases contains_loopHeap hv with rfl | rfl <;> rfl

end Casting
