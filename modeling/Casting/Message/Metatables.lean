import Casting.Message.Footprint
import Casting.Message.WellFormed

/-!
# Metatables in messages

Whichever table has a metatable, the first value of the message is marked as one.  The first table
that is decoded then leaves the stack, and no table that is decoded has a metatable.
-/

namespace Casting

open Forest

/-! ## Trees of tables -/

def LuaHeap.hasMeta (h : LuaHeap) (a : Address) : Bool :=
  ((h.tables a).bind LuaTable.metatable).isSome

section Relation

variable (h : LuaHeap) (objlen : Address → ℕ)

mutual

/-- A value with the tables in it, each as often as it occurs, and what is written for it when
none occurs twice. -/
inductive LuaHeap.Unfolds : LuaValue → List Address → List Content → Prop
  | scalar {v : LuaValue} {c : Content} : v.scalar = some c → LuaHeap.Unfolds v [] [c]
  | table {a : Address} {t : LuaTable} {as : List Address} {cs : List Content} :
      h.tables a = some t → LuaHeap.UnfoldsAll t.children as cs →
      LuaHeap.Unfolds (.table a) (a :: as) (t.header (objlen a) :: cs)

inductive LuaHeap.UnfoldsAll : List LuaValue → List Address → List Content → Prop
  | nil : LuaHeap.UnfoldsAll [] [] []
  | cons {v : LuaValue} {vs : List LuaValue} {as as' : List Address} {cs cs' : List Content} :
      LuaHeap.Unfolds v as cs → LuaHeap.UnfoldsAll vs as' cs' →
      LuaHeap.UnfoldsAll (v :: vs) (as ++ as') (cs ++ cs')

end

end Relation

section Unfold

variable {h : LuaHeap} {objlen : Address → ℕ}

theorem unfolds_induction {P : LuaValue → List Address → List Content → Prop}
    {Q : List LuaValue → List Address → List Content → Prop}
    (scalar : ∀ v c, v.scalar = some c → P v [] [c])
    (table : ∀ a t as cs, h.tables a = some t → Q t.children as cs →
      P (.table a) (a :: as) (t.header (objlen a) :: cs))
    (nil : Q [] [] [])
    (cons : ∀ v vs as as' cs cs', P v as cs → Q vs as' cs' →
      Q (v :: vs) (as ++ as') (cs ++ cs')) {vs : List LuaValue} {as : List Address}
    {cs : List Content} (hall : h.UnfoldsAll objlen vs as cs) : Q vs as cs :=
  @LuaHeap.UnfoldsAll.rec h objlen (fun v as cs _ => P v as cs) (fun vs as cs _ => Q vs as cs)
    (fun hc => scalar _ _ hc) (fun ht _ ih => table _ _ _ _ ht ih) nil
    (fun _ _ ih ih' => cons _ _ _ _ _ _ ih ih') vs as cs hall

theorem LuaHeap.hasMeta_of_some {a : Address} {t : LuaTable} (ht : h.tables a = some t) :
    h.hasMeta a = t.metatable.isSome := by
  rw [hasMeta, ht]
  rfl

theorem LuaHeap.UnfoldsAll.walks {vs : List LuaValue} {as : List Address} {cs : List Content}
    (hall : h.UnfoldsAll objlen vs as cs) : ∀ (seen : Visited) (i : ℕ), as.Nodup →
      (∀ a ∈ as, seen a = none) → ∃ seen',
        WalksAll h objlen seen i vs (cs.map some) seen' (as.countP h.hasMeta) ∧
        (∀ b, b ∉ as → seen' b = seen b) ∧
        ((∀ a ∈ as, h.hasMeta a = false) → EncodesAll h objlen seen i vs cs seen') := by
  apply unfolds_induction
    (P := fun v as cs => ∀ (seen : Visited) (i : ℕ), as.Nodup → (∀ a ∈ as, seen a = none) →
      ∃ seen', Walks h objlen seen i v (cs.map some) seen' (as.countP h.hasMeta) ∧
        (∀ b, b ∉ as → seen' b = seen b) ∧
        ((∀ a ∈ as, h.hasMeta a = false) → Encodes h objlen seen i v cs seen')) _ _ _ _ hall
  · intro v c hc seen i _ _
    have hleaf : v.isLeaf = true := by
      cases v <;> first | (cases hc; done) | rfl
    have hwalk : Walks h objlen seen i v [v.scalar] seen 0 := .leaf hleaf
    rw [hc] at hwalk
    exact ⟨seen, hwalk, fun _ _ => rfl, fun _ => .scalar hc⟩
  · intro a t as cs ht ih seen i hnodup hunseen
    obtain ⟨hnotin, hnodup'⟩ := List.nodup_cons.mp hnodup
    have hne : ∀ b ∈ as, b ≠ a := by
      rintro b hb rfl
      exact hnotin hb
    have hnew := hunseen a List.mem_cons_self
    obtain ⟨seen', hwalk, hkept, hencodes⟩ := ih (Function.update seen a (some i)) (i + 1) hnodup'
      (fun b hb => by
        rw [Function.update_of_ne (hne b hb)]
        exact hunseen b (List.mem_cons_of_mem a hb))
    refine ⟨seen', ?_, ?_, ?_⟩
    · have htable := Walks.table hnew ht hwalk
      have hcount : (if t.metatable.isSome = true then 1 else 0) = t.metatable.isSome.toNat := by
        cases t.metatable <;> rfl
      rw [List.countP_cons, LuaHeap.hasMeta_of_some ht, hcount]
      exact htable
    · intro b hb
      rw [List.mem_cons, not_or] at hb
      rw [hkept b hb.2, Function.update_of_ne hb.1]
    · intro hnone
      have hmeta : t.metatable = none := by
        have hhead := hnone a List.mem_cons_self
        rwa [LuaHeap.hasMeta_of_some ht, Option.isSome_eq_false_iff, Option.isNone_iff_eq_none]
          at hhead
      have hall := hencodes fun b hb => hnone b (List.mem_cons_of_mem a hb)
      rw [LuaTable.children_of_none hmeta] at hall
      exact .table hnew ht hmeta hall
  · intro seen i _ _
    exact ⟨seen, .nil, fun _ _ => rfl, fun _ => .nil⟩
  · intro v vs as as' cs cs' ih ih' seen i hnodup hunseen
    obtain ⟨hnodup₁, hnodup₂, hdisjoint⟩ := List.nodup_append.mp hnodup
    obtain ⟨seen₁, hwalk, hkept, hencodes⟩ :=
      ih seen i hnodup₁ fun a ha => hunseen a (List.mem_append_left _ ha)
    obtain ⟨seen₂, hwalks, hkept', hencodes'⟩ := ih' seen₁ (i + cs.length) hnodup₂ (by
      intro a ha
      rw [hkept a fun hmem => hdisjoint a hmem a ha rfl]
      exact hunseen a (List.mem_append_right _ ha))
    refine ⟨seen₂, ?_, ?_, ?_⟩
    · rw [List.map_append, List.countP_append]
      rw [← reduceOption_some cs] at hwalks
      exact .cons hwalk hwalks
    · intro b hb
      rw [List.mem_append, not_or] at hb
      rw [hkept' b hb.2, hkept b hb.1]
    · intro hnone
      exact .cons (hencodes fun a ha => hnone a (List.mem_append_left _ ha))
        (hencodes' fun a ha => hnone a (List.mem_append_right _ ha))

def Content.isTree (c : Content) : Bool := c.isData && !c.isReference

theorem LuaHeap.UnfoldsAll.isTree {vs : List LuaValue} {as : List Address} {cs : List Content}
    (hall : h.UnfoldsAll objlen vs as cs) : ∀ c ∈ cs, c.isTree = true := by
  apply unfolds_induction
    (P := fun _ _ cs => ∀ c ∈ cs, c.isTree = true) _ _ _ _ hall
  · intro v c hc c' hmem
    rw [List.mem_singleton.mp hmem]
    cases v <;> cases hc <;> rfl
  · intro a t as cs ht ih c hmem
    rcases List.mem_cons.mp hmem with rfl | hmem
    · rfl
    · exact ih c hmem
  · exact fun c hmem => (List.not_mem_nil hmem).elim
  · intro v vs as as' cs cs' ih ih' c hmem
    rcases List.mem_append.mp hmem with hmem | hmem
    · exact ih c hmem
    · exact ih' c hmem

end Unfold

/-! ## Decoded values -/

def LuaValue.IsNew (base : Address) (v : LuaValue) : Prop := ∀ a, v = .table a → base ≤ a

/-- From some address on, tables have no metatables and nothing in them is from before. -/
structure Detached (base : Address) (L : LuaState) : Prop where
  fresh : base ≤ L.heap.fresh
  made : ∀ a t, base ≤ a → L.heap.tables a = some t →
    t.metatable = none ∧ ∀ v ∈ t.elements, v.IsNew base

structure Adds (base : Address) (L L' : LuaState) : Prop where
  metas : L'.metas = L.metas
  kept : ∀ b < base, L'.heap.tables b = L.heap.tables b
  detached : Detached base L'

section Adds

variable {base : Address} {L L' L'' : LuaState}

theorem detached_fresh (L : LuaState) : Detached L.heap.fresh L where
  fresh := le_rfl
  made := by
    intro a t ha ht
    exact (not_lt_of_ge ha (LuaHeap.lt_fresh ht)).elim

theorem Adds.trans (h : Adds base L L') (h' : Adds base L' L'') : Adds base L L'' where
  metas := h'.metas.trans h.metas
  kept := fun b hb => (h'.kept b hb).trans (h.kept b hb)
  detached := h'.detached

theorem Detached.push (h : Detached base L) (v : LuaValue) : Adds base L (L.push v) where
  metas := rfl
  kept := fun _ _ => rfl
  detached := ⟨h.fresh, h.made⟩

theorem Detached.create (h : Detached base L) : Adds base L (luaCreatetable L) where
  metas := rfl
  kept := fun b hb => Function.update_of_ne (lt_of_lt_of_le hb h.fresh).ne _ _
  detached := by
    refine ⟨h.fresh.trans (Nat.le_succ _), ?_⟩
    intro a t ha ht
    change Function.update L.heap.tables L.heap.fresh (some .empty) a = some t at ht
    by_cases heq : a = L.heap.fresh
    · rw [heq, Function.update_self] at ht
      cases ht
      exact ⟨rfl, fun v hv => (List.not_mem_nil hv).elim⟩
    · rw [Function.update_of_ne heq] at ht
      exact h.made a t ha ht

theorem Detached.rawset (h : Detached base L) {n : Address} {k v : LuaValue}
    {stack : List LuaValue} (hstack : L.stack = v :: k :: .table n :: stack) (hn : base ≤ n)
    (hk : k.IsNew base) (hv : v.IsNew base) (hset : luaRawset L (-3) = some L') :
    L'.stack = .table n :: stack ∧ Adds base L L' := by
  unfold luaRawset LuaState.tableAt at hset
  rw [LuaState.value_third ⟨stack, hstack⟩, hstack] at hset
  cases ht : L.heap.tables n with
  | none => simp [ht] at hset
  | some t =>
    simp only [ht, Option.map_some, Option.bind_eq_bind, Option.bind_some] at hset
    obtain ⟨t', ht', heq⟩ := Option.bind_eq_some_iff.mp hset
    cases heq
    obtain ⟨hmeta, helements⟩ := LuaTable.elements_rawset ht'
    obtain ⟨hnone, hinside⟩ := h.made n t hn ht
    refine ⟨rfl, rfl, fun b hb => Function.update_of_ne (lt_of_lt_of_le hb hn).ne _ _, h.fresh, ?_⟩
    intro a u ha hu
    change Function.update L.heap.tables n ((L.heap.tables n).map fun _ => t') a = some u at hu
    by_cases heq : a = n
    · rw [heq, Function.update_self, ht] at hu
      cases hu
      refine ⟨hmeta.trans hnone, fun w hw => ?_⟩
      rcases helements w hw with rfl | rfl | hw
      · exact hk
      · exact hv
      · exact hinside w hw
    · rw [Function.update_of_ne heq] at hu
      exact h.made a u ha hu

theorem Detached.setmetatable (h : Detached base L) {m : Address} {stack : List LuaValue}
    (hstack : L.stack = .table m :: stack) (hold : ∀ a, .table a ∈ stack → a < base)
    (hset : luaSetmetatable L (-2) = some L') : L'.stack = stack ∧ Detached base L' := by
  unfold luaSetmetatable at hset
  obtain ⟨v, hv, hset⟩ := Option.bind_eq_some_iff.mp hset
  simp only [hstack] at hset
  cases v with
  | table a =>
    obtain ⟨t, ht, heq⟩ := Option.bind_eq_some_iff.mp hset
    cases heq
    cases stack with
    | nil =>
      rw [LuaState.value, LuaState.depth, luaGettop, hstack] at hv
      cases hv
    | cons w stack =>
      rw [LuaState.value_second ⟨stack, hstack⟩] at hv
      cases hv
      have hlt := hold a List.mem_cons_self
      refine ⟨rfl, h.fresh, fun b u hb hu => h.made b u hb ?_⟩
      rw [← hu]
      exact (Function.update_of_ne (lt_of_lt_of_le hlt hb).ne' _ _).symm
  | _ =>
    cases hset
    exact ⟨rfl, h.fresh, h.made⟩

end Adds

/-! ## Decoding trees -/

/-- From position `i` on, no item is marked as a metatable. -/
def Unmarked (items : List Item) (i : ℕ) : Prop :=
  ∀ (j : ℕ) it, i ≤ j → items[j]? = some it → it.isMeta = false

theorem Unmarked.later {items : List Item} {i j : ℕ} (h : Unmarked items i) (hij : i ≤ j) :
    Unmarked items j := fun k it hk hit => h k it (hij.trans hk) hit

def Item.IsTree (it : Item) : Prop := it.referenced = false ∧ it.content.isTree = true

/-- A reader that makes a new value of each tree. -/
def AddsValue (items : List Item) (base : Address) (decode : ValueReader) : Prop :=
  ∀ (L L' : LuaState) (result : ℤ) (cur : Cursor) (es : List Content) (i : ℕ),
    Trees Content.arity 1 es → es <+: (items.map Item.content).drop i → Unmarked items i →
    Detached base L → decode L (cursorAt (items.map Item.content) i) = some (result, L', cur) →
    result = ReturnCode.success.toInt ∧ cur = cursorAt (items.map Item.content) (i + es.length) ∧
      ∃ v, L'.stack = v :: L.stack ∧ v.IsNew base ∧ Adds base L L'

section Decode

variable {items : List Item} {base : Address} {decode : ValueReader}

theorem AddsValue.entries (hdecode : AddsValue items base decode) {a : Address}
    {stack : List LuaValue} (ha : base ≤ a) {n : ℕ} {L L' : LuaState} {cur : Cursor}
    {es : List Content} {i : ℕ} (hstack : L.stack = .table a :: stack)
    (htrees : Trees Content.arity (2 * n) es) (hes : es <+: (items.map Item.content).drop i)
    (hunmarked : Unmarked items i) (hdetached : Detached base L)
    (h : decodeEntries decode n L (cursorAt (items.map Item.content) i) = some (L', cur)) :
    cur = cursorAt (items.map Item.content) (i + es.length) ∧ L'.stack = .table a :: stack ∧
      Adds base L L' := by
  induction n generalizing L es i with
  | zero =>
    cases htrees
    cases h
    exact ⟨rfl, hstack, rfl, fun _ _ => rfl, hdetached⟩
  | succ n ih =>
    have htwo : 2 * (n + 1) = 1 + (1 + 2 * n) := by omega
    rw [htwo] at htrees
    obtain ⟨esk, rest, rfl, hkey, htrees⟩ := htrees.split
    obtain ⟨esv, esr, rfl, hvalue, hrest⟩ := htrees.split
    obtain ⟨hesk, hes⟩ := prefix_drop_append hes
    obtain ⟨hesv, hesr⟩ := prefix_drop_append hes
    rw [decodeEntries] at h
    obtain ⟨⟨_, Lk, curk⟩, hdecodek, h⟩ := Option.bind_eq_some_iff.mp h
    obtain ⟨⟨_, Lv, curv⟩, hdecodev, h⟩ := Option.bind_eq_some_iff.mp h
    obtain ⟨L₁, hset, h⟩ := Option.bind_eq_some_iff.mp h
    obtain ⟨-, hcurk, k, hstackk, hnewk, haddk⟩ :=
      hdecode L Lk _ curk esk i hkey hesk hunmarked hdetached hdecodek
    have hunmarkedv := hunmarked.later (Nat.le_add_right i esk.length)
    simp only [hcurk] at hdecodev
    obtain ⟨-, hcurv, v, hstackv, hnewv, haddv⟩ :=
      hdecode Lk Lv _ curv esv _ hvalue hesv hunmarkedv haddk.detached hdecodev
    rw [hstackk, hstack] at hstackv
    obtain ⟨hstack₁, hadd₁⟩ := haddv.detached.rawset hstackv ha hnewk hnewv hset
    simp only [hcurv] at h
    obtain ⟨hcur, hstack', hadd'⟩ := ih hstack₁ hrest hesr
      (hunmarkedv.later (Nat.le_add_right _ esv.length)) hadd₁.detached h
    refine ⟨?_, hstack', ((haddk.trans haddv).trans hadd₁).trans hadd'⟩
    rw [hcur, List.length_append, List.length_append, Nat.add_assoc, Nat.add_assoc]

theorem AddsValue.body (hdecode : AddsValue items base decode) {lib : LuaLibrary} {top : ℤ}
    {v : Value} {c : Content} (hv : v.content? = some c) (hreferenced : v.valueIsReferenced = false)
    (hc : c.isTree = true) {inner : List Content} {k : ℕ} (harity : c.arity = k)
    (htrees : Trees Content.arity k inner) {L L' : LuaState} {i : ℕ} {cur : Cursor}
    (hinner : inner <+: (items.map Item.content).drop (i + 1)) (hunmarked : Unmarked items (i + 1))
    (hdetached : Detached base L)
    (h : decodeBody lib decode top i v L (cursorAt (items.map Item.content) (i + 1)) c.valueType =
      some (L', cur)) :
    cur = cursorAt (items.map Item.content) (i + 1 + inner.length) ∧
      ∃ w, L'.stack = w :: L.stack ∧ w.IsNew base ∧ Adds base L L' ∧
        (c.isTable = true → ∃ a, w = .table a) := by
  have hscalar : ∀ w : LuaValue, w.scalar = some c →
      cur = cursorAt (items.map Item.content) (i + 1 + inner.length) ∧
        ∃ w, L'.stack = w :: L.stack ∧ w.IsNew base ∧ Adds base L L' ∧
          (c.isTable = true → ∃ a, w = .table a) := by
    intro w hw
    have hfacts : c.arity = 0 ∧ c.isTable = false ∧ ∀ a, w ≠ .table a := by
      cases w <;> cases hw <;> exact ⟨rfl, rfl, fun _ => LuaValue.noConfusion⟩
    obtain ⟨hzero, htable, hne⟩ := hfacts
    rw [hzero] at harity
    obtain rfl : k = 0 := by exact_mod_cast harity.symm
    cases htrees
    rw [decodeBody_scalar hv hw] at h
    cases h
    refine ⟨rfl, w, rfl, fun a ha => (hne a ha).elim, hdetached.push w, fun htrue => ?_⟩
    rw [htable] at htrue
    cases htrue
  cases c with
  | nil => exact hscalar .nil rfl
  | boolean b => exact hscalar (.boolean b) rfl
  | number n => exact hscalar (.number n) rfl
  | string s => exact hscalar (.string s) rfl
  | function upvals code => cases hc
  | userdata upvals name => cases hc
  | reference ref => cases hc
  | table slots array =>
    rw [Content.valueType, decodeBody_table hv, hreferenced, if_neg Bool.false_ne_true,
      Option.bind_some] at h
    have hslots : k = 2 * slots.toNat := by
      rw [arity_table (by omega)] at harity
      exact_mod_cast harity.symm
    rw [hslots] at htrees
    obtain ⟨hcur, hstack, hadd⟩ := hdecode.entries hdetached.fresh rfl htrees hinner hunmarked
      hdetached.create.detached h
    refine ⟨hcur, _, hstack, ?_, hdetached.create.trans hadd, fun _ => ⟨_, rfl⟩⟩
    rintro a ⟨⟩
    exact hdetached.fresh

variable {m : Message} {lib : LuaLibrary} {top : ℤ}

theorem decodeValue_adds [lib.StackGrows]
    (hlays : Lays m items (streamSize (items.map Item.content)))
    (htree : ∀ it ∈ items, it.IsTree) (fuel : ℕ) :
    AddsValue items base (decodeValue lib m top fuel) := by
  induction fuel with
  | zero =>
    intro L L' result cur es i _ _ _ _ h
    cases h
  | succ fuel ih =>
    intro L L' result cur es i htrees hes hunmarked hdetached h
    cases htrees with
    | @node _ k c inner rest harity hinner hrest =>
      cases hrest
      rw [List.append_nil] at hes ⊢
      have hc := getElem?_of_drop hes
      have hlt := (List.getElem?_eq_some_iff.mp hc).1
      rw [List.getElem?_map] at hc
      obtain ⟨it, hit, rfl⟩ := Option.map_eq_some_iff.mp hc
      obtain ⟨v, hv, hreferenced, hdecode⟩ :=
        hlays.decodeValue lib top hit (streamSize_take_lt hlt) fuel L
      obtain ⟨hunreferenced, hplain⟩ := htree it (List.mem_of_getElem? hit)
      rw [hdecode, hunmarked i it le_rfl hit] at h
      obtain ⟨⟨L₁, cur₁⟩, hbody, h⟩ := Option.bind_eq_some_iff.mp h
      cases h
      rw [← List.singleton_append] at hes
      obtain ⟨rfl, w, hstack, hnew, hadd, -⟩ :=
        ih.body hv (hreferenced.trans hunreferenced) hplain harity hinner
          (prefix_drop_append hes).2 (hunmarked.later (Nat.le_succ i)) hdetached hbody
      refine ⟨rfl, ?_, w, hstack, hnew, hadd⟩
      rw [List.length_cons, Nat.add_assoc, Nat.add_comm 1]

theorem decodeLoop_adds [lib.StackGrows]
    (hlays : Lays m items (streamSize (items.map Item.content)))
    (htree : ∀ it ∈ items, it.IsTree) {fuel n k : ℕ} {L L' : LuaState} {i : ℕ}
    (htrees : Trees Content.arity k ((items.map Item.content).drop i))
    (hunmarked : Unmarked items i) (hdetached : Detached base L)
    (h : decodeLoop lib m top fuel n L (cursorAt (items.map Item.content) i) = some L') :
    ∃ ws : List LuaValue, L'.stack = ws.reverse ++ L.stack ∧ (∀ w ∈ ws, w.IsNew base) ∧
      Adds base L L' := by
  induction n generalizing L i k with
  | zero => cases h
  | succ n ih =>
    rw [decodeLoop] at h
    obtain ⟨⟨result, L₁, cur₁⟩, hvalue, h⟩ := Option.bind_eq_some_iff.mp h
    cases k with
    | zero =>
      have htake : (items.map Item.content).take i = items.map Item.content :=
        List.take_of_length_le (List.drop_eq_nil_iff.mp htrees.eq_nil)
      cases fuel with
      | zero => cases hvalue
      | succ fuel =>
        rw [hlays.decodeValue_end lib top (by rw [htake])] at hvalue
        cases hvalue
        cases h
        exact ⟨[], rfl, by simp, rfl, fun _ _ => rfl, hdetached⟩
    | succ k =>
      rw [Nat.add_comm] at htrees
      obtain ⟨es, rest, hsplit, hone, hrest⟩ := htrees.split
      obtain ⟨rfl, rfl, v, hstack₁, hnew₁, hadd₁⟩ := decodeValue_adds hlays htree fuel L L₁ result
        cur₁ es i hone ⟨rest, hsplit.symm⟩ hunmarked hdetached hvalue
      have hdrop : (items.map Item.content).drop (i + es.length) = rest := by
        rw [← List.drop_drop, hsplit, List.drop_left]
      rw [← hdrop] at hrest
      simp only [if_true] at h
      obtain ⟨ws, hstack', hnew', hadd'⟩ :=
        ih hrest (hunmarked.later (Nat.le_add_right i _)) hadd₁.detached h
      refine ⟨v :: ws, ?_, ?_, hadd₁.trans hadd'⟩
      · rw [hstack', hstack₁, List.reverse_cons, List.append_assoc]
        rfl
      · intro w hw
        rcases List.mem_cons.mp hw with rfl | hw
        · exact hnew₁
        · exact hnew' w hw

theorem decodeLoop_marked [lib.StackGrows]
    (hlays : Lays m items (streamSize (items.map Item.content)))
    (htree : ∀ it ∈ items, it.IsTree) {fuel n k : ℕ} {R R' : LuaState}
    (htrees : Trees Content.arity k (items.map Item.content)) {it : Item}
    (hit : items[0]? = some it) (htable : it.content.isTable = true) (hmeta : it.isMeta = true)
    (hunmarked : Unmarked items 1) (hholds : R.Holds)
    (h : decodeLoop lib m top fuel n R msgCursorInit = some R') :
    ∃ ws : List LuaValue, R'.stack = ws.reverse ++ R.stack ∧ (∀ w ∈ ws, w.IsNew R.heap.fresh) ∧
      Detached R.heap.fresh R' := by
  have hold : ∀ a, .table a ∈ R.stack → a < R.heap.fresh := by
    intro a ha
    obtain ⟨t, ht⟩ := hholds a ha
    exact LuaHeap.lt_fresh ht
  cases n with
  | zero => cases h
  | succ n =>
    cases fuel with
    | zero => cases h
    | succ fuel =>
      rw [decodeLoop] at h
      obtain ⟨⟨result, L₁, cur₁⟩, hvalue, h⟩ := Option.bind_eq_some_iff.mp h
      have hlt : 0 < (items.map Item.content).length := by
        rw [List.length_map]
        exact (List.getElem?_eq_some_iff.mp hit).1
      obtain ⟨v, hv, hreferenced, hdecode⟩ :=
        hlays.decodeValue lib top hit (streamSize_take_lt hlt) fuel R
      have hstart : cursorAt (items.map Item.content) 0 = msgCursorInit := rfl
      obtain ⟨hunreferenced, hplain⟩ := htree it (List.mem_of_getElem? hit)
      rw [hstart] at hdecode
      rw [hdecode, hmeta] at hvalue
      obtain ⟨⟨L₀, cur₀⟩, hbody, hvalue⟩ := Option.bind_eq_some_iff.mp hvalue
      obtain ⟨L₂, hset, heq⟩ := Option.map_eq_some_iff.mp hvalue
      cases heq
      have hcons : items.map Item.content = it.content :: (items.map Item.content).drop 1 := by
        have hget : (items.map Item.content)[0]? = some it.content := by
          rw [List.getElem?_map, hit, Option.map_some]
        obtain ⟨hlt', hget'⟩ := List.getElem?_eq_some_iff.mp hget
        rw [← hget', List.cons_getElem_drop_succ, List.drop_zero]
      rw [hcons] at htrees
      generalize hrest : (items.map Item.content).drop 1 = others at htrees
      cases htrees with
      | @node k' k _ inner rest harity hinner hforest =>
        have hadds : AddsValue items R.heap.fresh (decodeValue lib m top fuel) :=
          decodeValue_adds hlays htree fuel
        obtain ⟨hcur, w, hstack, hnew, hadd, hmade⟩ := hadds.body hv
          (hreferenced.trans hunreferenced) hplain harity hinner
          (by rw [hrest]; exact List.prefix_append inner rest) hunmarked (detached_fresh R) hbody
        obtain ⟨a, rfl⟩ := hmade htable
        obtain ⟨hstack₁, hdetached₁⟩ := hadd.detached.setmetatable hstack hold hset
        have hdrop : (items.map Item.content).drop (0 + 1 + inner.length) = rest := by
          rw [Nat.zero_add, ← List.drop_drop, hrest, List.drop_left]
        rw [← hdrop] at hforest
        simp only [if_true, hcur] at h
        obtain ⟨ws, hstack', hnew', hadd'⟩ := decodeLoop_adds hlays htree hforest
          (hunmarked.later (by omega)) hdetached₁ h
        rw [hstack₁] at hstack'
        exact ⟨ws, hstack', hnew', hadd'.detached⟩

end Decode

/-! ## Copies without metatables -/

theorem Isomorphic.hasMeta {h : LuaHeap} {objlen : Address → ℕ} {vs vs' : List LuaValue}
    {as : List Address} {cs : List Content} {R' : LuaState} {base : Address}
    (hiso : Isomorphic h vs R'.heap vs') (hdetached : Detached base R')
    (hnew : ∀ w ∈ vs', w.IsNew base) (hall : h.UnfoldsAll objlen vs as cs) :
    ∀ a ∈ as, h.hasMeta a = false := by
  obtain ⟨R, -, hsame, hcontents⟩ := hiso
  have hvs : ∀ v ∈ vs, ∃ v', LuaValue.Same R v v' ∧ v'.IsNew base := by
    intro v hv
    obtain ⟨v', hv', hv⟩ := exists_of_mem_left hsame hv
    exact ⟨v', hv, hnew v' hv'⟩
  clear hsame hnew
  revert hvs
  apply unfolds_induction
    (P := fun v as _ => (∃ v', LuaValue.Same R v v' ∧ v'.IsNew base) →
      ∀ a ∈ as, h.hasMeta a = false) _ _ _ _ hall
  · exact fun _ _ _ _ a ha => (List.not_mem_nil ha).elim
  · intro a t as cs ht ih ⟨v', hsame, hnew⟩
    cases hsame with
    | scalar hne => exact (hne a rfl).elim
    | @table _ a' ha =>
      obtain ⟨t₁, t', ht₁, ht', hmeta, es, hperm, hentries⟩ := hcontents a a' ha
      rw [ht, Option.some.injEq] at ht₁
      subst ht₁
      obtain ⟨hnone', hinside⟩ := hdetached.made a' t' (hnew a' rfl) ht'
      have hnone : t.metatable = none := by
        rw [hnone'] at hmeta
        generalize t.metatable = m at hmeta
        cases hmeta
        rfl
      have hchildren : ∀ v ∈ t.children, ∃ v', LuaValue.Same R v v' ∧ v'.IsNew base := by
        intro v hv
        rw [LuaTable.children_of_none hnone] at hv
        obtain ⟨e, he, hv⟩ := List.mem_flatMap.mp hv
        obtain ⟨e', he', hsame⟩ := exists_of_mem_left hentries he
        have hmem : ∀ w, w = e'.1 ∨ w = e'.2 → w ∈ t'.elements := by
          intro w hw
          exact List.mem_flatMap.mpr ⟨e', hperm.mem_iff.mp he', by simpa using hw⟩
        rcases List.mem_cons.mp hv with rfl | hv
        · exact ⟨e'.1, hsame.1, hinside _ (hmem _ (.inl rfl))⟩
        · rw [List.mem_singleton.mp hv]
          exact ⟨e'.2, hsame.2, hinside _ (hmem _ (.inr rfl))⟩
      intro b hb
      rcases List.mem_cons.mp hb with rfl | hb
      · rw [LuaHeap.hasMeta_of_some ht, hnone]
        rfl
      · exact ih hchildren b hb
  · exact fun _ a ha => (List.not_mem_nil ha).elim
  · intro v vs as as' cs cs' ih ih' hvs a ha
    rcases List.mem_append.mp ha with ha | ha
    · exact ih (hvs v List.mem_cons_self) a ha
    · exact ih' (fun w hw => hvs w (List.mem_cons_of_mem v hw)) a ha

/-! ## Round trips -/

/-- With enough fuel, the message made of the tables on top of one stack puts a copy of them on
another, with all their metatables, and leaves whatever was there without new ones. -/
def MetatablesSurvive (lib : LuaLibrary) (mem : ℕ → Block) (buf : Block) (slack : ℕ)
    (L R : LuaState) (vs : List LuaValue) : Prop :=
  ∃ N, ∀ fuel ≥ N, ∃ m L' R' vs',
    luaNewmessage lib mem buf slack fuel L vs.length = some (m, L') ∧
      luaDecodemessage lib m fuel R = some ((vs.length : ℤ), R') ∧
      R'.stack = vs'.reverse ++ R.stack ∧ Isomorphic L.heap vs R'.heap vs' ∧
      R'.metas = R.metas ∧ ∀ a < R.heap.fresh, R'.heap.tables a = R.heap.tables a

section RoundTrip

variable {cs : List Content} {metas : ℕ}

theorem repeats_eq_zero (htree : ∀ c ∈ cs, c.isTree = true) : repeats cs = 0 := by
  apply List.countP_eq_zero.mpr
  intro c hc
  have hplain := htree c hc
  simp only [Content.isTree, Bool.and_eq_true, Bool.not_eq_true'] at hplain
  rw [hplain.2]
  exact Bool.false_ne_true

theorem isTree_marked (htree : ∀ c ∈ cs, c.isTree = true) : ∀ it ∈ marked cs metas, it.IsTree := by
  intro it hit
  obtain ⟨j, hj⟩ := List.mem_iff_getElem?.mp hit
  rw [getElem?_marked] at hj
  obtain ⟨c, hc, rfl⟩ := Option.map_eq_some_iff.mp hj
  refine ⟨?_, htree c (List.mem_of_getElem? hc)⟩
  rw [decide_eq_false_iff_not]
  intro hmem
  cases htree _ hmem

theorem unmarked_marked {i : ℕ} (h : 0 < i ∨ metas = 0) : Unmarked (marked cs metas) i := by
  intro j it hij hj
  rw [getElem?_marked] at hj
  obtain ⟨c, -, rfl⟩ := Option.map_eq_some_iff.mp hj
  rw [decide_eq_false_iff_not]
  rintro ⟨rfl, hmetas⟩
  rcases h with hpos | hzero
  · omega
  · exact hmetas hzero

variable {lib : LuaLibrary} {mem : ℕ → Block} {buf : Block} {slack : ℕ} {L R : LuaState}
  {vs rest : List LuaValue} {as : List Address}

theorem Walk.message_trees {w : Walk} {n : ℕ} (htree : ∀ c ∈ w.contents, c.isTree = true)
    (htrees : Trees Content.arity (n + w.metas) w.contents)
    (hsmall : sizeofMessage + streamSize w.contents < 2 ^ 31) :
    w.message.count = BitVec.ofNat 32 n ∧ w.message.refs = 0 ∧
      Lays w.message (marked w.contents w.metas)
        (streamSize ((marked w.contents w.metas).map Item.content)) := by
  have hlays := w.lays_message hsmall
  rw [repeats_eq_zero htree] at hlays
  rw [map_content_marked]
  refine ⟨?_, ?_, hlays⟩
  · rw [message, htrees.roots_eq, Nat.cast_add, add_sub_cancel_right, BitVec.ofInt_natCast]
  · rw [message, repeats_eq_zero htree]
    rfl

theorem luaDecodemessage_eq_some {m : Message} {n : ℕ} (hcount : m.count = BitVec.ofNat 32 n)
    (hpos : 0 < n) (hn : n < 2 ^ 31) (hrefs : m.refs = 0) (fuel : ℕ) {k : ℤ} {R' : LuaState} :
    luaDecodemessage lib m fuel R = some (k, R') ↔
      k = n ∧ decodeLoop lib m (luaGettop R) fuel fuel R msgCursorInit = some R' := by
  have hint : m.count.toInt = n := by rw [hcount, toInt_ofNat_small hn]
  have hne : m.count ≠ 0 := by
    intro hzero
    rw [hzero] at hint
    change (0 : ℤ) = n at hint
    omega
  have hstart : decodeStart m R = R := if_neg (not_not.mpr hrefs)
  rw [luaDecodemessage_of_count hne, hstart, hint]
  simp only [hrefs, ne_eq, not_true_eq_false, if_false, Option.bind_eq_some_iff, Option.some.injEq,
    Prod.mk.injEq]
  constructor
  · rintro ⟨L', hloop, rfl, rfl⟩
    exact ⟨rfl, hloop⟩
  · rintro ⟨rfl, hloop⟩
    exact ⟨R', hloop, rfl, rfl⟩

theorem metatablesSurvive_of_none [lib.StackGrows] (hvs : vs ≠ [])
    (hstack : L.stack = vs.reverse ++ rest)
    (hall : L.heap.UnfoldsAll lib.objlen vs as cs) (hnodup : as.Nodup)
    (hsmall : sizeofMessage + streamSize cs < 2 ^ 31) (hnone : ∀ a ∈ as, L.heap.hasMeta a = false) :
    MetatablesSurvive lib mem buf slack L R vs := by
  have hlength := length_le_streamSize cs
  have htree := hall.isTree
  have hzero := repeats_eq_zero htree
  obtain ⟨seen, -, -, hencodes⟩ := hall.walks (fun _ => none) 0 hnodup fun _ _ => rfl
  have henc := hencodes hnone
  have hle := henc.length_le
  refine ⟨cs.length + 1, fun fuel hfuel => ?_⟩
  have hread : ∀ i < cs.length, streamSize (cs.take i) < streamSize cs - 4 * repeats cs := by
    rw [hzero]
    exact fun i hi => streamSize_take_lt hi
  obtain ⟨vs', R', hloop, hstack', hiso⟩ :=
    decodeLoop_messageOf lib R henc hsmall hread vs.length hfuel
  have hcontents : Walk.contents ⟨cs.map some, seen, 0, L⟩ = cs := reduceOption_some cs
  have htrees : Trees Content.arity vs.length cs := henc.trees (by omega)
  obtain ⟨hcount, hrefs, hlays⟩ :=
    Walk.message_trees (w := ⟨cs.map some, seen, 0, L⟩) (n := vs.length)
      (by rwa [hcontents]) (by rwa [hcontents]) (by rwa [hcontents])
  rw [henc.message (by omega)] at hcount hrefs hlays
  rw [hcontents] at hlays
  have hstart : decodeStart (messageOf cs vs.length) R = R := if_neg (not_not.mpr hrefs)
  rw [hstart] at hloop hstack'
  obtain ⟨ws, -, -, hadds⟩ := decodeLoop_adds (i := 0) hlays (isTree_marked htree)
    (by rw [map_content_marked]; exact htrees) (unmarked_marked (.inr rfl)) (detached_fresh R)
    hloop
  refine ⟨messageOf cs vs.length, { L with stack := rest }, R', vs', ?_, ?_, hstack', hiso,
    hadds.metas, hadds.kept⟩
  · rw [luaNewmessage_follows hstack henc hsmall hfuel, if_pos (by omega)]
  · exact (luaDecodemessage_eq_some hcount (List.length_pos_iff.mpr hvs) (by omega) hrefs fuel).mpr
      ⟨rfl, hloop⟩

theorem not_metatablesSurvive [lib.StackGrows] (hvs : vs ≠ [])
    (htables : ∀ v ∈ vs, ∃ a, v = .table a)
    (hstack : L.stack = vs.reverse ++ rest) (hall : L.heap.UnfoldsAll lib.objlen vs as cs)
    (hnodup : as.Nodup) (hsmall : sizeofMessage + streamSize cs < 2 ^ 31) (hholds : R.Holds)
    {a : Address} (ha : a ∈ as) (hmeta : L.heap.hasMeta a = true) :
    ¬ MetatablesSurvive lib mem buf slack L R vs := by
  intro ⟨N, hrun⟩
  obtain ⟨m, L', R', vs', hnew, hdecode, hstack', hiso, -, -⟩ :=
    hrun (max N (cs.length + 1)) (le_max_left _ _)
  have hlength := length_le_streamSize cs
  have htree := hall.isTree
  obtain ⟨seen, hwalks, -, -⟩ := hall.walks (fun _ => none) 0 hnodup fun _ _ => rfl
  have hmetas : as.countP L.heap.hasMeta ≠ 0 := (List.countP_pos_iff.mpr ⟨a, ha, hmeta⟩).ne'
  have htrees := hwalks.trees (by rw [List.length_map]; omega)
  rw [trees_map] at htrees
  have hle := htrees.length_le
  have hcontents : Walk.contents ⟨cs.map some, seen, as.countP L.heap.hasMeta, L⟩ = cs :=
    reduceOption_some cs
  obtain ⟨hcount, hrefs, hlays⟩ :=
    Walk.message_trees (w := ⟨cs.map some, seen, as.countP L.heap.hasMeta, L⟩) (n := vs.length)
      (by rwa [hcontents]) (by rw [hcontents]; exact htrees) (by rwa [hcontents])
  rw [luaNewmessage_of_walk (hwalks.walkValues hstack
    (by rw [List.length_map]; exact le_max_right N (cs.length + 1))) (by rwa [hcontents])] at hnew
  split at hnew
  · cases hnew
    obtain ⟨-, hloop⟩ := (luaDecodemessage_eq_some hcount (List.length_pos_iff.mpr hvs) (by omega)
      hrefs _).mp hdecode
    rw [hcontents] at hlays
    obtain ⟨v, vs, rfl⟩ := List.exists_cons_of_ne_nil hvs
    obtain ⟨b, rfl⟩ := htables v List.mem_cons_self
    have hfirst : ∃ slots array, cs[0]? = some (.table slots array) := by
      cases hall with
      | cons hv _ =>
        cases hv with
        | scalar hc => cases hc
        | table => exact ⟨_, _, rfl⟩
    obtain ⟨slots, array, hfirst⟩ := hfirst
    have hitem : (marked cs (as.countP L.heap.hasMeta))[0]? = some ⟨.table slots array,
        decide (Content.reference (BitVec.ofNat 32 0) ∈ cs),
        decide (0 = 0 ∧ as.countP L.heap.hasMeta ≠ 0)⟩ := by
      rw [getElem?_marked, hfirst, Option.map_some]
    obtain ⟨ws, hstack, hnews, hdetached⟩ := decodeLoop_marked hlays (isTree_marked htree)
      (by rw [map_content_marked]; exact htrees) hitem rfl (decide_eq_true ⟨rfl, hmetas⟩)
      (unmarked_marked (.inl Nat.one_pos)) hholds hloop
    rw [hstack', List.append_cancel_right_eq, List.reverse_inj] at hstack
    subst hstack
    rw [hiso.hasMeta hdetached hnews hall a ha] at hmeta
    cases hmeta
  · cases hnew

end RoundTrip

theorem metatablesSurvive_iff (lib : LuaLibrary) [lib.StackGrows] (mem : ℕ → Block) (buf : Block)
    (slack : ℕ) (L R : LuaState) (vs rest : List LuaValue) (as : List Address) (cs : List Content)
    (hvs : vs ≠ []) (htables : ∀ v ∈ vs, ∃ a, v = .table a) (hstack : L.stack = vs.reverse ++ rest)
    (hall : L.heap.UnfoldsAll lib.objlen vs as cs) (hnodup : as.Nodup)
    (hsmall : sizeofMessage + streamSize cs < 2 ^ 31) (hholds : R.Holds) :
    MetatablesSurvive lib mem buf slack L R vs ↔ ∀ a ∈ as, L.heap.hasMeta a = false := by
  constructor
  · intro hsurvive a ha
    by_contra hmeta
    exact not_metatablesSurvive hvs htables hstack hall hnodup hsmall hholds ha
      (Bool.not_eq_false _ ▸ hmeta) hsurvive
  · exact metatablesSurvive_of_none hvs hstack hall hnodup hsmall

theorem metatablesSurvive_nested :
    MetatablesSurvive loopLibrary (fun _ _ => blankValue) (fun _ => blankValue) 0
      (nestedState [.table 0]) (loopState [.table 0, .boolean false]) [.table 0] := by
  have hinner : nestedHeap.Unfolds loopLibrary.objlen (.table 1) [1] _ :=
    .table (t := innerTable) rfl (.cons (.scalar rfl) (.cons (.scalar rfl) .nil))
  have houter : nestedHeap.Unfolds loopLibrary.objlen (.table 0) [0, 1] _ :=
    .table (t := outerTable) rfl
      (.cons (.scalar rfl) (.cons hinner (.cons (.scalar rfl) (.cons (.scalar rfl) .nil))))
  exact (metatablesSurvive_iff _ _ _ _ (nestedState [.table 0]) _ _ [] _ _ (by decide) (by simp)
    rfl (.cons houter .nil) (by decide) (by decide) holds_loopState).mpr (by decide)

/-- An empty table, and another one with it as a metatable. -/
def metaHeap : LuaHeap where
  tables := fun a =>
    if a = 0 then some { LuaTable.empty with metatable := some 1 }
    else if a = 1 then some .empty else none
  closures := fun _ => none
  fresh := 2
  bounded := by
    intro a ha
    rw [if_neg (Nat.ne_of_gt (Nat.lt_of_lt_of_le Nat.two_pos ha)), if_neg (Nat.ne_of_gt ha)]

theorem unfolds_metaHeap :
    metaHeap.UnfoldsAll loopLibrary.objlen [.table 1] [1] [.table 0 1] := by
  have htable : metaHeap.Unfolds loopLibrary.objlen (.table 1) [1] [.table 0 1] :=
    .table (t := .empty) rfl .nil
  exact .cons htable .nil

/-- The table of which the other one is the metatable does not come back. -/
theorem metatablesSurvive_fails :
    ¬ MetatablesSurvive loopLibrary (fun _ _ => blankValue) (fun _ => blankValue) 0
      ⟨[.table 0], metaHeap, []⟩ emptyState [.table 0] := by
  have htable : metaHeap.Unfolds loopLibrary.objlen (.table 0) [0, 1]
      [.table 0 1, .table 0 1] :=
    .table (t := { LuaTable.empty with metatable := some 1 }) rfl unfolds_metaHeap
  have hall : metaHeap.UnfoldsAll loopLibrary.objlen [.table 0] [0, 1]
      [.table 0 1, .table 0 1] := .cons htable .nil
  exact not_metatablesSurvive (L := ⟨[.table 0], metaHeap, []⟩) (by decide) (by simp)
    (List.append_nil _).symm hall (by decide) (by decide) (fun _ ha => (List.not_mem_nil ha).elim)
    List.mem_cons_self rfl

end Casting
