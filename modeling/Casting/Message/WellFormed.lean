import Casting.Message.Graphs

/-!
# Well-formed messages

The values that `msg_next` reads from a message are to be as many complete trees as it counts.
A value that cannot be written leaves a gap that the header above it still counts.
-/

namespace Casting

open Forest

/-! ## What a message says -/

/-- The values that `msg_next` reads from a cursor on, and where it finds no more. -/
inductive Reading (m : Message) : Cursor → List Content → Cursor → Prop
  | stop {cur : Cursor} {v : Value} : msgNext m cur blankValue = some (-1, cur, v) →
      Reading m cur [] cur
  | more {cur cur' cur'' : Cursor} {n : ℤ} {v : Value} {c : Content} {cs : List Content} :
      msgNext m cur blankValue = some (n, cur', v) → 0 ≤ n → v.content? = some c →
      Reading m cur' cs cur'' → Reading m cur (c :: cs) cur''

/-- All that was written is read, as just the trees that the message counts. -/
def Message.WellFormed (m : Message) : Prop :=
  ∃ (cs : List Content) (cur : Cursor) (n : ℕ), Reading m msgCursorInit cs cur ∧
    cur.pos = m.data.length ∧ m.count.toInt = n ∧ Trees Content.arity n cs

theorem streamSize_take_lt {cs : List Content} {i : ℕ} (hi : i < cs.length) :
    streamSize (cs.take i) < streamSize cs := by
  have hdrop := length_le_streamSize (cs.drop i)
  have hsplit : streamSize cs = streamSize (cs.take i) + streamSize (cs.drop i) := by
    rw [← streamSize_append, List.take_append_drop]
  rw [List.length_drop] at hdrop
  omega

section Reading

variable {m : Message} {items : List Item} {limit : ℕ}

theorem Lays.length_data (h : Lays m items limit) :
    m.data.length = streamSize (items.map Item.content) := by
  have hlayout := layout_take items items.length
  rw [List.take_length, ← List.length_map Item.content, List.take_length] at hlayout
  rw [h.data, hlayout]

theorem Lays.reading (h : Lays m items limit)
    (hend : limit ≤ streamSize (items.map Item.content)) {i : ℕ} (hi : i ≤ items.length)
    (hread : ∀ j, i ≤ j → j < items.length → streamSize ((items.map Item.content).take j) < limit) :
    Reading m (cursorAt (items.map Item.content) i) ((items.map Item.content).drop i)
      (cursorAt (items.map Item.content) items.length) := by
  induction hn : items.length - i generalizing i with
  | zero =>
    obtain rfl : i = items.length := by omega
    rw [List.drop_eq_nil_of_le (List.length_map _).le]
    refine .stop (h.msgNext_end ?_ blankValue)
    rw [← List.length_map Item.content, List.take_length]
    exact hend
  | succ n ih =>
    have hlt : i < items.length := by omega
    obtain ⟨v, hnext, hv⟩ :=
      h.msgNext (List.getElem?_eq_getElem hlt) (hread i le_rfl hlt) blankValue
    obtain ⟨hcontent, -, -⟩ := Value.item?_eq_some_iff.mp hv
    have hdrop : (items.map Item.content).drop i =
        items[i].content :: (items.map Item.content).drop (i + 1) := by
      rw [List.drop_eq_getElem_cons (by rwa [List.length_map]), List.getElem_map]
    rw [hdrop]
    exact .more hnext (Int.natCast_nonneg i) hcontent
      (ih hlt (fun j hj => hread j (Nat.le_of_succ_le hj)) (by omega))

theorem Lays.reads (h : Lays m items limit)
    (hend : limit ≤ streamSize (items.map Item.content)) {i : ℕ} (hi : i ≤ items.length)
    {cs : List Content} {cur cur' : Cursor} (hcur : cur = cursorAt (items.map Item.content) i)
    (hreading : Reading m cur cs cur')
    (hall : cur'.pos = streamSize (items.map Item.content)) :
    cs = (items.map Item.content).drop i ∧
      ∀ j, i ≤ j → j < items.length → streamSize ((items.map Item.content).take j) < limit := by
  induction hreading generalizing i with
  | @stop cur v hnext =>
    have hlast : ¬ i < items.length := by
      intro hlt
      have hlt' : i < (items.map Item.content).length := by rwa [List.length_map]
      have hpos := streamSize_take_lt hlt'
      by_cases hlimit : streamSize ((items.map Item.content).take i) < limit
      · obtain ⟨v', hnext', -⟩ := h.msgNext (List.getElem?_eq_getElem hlt) hlimit blankValue
        rw [← hcur, hnext] at hnext'
        cases hnext'
      · rw [hcur] at hall
        change (streamSize _ : ℤ) = _ at hall
        omega
    refine ⟨?_, fun j hij hj => (hlast (lt_of_le_of_lt hij hj)).elim⟩
    rw [List.drop_eq_nil_of_le (by rw [List.length_map]; omega)]
  | @more cur cur' cur'' n v c cs hnext hn hc hrest ih =>
    have hlimit : streamSize ((items.map Item.content).take i) < limit := by
      by_contra hlimit
      rw [hcur, h.msgNext_end (not_lt.mp hlimit)] at hnext
      cases hnext
      omega
    have hlt : i < items.length := by
      by_contra hge
      rw [List.take_of_length_le (by rw [List.length_map]; omega)] at hlimit
      omega
    obtain ⟨v', hnext', hv'⟩ := h.msgNext (List.getElem?_eq_getElem hlt) hlimit blankValue
    rw [← hcur, hnext] at hnext'
    cases hnext'
    obtain ⟨hcontent, -, -⟩ := Value.item?_eq_some_iff.mp hv'
    rw [hc, Option.some.injEq] at hcontent
    obtain ⟨rfl, hread⟩ := ih hlt rfl hall
    have hdrop : (items.map Item.content).drop i =
        items[i].content :: (items.map Item.content).drop (i + 1) := by
      rw [List.drop_eq_getElem_cons (by rwa [List.length_map]), List.getElem_map]
    refine ⟨by rw [hdrop, hcontent], fun j hij hj => ?_⟩
    rcases Nat.eq_or_lt_of_le hij with rfl | hij
    · exact hlimit
    · exact hread j hij hj

end Reading

/-! ## What is written for a walk -/

/-- From each value that is written on, fewer values are left out than are due. -/
def Covered (calls : List (Option Content)) : Prop :=
  ∀ before c after, calls = before ++ some c :: after →
    0 ≤ c.arity ∧ (after.count none : ℤ) < roots callArity (some c :: after)

section Covered

variable {calls : List (Option Content)} {c : Content}

theorem covered_nil : Covered [] := by
  intro before c after h
  cases before <;> cases h

theorem covered_none : Covered (none :: calls) ↔ Covered calls := by
  constructor
  · rintro h before c after rfl
    exact h (none :: before) c after rfl
  · intro h before c after heq
    cases before with
    | nil => cases heq
    | cons call before =>
      cases heq
      exact h before c after rfl

theorem covered_some : Covered (some c :: calls) ↔
    (0 ≤ c.arity ∧ (calls.count none : ℤ) < roots callArity (some c :: calls)) ∧
      Covered calls := by
  constructor
  · intro h
    refine ⟨h [] c calls rfl, ?_⟩
    rintro before c' after rfl
    exact h (some c :: before) c' after rfl
  · intro ⟨hhead, hrest⟩ before c' after heq
    cases before with
    | nil =>
      cases heq
      exact hhead
    | cons call before =>
      cases heq
      exact hrest before c' after rfl

theorem roots_reduceOption (calls : List (Option Content)) :
    roots Content.arity calls.reduceOption = roots callArity calls - calls.count none := by
  induction calls with
  | nil => rfl
  | cons call calls ih =>
    cases call with
    | none =>
      rw [List.reduceOption_cons_of_none, ih, roots_cons, List.count_cons_self]
      change _ = 1 - 0 + roots callArity calls - _
      push_cast
      ring
    | some c =>
      rw [List.reduceOption_cons_of_some, roots_cons, ih, roots_cons,
        List.count_cons_of_ne (Option.some_ne_none c)]
      change _ = 1 - c.arity + roots callArity calls - _
      ring

theorem rooted_reduceOption : Rooted Content.arity calls.reduceOption ↔ Covered calls := by
  induction calls with
  | nil => exact iff_of_true rooted_nil covered_nil
  | cons call calls ih =>
    cases call with
    | none => rw [List.reduceOption_cons_of_none, covered_none, ih]
    | some c =>
      have hroots := roots_reduceOption (some c :: calls)
      rw [List.reduceOption_cons_of_some, List.count_cons_of_ne (Option.some_ne_none c)] at hroots
      rw [List.reduceOption_cons_of_some, rooted_cons, covered_some, ih, hroots, sub_pos]

end Covered

section Message

variable {w : Walk}

theorem Walk.lays_message (hsmall : sizeofMessage + streamSize w.contents < 2 ^ 31) :
    Lays w.message (marked w.contents w.metas)
      (streamSize w.contents - 4 * repeats w.contents) where
  data := rfl
  size := by
    rw [message, toInt_ofNat_small (by omega)]
    push_cast
    rfl
  small := by
    rw [length_layout_marked]
    omega

theorem Walk.trees_message (hmetas : w.metas = 0) (hlength : w.contents.length < 2 ^ 31) :
    (∃ n : ℕ, w.message.count.toInt = n ∧ Trees Content.arity n w.contents) ↔ Covered w.calls := by
  have hcount : w.message.count = BitVec.ofInt 32 (roots Content.arity w.contents) := by
    rw [message, hmetas, Nat.cast_zero, sub_zero]
  rw [← rooted_reduceOption]
  constructor
  · rintro ⟨n, -, htrees⟩
    exact htrees.rooted
  · intro hrooted
    obtain ⟨n, hn⟩ := Int.eq_ofNat_of_zero_le hrooted.roots_nonneg
    have htrees : Trees Content.arity n w.contents := trees_iff.mpr ⟨hn, hrooted⟩
    have hle := htrees.length_le
    refine ⟨n, ?_, htrees⟩
    rw [hcount, htrees.roots_eq, BitVec.ofInt_natCast, toInt_ofNat_small (by omega)]

theorem Walk.wellFormed_message (hmetas : w.metas = 0)
    (hsmall : sizeofMessage + streamSize w.contents < 2 ^ 31) :
    w.message.WellFormed ↔
      Covered w.calls ∧ ∀ c ∈ w.contents.getLast?, 4 * repeats w.contents < c.size := by
  have hlays := w.lays_message hsmall
  have hcontents := map_content_marked w.contents w.metas
  have hdata := hlays.length_data
  have hlength := length_le_streamSize w.contents
  rw [hcontents] at hdata
  rw [← reads_iff_last, ← w.trees_message hmetas (by omega)]
  constructor
  · intro ⟨cs, cur, n, hreading, hpos, hcount, htrees⟩
    rw [hdata] at hpos
    have hreads := hlays.reads (by rw [hcontents]; exact Nat.sub_le _ _) (Nat.zero_le _) rfl
      hreading (by rw [hcontents]; exact hpos)
    rw [hcontents, length_marked] at hreads
    obtain ⟨rfl, hread⟩ := hreads
    exact ⟨⟨n, hcount, htrees⟩, fun j hj => hread j (Nat.zero_le j) hj⟩
  · intro ⟨⟨n, hcount, htrees⟩, hread⟩
    have hreading := hlays.reading (by rw [hcontents]; exact Nat.sub_le _ _) (Nat.zero_le _)
      (by
        rw [hcontents, length_marked]
        exact fun j _ hj => hread j hj)
    rw [hcontents, length_marked] at hreading
    refine ⟨w.contents, _, n, hreading, ?_, hcount, htrees⟩
    rw [hdata, cursorAt, List.take_length]

end Message

theorem wellFormed_iff (lib : LuaLibrary) (mem : ℕ → Block) (buf : Block) (slack fuel : ℕ)
    (L : LuaState) (count : ℕ) (w : Walk) (hwalk : walkValues lib fuel L count = some w)
    (hmetas : w.metas = 0) (hsmall : sizeofMessage + streamSize w.contents < 2 ^ 31) :
    (∃ m L', luaNewmessage lib mem buf slack fuel L count = some (m, L') ∧ m.WellFormed) ↔
      Covered w.calls ∧ Spared slack w.contents := by
  rw [luaNewmessage_of_walk hwalk hsmall]
  by_cases hfits : 4 * repeats w.contents ≤ slack
  · have hmessage := w.wellFormed_message hmetas hsmall
    rw [if_pos hfits]
    constructor
    · intro ⟨m, L', heq, hwellFormed⟩
      cases heq
      obtain ⟨hcovered, hlast⟩ := hmessage.mp hwellFormed
      exact ⟨hcovered, hfits, hlast⟩
    · rintro ⟨hcovered, -, hlast⟩
      exact ⟨_, _, rfl, hmessage.mpr ⟨hcovered, hlast⟩⟩
  · rw [if_neg hfits]
    constructor
    · rintro ⟨m, L', heq, -⟩
      cases heq
    · rintro ⟨-, hfits', -⟩
      exact (hfits hfits').elim

/-- A message with a table in a table, and with a second value. -/
theorem wellFormed_nested :
    ∃ m L', luaNewmessage loopLibrary (fun _ _ => blankValue) (fun _ => blankValue) 0 9
      (nestedState [.boolean true, .table 0]) 2 = some (m, L') ∧ m.WellFormed := by
  obtain ⟨seen, hall⟩ := stream_encodes loopLibrary.objlen isData_nestedHeap
  have hwalk := hall.walkValues (L := nestedState [.boolean true, .table 0])
    (List.append_nil _).symm (show _ < 9 by decide)
  have hcovered : Covered (List.map some (stream nestedHeap loopLibrary.objlen _)) :=
    rooted_reduceOption.mp (by
      rw [reduceOption_some]
      exact (hall.trees (by decide)).rooted)
  have hcontents : ∀ L, Walk.contents ⟨(stream nestedHeap loopLibrary.objlen
      [.table 0, .boolean true]).map some, seen, 0, L⟩ = _ := fun _ => reduceOption_some _
  exact (wellFormed_iff _ _ _ _ _ _ _ _ hwalk rfl (by rw [hcontents]; decide)).mpr
    ⟨hcovered, by rw [hcontents]; decide⟩

/-- A table whose only entry has a thread for its value. -/
def threadTable : LuaTable where
  entries := [(.boolean true, .thread 0)]
  metatable := none
  distinct := List.pairwise_singleton _ _
  keys := by decide
  values := by decide

def threadHeap : LuaHeap where
  tables := fun a => if a = 0 then some threadTable else none
  closures := fun _ => none
  fresh := 1
  bounded := fun _ ha => if_neg (Nat.ne_of_gt ha)

/-- Its message counts no value and has a table without the value of its entry. -/
theorem wellFormed_fails :
    ∃ m L', luaNewmessage loopLibrary (fun _ _ => blankValue) (fun _ => blankValue) 0 5
      ⟨[.table 0], threadHeap, []⟩ 1 = some (m, L') ∧ ¬ m.WellFormed := by
  have hchildren : WalksAll threadHeap loopLibrary.objlen
      (Function.update (fun _ => none) 0 (some 0)) 1 threadTable.children
      [some (.boolean true), none] (Function.update (fun _ => none) 0 (some 0)) 0 :=
    .cons (.leaf rfl) (.cons (.leaf rfl) .nil)
  have htable : Walks threadHeap loopLibrary.objlen (fun _ => none) 0 (.table 0)
      [some (.table 1 1), some (.boolean true), none]
      (Function.update (fun _ => none) 0 (some 0)) 0 := .table rfl rfl hchildren
  have hall : WalksAll threadHeap loopLibrary.objlen (fun _ => none) 0 [.table 0]
      [some (.table 1 1), some (.boolean true), none]
      (Function.update (fun _ => none) 0 (some 0)) 0 := .cons htable .nil
  have hwalk := hall.walkValues (L := ⟨[.table 0], threadHeap, []⟩) (List.append_nil _).symm
    (show 3 < 5 by decide)
  have hnew : luaNewmessage loopLibrary (fun _ _ => blankValue) (fun _ => blankValue) 0 5
      ⟨[.table 0], threadHeap, []⟩ 1 = _ := luaNewmessage_of_walk hwalk (by decide)
  refine ⟨_, _, hnew, fun hwellFormed => ?_⟩
  have hcovered := ((Walk.wellFormed_message rfl (by decide)).mp hwellFormed).1
  exact absurd (covered_some.mp hcovered).1 (by decide)

end Casting
