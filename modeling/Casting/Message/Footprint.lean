import Casting.Message.Graphs

/-!
# The stack below a decoded message

`lua_decodemessage` keeps a table of references between the values of its caller and the ones it
pushes.  What it takes off the stack at the end is the value below that table.
-/

namespace Casting

/-- With enough fuel, `lua_newmessage` makes this message of the values on top of a stack. -/
def Makes (lib : LuaLibrary) (mem : ℕ → Block) (buf : Block) (slack : ℕ) (L : LuaState) (n : ℕ)
    (m : Message) : Prop :=
  ∃ N, ∀ fuel ≥ N, ∃ L', luaNewmessage lib mem buf slack fuel L n = some (m, L')

/-- With enough fuel, decoding pushes as many values as the message counts, and nothing else
happens to the stack. -/
def TouchesTop (lib : LuaLibrary) (m : Message) (R : LuaState) : Prop :=
  ∃ N, ∀ fuel ≥ N, ∃ (vs' : List LuaValue) (R' : LuaState),
    luaDecodemessage lib m fuel R = some (m.count.toInt, R') ∧
      R'.stack = vs'.reverse ++ R.stack ∧ (vs'.length : ℤ) = m.count.toInt

def LuaState.Holds (L : LuaState) : Prop :=
  ∀ a, LuaValue.table a ∈ L.stack → ∃ t, L.heap.tables a = some t

theorem luaDecodemessage_of_count {m : Message} (hcount : m.count ≠ 0) (lib : LuaLibrary)
    (fuel : ℕ) (R : LuaState) :
    luaDecodemessage lib m fuel R =
      (decodeLoop lib m (luaGettop (decodeStart m R)) fuel fuel (decodeStart m R)
        msgCursorInit).bind fun L =>
          if m.refs ≠ 0 then
            (luaRemove L (luaGettop (decodeStart m R) - 1)).map fun L => (m.count.toInt, L)
          else some (m.count.toInt, L) := by
  rw [luaDecodemessage, if_pos hcount]
  simp only [Option.bind_eq_bind]
  congr 1
  funext L
  split
  · exact (Option.map_eq_bind ..).symm
  · rfl

/-! ## The table of references -/

section Side

variable {R L : LuaState} {ws : List LuaValue} {side : LuaValue}

theorem length_luaRemove {L' : LuaState} {idx : ℤ} (h : luaRemove L idx = some L') :
    L'.stack.length + 1 = L.stack.length := by
  obtain ⟨i, hdepth, rfl⟩ := Option.map_eq_some_iff.mp h
  have hi : i < L.stack.length := by
    unfold LuaState.depth luaGettop at hdepth
    split at hdepth
    · cases hdepth
      omega
    · split at hdepth
      · cases hdepth
        omega
      · cases hdepth
  rw [List.length_eraseIdx_of_lt hi]
  omega

private theorem depth_below (hstack : L.stack = ws.reverse ++ side :: R.stack)
    (hR : R.stack ≠ []) : L.depth R.stack.length = some (ws.length + 1) := by
  have hpos := List.length_pos_iff.mpr hR
  have htop : luaGettop L = ws.length + (R.stack.length + 1) := by
    rw [luaGettop, hstack, List.length_append, List.length_reverse, List.length_cons]
    push_cast
    rfl
  rw [LuaState.depth, htop, if_pos (by omega)]
  congr 1
  omega

/-- Without values below the table there is nothing at the index that is removed. -/
theorem luaRemove_below_empty (hstack : R.stack = []) : luaRemove L R.stack.length = none := by
  rw [luaRemove, LuaState.depth, hstack, if_neg (by simp), if_neg (by simp), Option.map_none]

/-- The caller's topmost value goes, the table stays. -/
theorem luaRemove_below {v : LuaValue} {rest : List LuaValue} (hR : R.stack = v :: rest)
    (hstack : L.stack = ws.reverse ++ side :: R.stack) :
    luaRemove L R.stack.length = some { L with stack := ws.reverse ++ side :: rest } := by
  have hne : R.stack ≠ [] := by
    rw [hR]
    exact List.cons_ne_nil v rest
  rw [luaRemove, depth_below hstack hne, Option.map_some, hstack, hR,
    List.eraseIdx_append_of_length_le (by rw [List.length_reverse]; omega), List.length_reverse,
    Nat.add_sub_cancel_left]
  rfl

/-- What `lua_decodemessage` leaves below the values that it pushes: the stack of its caller, or
the table of references in the place of the caller's topmost value. -/
def stackBelow (m : Message) (R : LuaState) : List LuaValue :=
  if m.refs = 0 then R.stack else .table R.heap.fresh :: R.stack.tail

theorem luaDecodemessage_of_loop {lib : LuaLibrary} {m : Message} {fuel : ℕ} (hcount : m.count ≠ 0)
    (hloop : decodeLoop lib m (luaGettop (decodeStart m R)) fuel fuel (decodeStart m R)
      msgCursorInit = some L)
    (hstack : L.stack = ws.reverse ++ (decodeStart m R).stack) :
    luaDecodemessage lib m fuel R =
      if m.refs = 0 ∨ R.stack ≠ [] then
        some (m.count.toInt, { L with stack := ws.reverse ++ stackBelow m R })
      else none := by
  rw [luaDecodemessage_of_count hcount, hloop, Option.bind_some]
  by_cases hrefs : m.refs = 0
  · rw [decodeStart, if_neg (not_not.mpr hrefs)] at hstack
    rw [if_neg (not_not.mpr hrefs), if_pos (.inl hrefs), stackBelow, if_pos hrefs, ← hstack]
  · rw [decodeStart, if_pos hrefs] at hstack ⊢
    have htop : luaGettop (luaCreatetable R) - 1 = R.stack.length := by
      rw [luaGettop, luaCreatetable, List.length_cons]
      push_cast
      exact Int.add_sub_cancel _ _
    rw [if_pos hrefs, htop, stackBelow, if_neg hrefs]
    by_cases hR : R.stack = []
    · rw [luaRemove_below_empty hR, if_neg (not_or.mpr ⟨hrefs, not_not.mpr hR⟩)]
      rfl
    · obtain ⟨v, rest, hcons⟩ := List.exists_cons_of_ne_nil hR
      rw [luaRemove_below hcons hstack, if_pos (.inr hR), hcons]
      rfl

end Side

/-! ## What stays in place -/

section Messages

variable {lib : LuaLibrary} {mem : ℕ → Block} {buf : Block} {slack : ℕ} {L R : LuaState}
  {vs rest : List LuaValue} {cs : List Content} {seen : Visited} {m : Message}

theorem makes_messageOf [lib.StackGrows] (hstack : L.stack = vs.reverse ++ rest)
    (hall : EncodesAll L.heap lib.objlen (fun _ => none) 0 vs cs seen)
    (hsmall : sizeofMessage + streamSize cs < 2 ^ 31) (hfits : 4 * repeats cs ≤ slack) :
    Makes lib mem buf slack L vs.length (messageOf cs vs.length) := by
  refine ⟨cs.length + 1, fun fuel hfuel => ⟨{ L with stack := rest }, ?_⟩⟩
  rw [luaNewmessage_follows hstack hall hsmall hfuel, if_pos hfits]

theorem Makes.eq_messageOf [lib.StackGrows] (hmakes : Makes lib mem buf slack L vs.length m)
    (hstack : L.stack = vs.reverse ++ rest)
    (hall : EncodesAll L.heap lib.objlen (fun _ => none) 0 vs cs seen)
    (hsmall : sizeofMessage + streamSize cs < 2 ^ 31) : m = messageOf cs vs.length := by
  obtain ⟨N, hmakes⟩ := hmakes
  obtain ⟨L', hnew⟩ := hmakes (max N (cs.length + 1)) (le_max_left _ _)
  rw [luaNewmessage_follows hstack hall hsmall (le_max_right N (cs.length + 1))] at hnew
  split at hnew
  · cases hnew
    rfl
  · cases hnew

private theorem toInt_count {n : ℕ} (hn : n < 2 ^ 31) : (messageOf cs n).count.toInt = n :=
  toInt_ofNat_small hn

private theorem count_ne_zero {n : ℕ} (hpos : 0 < n) (hn : n < 2 ^ 31) :
    (messageOf cs n).count ≠ 0 := by
  intro hzero
  have htoInt : (messageOf cs n).count.toInt = n := toInt_count hn
  rw [hzero] at htoInt
  change (0 : ℤ) = n at htoInt
  omega

/-- Nothing is removed after a stream without references. -/
theorem touchesTop_of_repeats [lib.StackGrows] (hvs : vs ≠ [])
    (hall : EncodesAll L.heap lib.objlen (fun _ => none) 0 vs cs seen)
    (hsmall : sizeofMessage + streamSize cs < 2 ^ 31) (hrepeats : repeats cs = 0) :
    TouchesTop lib (messageOf cs vs.length) R := by
  have hlength := length_le_streamSize cs
  have hle := hall.length_le
  have hrefs : (messageOf cs vs.length).refs = 0 := by
    rw [messageOf, hrepeats]
    rfl
  have hstart : decodeStart (messageOf cs vs.length) R = R := if_neg (not_not.mpr hrefs)
  have hread : ∀ i < cs.length, streamSize (cs.take i) < streamSize cs - 4 * repeats cs := by
    intro i hi
    have htake := streamSize_take_add_le
      (List.getLast?_eq_some_getLast (List.ne_nil_of_length_pos (Nat.zero_lt_of_lt hi))) hi
    have hsize : 4 ≤ (cs.getLast (List.ne_nil_of_length_pos (Nat.zero_lt_of_lt hi))).size :=
      Nat.le_add_right _ _
    omega
  have hcount : (messageOf cs vs.length).count.toInt = vs.length := toInt_count (by omega)
  refine ⟨cs.length + 1, fun fuel hfuel => ?_⟩
  obtain ⟨vs', R', hloop, hstack', ρ, -, hsame, -⟩ :=
    decodeLoop_messageOf lib R hall hsmall hread vs.length hfuel
  rw [hstart] at hloop hstack'
  refine ⟨vs', R', ?_, hstack', ?_⟩
  · rw [luaDecodemessage_of_count (count_ne_zero (List.length_pos_iff.mpr hvs) (by omega)), hstart,
      hloop, Option.bind_some, if_neg (not_not.mpr hrefs)]
  · rw [hcount, hsame.length_eq]

/-- After a stream with references the table is where the caller had a value. -/
theorem not_touchesTop [lib.StackGrows] (hvs : vs ≠ [])
    (hall : EncodesAll L.heap lib.objlen (fun _ => none) 0 vs cs seen)
    (hsmall : sizeofMessage + streamSize cs < 2 ^ 31) (hrepeats : repeats cs ≠ 0)
    (hholds : R.Holds) : ¬ TouchesTop lib (messageOf cs vs.length) R := by
  have hlength := length_le_streamSize cs
  have hle := hall.length_le
  obtain ⟨c, hmem, hc⟩ := List.countP_pos_iff.mp (Nat.pos_of_ne_zero hrepeats)
  have hrefs : (messageOf cs vs.length).refs ≠ 0 := by
    cases c with
    | reference ref => exact refs_messageOf_ne_zero hsmall hmem
    | _ => cases hc
  have hstart : decodeStart (messageOf cs vs.length) R = luaCreatetable R := if_pos hrefs
  have htop : luaGettop (luaCreatetable R) - 1 = R.stack.length := by
    rw [luaGettop, luaCreatetable, List.length_cons]
    push_cast
    exact Int.add_sub_cancel _ _
  have hcount : (messageOf cs vs.length).count.toInt = vs.length := toInt_count (by omega)
  rintro ⟨N, hrun⟩
  obtain ⟨vs', R', hdecode, hstack', hvs'⟩ := hrun (max N (cs.length + 1)) (le_max_left _ _)
  rw [luaDecodemessage_of_count (count_ne_zero (List.length_pos_iff.mpr hvs) (by omega))]
    at hdecode
  obtain ⟨R₁, hloop, hdecode⟩ := Option.bind_eq_some_iff.mp hdecode
  rw [if_pos hrefs, hstart, htop] at hdecode
  obtain ⟨R₂, hremove, heq⟩ := Option.map_eq_some_iff.mp hdecode
  cases heq
  cases hR : R.stack with
  | nil =>
    rw [luaRemove_below_empty hR] at hremove
    cases hremove
  | cons v stack =>
    have hheight : R₁.stack.length =
        (decodeStart (messageOf cs vs.length) R).stack.length + vs.length := by
      rw [← length_luaRemove hremove, hstack', List.length_append, List.length_reverse, hstart,
        luaCreatetable, List.length_cons]
      omega
    have hread := reads_all hall hsmall hloop hheight
    obtain ⟨ws, R₁', hloop', hstack₁, -⟩ :=
      decodeLoop_messageOf lib R hall hsmall hread vs.length (le_max_right N (cs.length + 1))
    rw [hloop] at hloop'
    cases hloop'
    rw [hstart] at hstack₁
    rw [luaRemove_below hR hstack₁] at hremove
    cases hremove
    rw [hR] at hstack'
    have hside : LuaValue.table R.heap.fresh = v := by
      have hlength : ws.reverse.length = vs'.reverse.length := by
        have := congrArg List.length hstack'
        rw [List.length_append, List.length_append, List.length_cons, List.length_cons] at this
        omega
      exact (List.cons.inj (List.append_inj hstack' hlength).2).1
    obtain ⟨t, ht⟩ := hholds R.heap.fresh (by rw [hR, hside]; exact List.mem_cons_self)
    exact lt_irrefl _ (LuaHeap.lt_fresh ht)

end Messages

theorem touchesTop_iff (lib : LuaLibrary) [lib.StackGrows] (mem : ℕ → Block) (buf : Block)
    (slack : ℕ) (L R : LuaState) (vs rest : List LuaValue) (m : Message) (hvs : vs ≠ [])
    (hstack : L.stack = vs.reverse ++ rest) (hdata : L.heap.IsData vs)
    (hsmall : sizeofMessage + streamSize (stream L.heap lib.objlen vs) < 2 ^ 31)
    (hmakes : Makes lib mem buf slack L vs.length m) (hholds : R.Holds) :
    TouchesTop lib m R ↔ repeats (stream L.heap lib.objlen vs) = 0 := by
  obtain ⟨seen, hall⟩ := stream_encodes lib.objlen hdata
  rw [hmakes.eq_messageOf hstack hall hsmall]
  constructor
  · intro htouches
    by_contra hrepeats
    exact not_touchesTop hvs hall hsmall hrepeats hholds htouches
  · exact touchesTop_of_repeats hvs hall hsmall

theorem holds_loopState : (loopState [.table 0, .boolean false]).Holds := by
  intro a ha
  obtain rfl : a = 0 := by simpa [loopState] using ha
  exact ⟨loopTable, rfl⟩

/-- Tables without references on a stack with a table on its top. -/
theorem touchesTop_nested :
    ∃ m, Makes loopLibrary (fun _ _ => blankValue) (fun _ => blankValue) 0
      (nestedState [.boolean true, .table 0]) 2 m ∧
        TouchesTop loopLibrary m (loopState [.table 0, .boolean false]) := by
  obtain ⟨seen, hall⟩ := stream_encodes loopLibrary.objlen isData_nestedHeap
  have hmakes : Makes loopLibrary (fun _ _ => blankValue) (fun _ => blankValue) 0
      (nestedState [.boolean true, .table 0]) [LuaValue.table 0, .boolean true].length _ :=
    makes_messageOf rfl hall (by decide) (by decide)
  exact ⟨_, hmakes, (touchesTop_iff _ _ _ _ _ _ _ [] _ (by decide) rfl isData_nestedHeap
    (by decide) hmakes holds_loopState).mpr (by decide)⟩

/-- A table that holds itself takes the place of what was on the stack. -/
theorem touchesTop_fails :
    ∃ m, Makes loopLibrary (fun _ _ => blankValue) (fun _ => blankValue) 8
      (loopState [.table 0]) 1 m ∧
        ¬ TouchesTop loopLibrary m (emptyState.push (.boolean false)) := by
  have hdata : loopHeap.IsData [.table 0] := isData_loopHeap (by decide)
  obtain ⟨seen, hall⟩ := stream_encodes loopLibrary.objlen hdata
  have hmakes : Makes loopLibrary (fun _ _ => blankValue) (fun _ => blankValue) 8
      (loopState [.table 0]) [LuaValue.table 0].length _ :=
    makes_messageOf rfl hall (by decide) (by decide)
  have hholds : (emptyState.push (.boolean false)).Holds := by
    intro a ha
    cases List.mem_singleton.mp ha
  exact ⟨_, hmakes, not_touchesTop (L := loopState [.table 0]) (by decide) hall (by decide)
    (by decide) hholds⟩

end Casting
