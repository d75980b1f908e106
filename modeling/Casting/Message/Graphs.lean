import Casting.Message.Encoding
import Casting.Message.Heights

/-!
# Value graphs in messages

`lua_newmessage` and the loop of `lua_decodemessage` together: which tuples of values come back
as an isomorphic tuple.
-/

namespace Casting

open Forest

/-- With enough fuel, the message made of the `vs` on top of one stack puts an isomorphic tuple
on another. -/
def GraphRoundTrips (lib : LuaLibrary) (mem : ℕ → Block) (buf : Block) (slack : ℕ)
    (L R : LuaState) (vs : List LuaValue) : Prop :=
  ∃ N, ∀ fuel ≥ N, ∃ m L' R' vs',
    luaNewmessage lib mem buf slack fuel L vs.length = some (m, L') ∧ m.count ≠ 0 ∧
      decodeLoop lib m (luaGettop (decodeStart m R)) fuel fuel (decodeStart m R) msgCursorInit =
        some R' ∧
      R'.stack = vs'.reverse ++ (decodeStart m R).stack ∧ Isomorphic L.heap vs R'.heap vs'

/-- What the four bytes too few for each reference leave as it should be: the message fits into
its memory, and its last value starts before the end that its size gives. -/
def Spared (slack : ℕ) (cs : List Content) : Prop :=
  4 * repeats cs ≤ slack ∧ ∀ c ∈ cs.getLast?, 4 * repeats cs < c.size

instance (slack : ℕ) (cs : List Content) : Decidable (Spared slack cs) :=
  inferInstanceAs (Decidable (_ ∧ _))

/-! ## The last value -/

section Last

variable {cs : List Content} {c : Content} {i : ℕ}

theorem streamSize_take_add_le (hc : cs.getLast? = some c) (hi : i < cs.length) :
    streamSize (cs.take i) + c.size ≤ streamSize cs := by
  have hlast : (cs.drop i).getLast? = some c := by
    rw [List.getLast?_drop, if_neg (not_le.mpr hi), hc]
  obtain ⟨front, hfront⟩ := List.getLast?_eq_some_iff.mp hlast
  have hsplit : streamSize cs = streamSize (cs.take i) + streamSize (cs.drop i) := by
    rw [← streamSize_append, List.take_append_drop]
  rw [hfront, streamSize_append, streamSize_cons] at hsplit
  omega

theorem streamSize_take_last (hc : cs.getLast? = some c) :
    streamSize (cs.take (cs.length - 1)) + c.size = streamSize cs := by
  obtain ⟨front, rfl⟩ := List.getLast?_eq_some_iff.mp hc
  rw [List.length_append, List.length_singleton, Nat.add_sub_cancel, List.take_left,
    streamSize_append, streamSize_cons]
  rfl

theorem repeats_le (cs : List Content) : 4 * repeats cs ≤ streamSize cs := by
  have hle := references_le_layout (carried cs)
  rwa [references_carried, length_layout_carried] at hle

/-- Every value starts before the end that the size of a message gives if the last one does. -/
theorem reads_iff_last :
    (∀ i < cs.length, streamSize (cs.take i) < streamSize cs - 4 * repeats cs) ↔
      ∀ c ∈ cs.getLast?, 4 * repeats cs < c.size := by
  have hle := repeats_le cs
  constructor
  · intro hread c hc
    have hpos : 0 < cs.length := by
      apply List.length_pos_iff.mpr
      rintro rfl
      cases hc
    have hlast := hread (cs.length - 1) (by omega)
    have htake := streamSize_take_last hc
    omega
  · intro hlast i hi
    obtain ⟨c, hc⟩ := Option.isSome_iff_exists.mp
      (List.getLast?_isSome.mpr (List.ne_nil_of_length_pos (Nat.zero_lt_of_lt hi)))
    have hsize := hlast c hc
    have htake := streamSize_take_add_le hc hi
    omega

end Last

section RoundTrip

variable {cs : List Content} {n : ℕ}

theorem carries_messageOf (hsmall : sizeofMessage + streamSize cs < 2 ^ 31) :
    Carries (messageOf cs n) cs (streamSize cs - 4 * repeats cs) where
  data := rfl
  size := by
    rw [messageOf, toInt_ofNat_small (by omega)]
    push_cast
    rfl
  small := by omega

private theorem ofNat_ne_zero (hpos : 0 < n) (hsmall : n < 2 ^ 32) : BitVec.ofNat 32 n ≠ 0 := by
  intro hzero
  have htoNat := congrArg BitVec.toNat hzero
  rw [BitVec.toNat_ofNat, Nat.mod_eq_of_lt hsmall] at htoNat
  exact hpos.ne' htoNat

theorem refs_messageOf_ne_zero (hsmall : sizeofMessage + streamSize cs < 2 ^ 31) {ref : Word}
    (hmem : Content.reference ref ∈ cs) : (messageOf cs n).refs ≠ 0 := by
  have hle := repeats_le cs
  have hpos : 0 < repeats cs := List.countP_pos_iff.mpr ⟨_, hmem, rfl⟩
  exact ofNat_ne_zero (by omega) (by omega)

variable {lib : LuaLibrary} {mem : ℕ → Block} {buf : Block} {slack : ℕ} {L R : LuaState}
  {vs rest : List LuaValue} {seen : Visited}

variable (lib R) in
theorem decodeLoop_messageOf [lib.StackGrows] {h : LuaHeap}
    (hall : EncodesAll h lib.objlen (fun _ => none) 0 vs cs seen)
    (hsmall : sizeofMessage + streamSize cs < 2 ^ 31)
    (hread : ∀ i < cs.length, streamSize (cs.take i) < streamSize cs - 4 * repeats cs) (n : ℕ)
    {fuel : ℕ} (hfuel : cs.length < fuel) :
    ∃ (vs' : List LuaValue) (R' : LuaState),
      decodeLoop lib (messageOf cs n) (luaGettop (decodeStart (messageOf cs n) R)) fuel fuel
        (decodeStart (messageOf cs n) R) msgCursorInit = some R' ∧
      R'.stack = vs'.reverse ++ (decodeStart (messageOf cs n) R).stack ∧
      Isomorphic h vs R'.heap vs' := by
  have hcarries := carries_messageOf (n := n) hsmall
  obtain ⟨side, hneeded, htracks⟩ :=
    tracks_decodeStart (fun ref hmem => refs_messageOf_ne_zero (n := n) hsmall hmem) R
  obtain ⟨vs', R', ρ, hloop, hstack', hsame, htracks', hbuilt⟩ :=
    decodeLoop_rebuilds lib hcarries hread (Nat.sub_le _ _) hneeded hall rfl
      (Nat.zero_add _) hfuel (lt_of_le_of_lt hall.length_le hfuel) htracks
  refine ⟨vs', R', hloop, hstack', ρ.Rel, htracks'.biUnique, hsame, ?_⟩
  intro a a' ha
  exact (hbuilt.made a a' rfl ha).2

/-- A data value weighs the one value that it is, less those that it claims. -/
theorem weight_eq_roots {cs : List Content} (hdata : ∀ c ∈ cs, c.isData = true)
    (harity : ∀ c ∈ cs, 0 ≤ c.arity) : weight cs = roots Content.arity cs := by
  induction cs with
  | nil => rfl
  | cons c cs ih =>
    rw [List.forall_mem_cons] at hdata harity
    have hweight : c.weight = 1 - c.arity := by
      cases c with
      | table slots array =>
        rw [arity_table harity.1]
        rfl
      | function => cases hdata.1
      | userdata => cases hdata.1
      | _ => rfl
    rw [weight_cons, roots_cons, hweight, ih hdata.2 harity.2]

theorem EncodesAll.weight_take_lt {h : LuaHeap} {objlen : Address → ℕ} {seen seen' : Visited}
    {i : ℕ} {vs : List LuaValue} {cs : List Content}
    (hall : EncodesAll h objlen seen i vs cs seen') (hsmall : cs.length < 2 ^ 31) {p : ℕ}
    (hp : p < cs.length) : weight (cs.take p) < vs.length := by
  have htrees := hall.trees hsmall
  rw [weight_eq_roots (fun c hc => hall.isData c (List.mem_of_mem_take hc))
    fun c hc => htrees.rooted.arity_nonneg (List.mem_of_mem_take hc)]
  exact htrees.roots_take_lt hp

/-- Had anything been left unread, the stack would be lower. -/
theorem reads_all [lib.StackGrows] {h : LuaHeap}
    (hall : EncodesAll h lib.objlen (fun _ => none) 0 vs cs seen)
    (hsmall : sizeofMessage + streamSize cs < 2 ^ 31) {top : ℤ} {fuel : ℕ} {L' : LuaState}
    (hloop : decodeLoop lib (messageOf cs n) top fuel fuel L msgCursorInit = some L')
    (hheight : L'.stack.length = L.stack.length + vs.length) :
    ∀ i < cs.length, streamSize (cs.take i) < streamSize cs - 4 * repeats cs := by
  obtain ⟨i, hcons, -⟩ := decodeLoop_balanced (carries_messageOf hsmall) (Nat.sub_le _ _)
    hall.isData (Nat.zero_le _) hloop
  have hlength := length_le_streamSize cs
  have hi : i = cs.length := by
    apply le_antisymm hcons.bound
    by_contra hlt
    have hweight := hall.weight_take_lt (by omega) (not_le.mp hlt)
    have hsum := hcons.height
    rw [List.take_zero, show weight [] = 0 from rfl, hheight] at hsum
    push_cast at hsum
    omega
  intro j hj
  exact hcons.readable j (Nat.zero_le _) (by omega)

theorem graphRoundTrips_of_spared [lib.StackGrows] (hstack : L.stack = vs.reverse ++ rest)
    (hvs : vs ≠ []) (hall : EncodesAll L.heap lib.objlen (fun _ => none) 0 vs cs seen)
    (hsmall : sizeofMessage + streamSize cs < 2 ^ 31) (hspared : Spared slack cs) :
    GraphRoundTrips lib mem buf slack L R vs := by
  have hlength := length_le_streamSize cs
  have hle := hall.length_le
  have hread := reads_iff_last.mpr hspared.2
  refine ⟨cs.length + 1, fun fuel hfuel => ?_⟩
  obtain ⟨vs', R', hloop, hstack', hsame⟩ :=
    decodeLoop_messageOf lib R hall hsmall hread vs.length hfuel
  refine ⟨messageOf cs vs.length, { L with stack := rest }, R', vs', ?_, ?_, hloop, hstack', hsame⟩
  · rw [luaNewmessage_follows hstack hall hsmall hfuel, if_pos hspared.1]
  · exact ofNat_ne_zero (List.length_pos_iff.mpr hvs) (by omega)

theorem spared_of_graphRoundTrips [lib.StackGrows] (hstack : L.stack = vs.reverse ++ rest)
    (hall : EncodesAll L.heap lib.objlen (fun _ => none) 0 vs cs seen)
    (hsmall : sizeofMessage + streamSize cs < 2 ^ 31)
    (h : GraphRoundTrips lib mem buf slack L R vs) : Spared slack cs := by
  obtain ⟨N, hrun⟩ := h
  obtain ⟨m, L', R', vs', hnew, -, hloop, hstack', ρ, -, hsame, -⟩ :=
    hrun (max N (cs.length + 1)) (le_max_left _ _)
  rw [luaNewmessage_follows hstack hall hsmall (le_max_right N (cs.length + 1))] at hnew
  by_cases hfits : 4 * repeats cs ≤ slack
  · rw [if_pos hfits] at hnew
    cases hnew
    have hheight : R'.stack.length =
        (decodeStart (messageOf cs vs.length) R).stack.length + vs.length := by
      rw [hstack', List.length_append, List.length_reverse, ← hsame.length_eq, Nat.add_comm]
    exact ⟨hfits, reads_iff_last.mp (reads_all hall hsmall hloop hheight)⟩
  · rw [if_neg hfits] at hnew
    cases hnew

end RoundTrip

theorem graphRoundTrips_iff (lib : LuaLibrary) [lib.StackGrows] (mem : ℕ → Block) (buf : Block)
    (slack : ℕ) (L R : LuaState) (vs rest : List LuaValue) (hvs : vs ≠ [])
    (hstack : L.stack = vs.reverse ++ rest) (hdata : L.heap.IsData vs)
    (hsmall : sizeofMessage + streamSize (stream L.heap lib.objlen vs) < 2 ^ 31) :
    GraphRoundTrips lib mem buf slack L R vs ↔ Spared slack (stream L.heap lib.objlen vs) := by
  obtain ⟨seen, hall⟩ := stream_encodes lib.objlen hdata
  constructor
  · exact spared_of_graphRoundTrips hstack hall hsmall
  · exact graphRoundTrips_of_spared hstack hvs hall hsmall

section Loop

def loopTable : LuaTable where
  entries := [(.number (LuaNumber.ofInt 1), .table 0)]
  metatable := none
  distinct := List.pairwise_singleton _ _
  keys := by decide
  values := by decide

def loopHeap : LuaHeap where
  tables := fun a => if a = 0 then some loopTable else none
  closures := fun _ => none
  fresh := 1
  bounded := fun _ ha => if_neg (Nat.ne_of_gt ha)

def loopState (stack : List LuaValue) : LuaState := ⟨stack, loopHeap, []⟩

def emptyState : LuaState := ⟨[], ⟨fun _ => none, fun _ => none, 0, fun _ _ => rfl⟩, []⟩

def loopLibrary : LuaLibrary where
  checkstack := fun _ _ => true
  numberString := fun _ => []
  objlen := fun _ => 1
  saver := fun _ => none
  loader := fun _ => .nil
  call := fun _ _ => none
  chunk := fun _ => none
  chunkError := fun _ => .nil

instance : loopLibrary.StackGrows := ⟨fun _ _ => rfl⟩

theorem isData_loopHeap {vs : List LuaValue}
    (hvs : ∀ v ∈ vs, v = .table 0 ∨ v = .boolean true) : loopHeap.IsData vs := by
  have hreachable : ∀ a, loopHeap.Reachable vs a → a = 0 := by
    intro a ha
    induction ha with
    | root hmem =>
      rcases hvs _ hmem with heq | heq
      · exact LuaValue.table.inj heq
      · cases heq
    | step _ ht hmem ih =>
      rw [ih] at ht
      cases ht
      simpa [LuaTable.elements, loopTable] using hmem
  constructor
  · intro v hv
    rcases hvs v hv with rfl | rfl
    · rfl
    · rfl
  · intro a ha
    rw [hreachable a ha]
    exact ⟨loopTable, rfl, rfl, by decide⟩

theorem graphRoundTrips_loop :
    GraphRoundTrips loopLibrary (fun _ _ => blankValue) (fun _ => blankValue) 8
      (loopState [.table 0]) emptyState [.table 0] :=
  (graphRoundTrips_iff _ _ _ _ _ _ _ [] (by decide) rfl (isData_loopHeap (by decide))
    (by decide)).mpr (by decide)

/-- A reference before the last value makes that value disappear. -/
theorem graphRoundTrips_fails :
    ¬ GraphRoundTrips loopLibrary (fun _ _ => blankValue) (fun _ => blankValue) 8
      (loopState [.boolean true, .table 0]) emptyState [.table 0, .boolean true] := by
  intro h
  have hdata : loopHeap.IsData [.table 0, .boolean true] := isData_loopHeap (by decide)
  obtain ⟨seen, hall⟩ := stream_encodes loopLibrary.objlen hdata
  exact absurd (spared_of_graphRoundTrips (List.append_nil _).symm hall (by decide) h) (by decide)

end Loop

section Nested

/-- A table that holds another one, and a boolean under a key that is no number. -/
def outerTable : LuaTable where
  entries := [(.number (LuaNumber.ofInt 1), .table 1), (.boolean true, .boolean false)]
  metatable := none
  distinct := by decide
  keys := by decide
  values := by decide

def innerTable : LuaTable where
  entries := [(.number (LuaNumber.ofInt 1), .boolean true)]
  metatable := none
  distinct := List.pairwise_singleton _ _
  keys := by decide
  values := by decide

def nestedHeap : LuaHeap where
  tables := fun a => if a = 0 then some outerTable else if a = 1 then some innerTable else none
  closures := fun _ => none
  fresh := 2
  bounded := by
    intro a ha
    rw [if_neg (Nat.ne_of_gt (Nat.lt_of_lt_of_le Nat.two_pos ha)), if_neg (Nat.ne_of_gt ha)]

def nestedState (stack : List LuaValue) : LuaState := ⟨stack, nestedHeap, []⟩

theorem isData_nestedHeap : nestedHeap.IsData [.table 0, .boolean true] := by
  have hreachable : ∀ a, nestedHeap.Reachable [.table 0, .boolean true] a → a = 0 ∨ a = 1 := by
    intro a ha
    induction ha with
    | root hmem => exact .inl (by simpa using hmem)
    | step _ ht hmem ih =>
      rcases ih with rfl | rfl
      · cases ht
        exact .inr (by simpa [LuaTable.elements, outerTable] using hmem)
      · cases ht
        simp [LuaTable.elements, innerTable] at hmem
  refine ⟨by decide, fun a ha => ?_⟩
  rcases hreachable a ha with rfl | rfl
  · exact ⟨outerTable, rfl, rfl, by decide⟩
  · exact ⟨innerTable, rfl, rfl, by decide⟩

end Nested

end Casting
