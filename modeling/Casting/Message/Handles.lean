import Casting.Message.Functions

/-!
# Userdata in messages

A userdata is written as the name and the values that its `__save` returns, and read as what the
`__load` of that name makes of these values, which may be userdata again.  `write_value` leaves
what `__save` returned on the stack, so this is about userdata that are found by counting from the
bottom: those that `lua_newmessage` is given and those that a `__save` returns, not those inside
tables and functions.
-/

namespace Casting

open Forest

/-- `__save` returns this name for a userdata and these values, and the `__load` of that name
raises no error when it is called with as many. -/
structure LuaLibrary.SavesAs (lib : LuaLibrary) (a : Address) (name : List Byte)
    (vs : List LuaValue) : Prop where
  saves : ∃ save, lib.saver a = some save ∧
    lib.call save [.userdata a] = some (.string name :: vs)
  loads : ∀ vs', vs'.length = vs.length → ∃ results, lib.call (lib.loader name) vs' = some results

section Relation

variable (h : LuaHeap) (lib : LuaLibrary)

mutual

/-- From position `i` on, `cs` stands for a value that may be a userdata. -/
inductive Sends : Visited → ℕ → LuaValue → List Content → Visited → Prop
  | value {seen seen' : Visited} {i : ℕ} {v : LuaValue} {cs : List Content} :
      Ships h lib seen i v cs seen' → Sends seen i v cs seen'
  | userdata {seen seen' : Visited} {i : ℕ} {a : Address} {name : List Byte} {vs : List LuaValue}
      {cs : List Content} : lib.SavesAs a name vs → SendsAll seen (i + 1) vs cs seen' →
      Sends seen i (.userdata a) (.userdata (BitVec.ofNat 32 vs.length) name :: cs) seen'

inductive SendsAll : Visited → ℕ → List LuaValue → List Content → Visited → Prop
  | nil {seen : Visited} {i : ℕ} : SendsAll seen i [] [] seen
  | cons {seen seen' seen'' : Visited} {i : ℕ} {v : LuaValue} {vs : List LuaValue}
      {cs cs' : List Content} :
      Sends seen i v cs seen' → SendsAll seen' (i + cs.length) vs cs' seen'' →
      SendsAll seen i (v :: vs) (cs ++ cs') seen''

end

/-- A value that can be sent: without userdata inside, or a userdata whose `__save` returns values
that can be sent. -/
inductive Sendable : LuaValue → Prop
  | value {v : LuaValue} : h.IsPortable lib [v] → Sendable v
  | userdata {a : Address} {name : List Byte} {vs : List LuaValue} : lib.SavesAs a name vs →
      (∀ v ∈ vs, Sendable v) → Sendable (.userdata a)

end Relation

variable {h : LuaHeap} {lib : LuaLibrary}

theorem sends_induction
    {P : Visited → ℕ → LuaValue → List Content → Visited → Prop}
    {Q : Visited → ℕ → List LuaValue → List Content → Visited → Prop}
    (value : ∀ seen seen' i v cs, Ships h lib seen i v cs seen' → P seen i v cs seen')
    (userdata : ∀ seen seen' i a name vs cs, lib.SavesAs a name vs →
      SendsAll h lib seen (i + 1) vs cs seen' → Q seen (i + 1) vs cs seen' → P seen i
        (.userdata a) (.userdata (BitVec.ofNat 32 vs.length) name :: cs) seen')
    (nil : ∀ seen i, Q seen i [] [] seen)
    (cons : ∀ seen seen' seen'' i v vs cs cs', P seen i v cs seen' →
      Q seen' (i + cs.length) vs cs' seen'' → Q seen i (v :: vs) (cs ++ cs') seen'') :
    (∀ seen i v cs seen', Sends h lib seen i v cs seen' → P seen i v cs seen') ∧
      ∀ seen i vs cs seen', SendsAll h lib seen i vs cs seen' → Q seen i vs cs seen' := by
  constructor
  · intro seen i v cs seen' hv
    exact @Sends.rec h lib (fun seen i v cs seen' _ => P seen i v cs seen')
      (fun seen i vs cs seen' _ => Q seen i vs cs seen') (fun hv => value _ _ _ _ _ hv)
      (fun hsaves hall ih => userdata _ _ _ _ _ _ _ hsaves hall ih) (nil _ _)
      (fun _ _ ih ih' => cons _ _ _ _ _ _ _ _ ih ih') seen i v cs seen' hv
  · intro seen i vs cs seen' hall
    exact @SendsAll.rec h lib (fun seen i v cs seen' _ => P seen i v cs seen')
      (fun seen i vs cs seen' _ => Q seen i vs cs seen') (fun hv => value _ _ _ _ _ hv)
      (fun hsaves hall ih => userdata _ _ _ _ _ _ _ hsaves hall ih) (nil _ _)
      (fun _ _ ih ih' => cons _ _ _ _ _ _ _ _ ih ih') seen i vs cs seen' hall

section Streams

variable {seen seen' : Visited} {i : ℕ} {v : LuaValue} {vs : List LuaValue} {cs : List Content}

theorem sendsAll_exists
    (hvs : ∀ v ∈ vs, ∀ seen i, ∃ cs seen', Sends h lib seen i v cs seen') (seen : Visited) (i : ℕ) :
    ∃ cs seen', SendsAll h lib seen i vs cs seen' := by
  induction vs generalizing seen i with
  | nil => exact ⟨[], seen, .nil⟩
  | cons v vs ih =>
    obtain ⟨cs, seen', hv⟩ := hvs v List.mem_cons_self seen i
    obtain ⟨cs', seen'', hrest⟩ :=
      ih (fun u hu => hvs u (List.mem_cons_of_mem v hu)) seen' (i + cs.length)
    exact ⟨cs ++ cs', seen'', .cons hv hrest⟩

theorem Sendable.sends (hv : Sendable h lib v) (seen : Visited) (i : ℕ) :
    ∃ cs seen', Sends h lib seen i v cs seen' := by
  induction hv generalizing seen i with
  | value hportable =>
    obtain ⟨cs, seen', hships⟩ := hportable.ships List.mem_cons_self seen i
    exact ⟨cs, seen', .value hships⟩
  | userdata hsaves _ ih =>
    obtain ⟨cs, seen', hall⟩ := sendsAll_exists ih seen (i + 1)
    exact ⟨_, seen', .userdata hsaves hall⟩

private theorem sends_trees :
    (∀ seen i v cs seen', Sends h lib seen i v cs seen' → cs.length < 2 ^ 31 →
        Trees Content.arity 1 cs) ∧
      ∀ seen i vs cs seen', SendsAll h lib seen i vs cs seen' → cs.length < 2 ^ 31 →
        Trees Content.arity vs.length cs := by
  apply sends_induction
  case value =>
    intro seen seen' i v cs hv hsmall
    have hall : ShipsAll h lib seen i [v] (cs ++ []) seen' := .cons hv .nil
    rw [List.append_nil] at hall
    exact hall.trees hsmall
  case userdata =>
    intro seen seen' i a name vs cs _ _ ih hsmall
    rw [List.length_cons] at hsmall
    have htrees := ih (by omega)
    have hle := htrees.length_le
    have harity : (Content.userdata (BitVec.ofNat 32 vs.length) name).arity = vs.length :=
      toInt_ofNat_small (by omega)
    have hnode := Trees.node harity htrees .nil
    rwa [List.append_nil] at hnode
  case nil => exact fun _ _ _ => .nil
  case cons =>
    intro seen seen' seen'' i v vs cs cs' ih ih' hsmall
    rw [List.length_append] at hsmall
    rw [List.length_cons, Nat.add_comm]
    exact (ih (by omega)).append (ih' (by omega))

theorem SendsAll.trees (hall : SendsAll h lib seen i vs cs seen') (hsmall : cs.length < 2 ^ 31) :
    Trees Content.arity vs.length cs := sends_trees.2 _ _ _ _ _ hall hsmall

end Streams

/-! ## Writing -/

/-- A walk writes this stream, and above what was on the stack there may be more. -/
def WalksOver (walked : Option Walk) (L : LuaState) (cs : List Content) (seen : Visited) : Prop :=
  ∃ left, walked = some ⟨cs.map some, seen, 0, { L with stack := left ++ L.stack }⟩

section Write

variable {seen seen' : Visited} {i : ℕ} {v : LuaValue} {vs : List LuaValue} {cs : List Content}
  {L : LuaState} {idx : ℤ} {a : Address} {name : List Byte} {fuel : ℕ}

theorem savedHeader_eq (hname : name.length < 2 ^ 31) (n : ℕ) :
    savedHeader name n = .userdata (BitVec.ofNat 32 n) name := by
  rw [savedHeader, toNat_ofNat_of_lt hname, List.take_length, BitVec.ofInt_natCast]

variable (seen i) in
/-- The userdata case of `write_value`, up to the loop over the values that `__save` returned. -/
theorem walkValue_userdata (hidx : 0 < idx) (hv : L.value idx = some (.userdata a))
    (hsaves : lib.SavesAs a name vs) (hname : name.length < 2 ^ 31) (fuel : ℕ) :
    ∃ L', L'.heap = L.heap ∧ L'.metas = L.metas ∧
      L'.stack = vs.reverse ++ .string name :: L.stack ∧
      walkValue lib (fuel + 1) seen i L idx =
        (walkSaved (walkValue lib fuel) vs.length (luaGettop L' - vs.length + 1) seen (i + 1)
          L').map (Walk.under (some (.userdata (BitVec.ofNat 32 vs.length) name))) := by
  obtain ⟨save, hsaver, hcall⟩ := hsaves.saves
  have hpush : luaPushvalue (L.push save) idx = some ((L.push save).push (.userdata a)) := by
    rw [luaPushvalue, LuaState.value_of_bottom hidx ⟨[save], rfl⟩ hv]
    rfl
  have hcalled : luaCall ((L.push save).push (.userdata a)) lib 1 =
      some (.string name :: vs, L) := by
    have hargument :
        lib.call save [LuaValue.userdata a].reverse = some (.string name :: vs) := hcall
    show (lib.call save [LuaValue.userdata a].reverse).map _ = _
    rw [hargument]
    rfl
  generalize hL' : ({ L with stack := (.string name :: vs).reverse ++ L.stack } : LuaState) = L'
  have hstack : L'.stack = vs.reverse ++ .string name :: L.stack := by
    rw [← hL', List.reverse_cons, List.append_assoc]
    rfl
  have htop : luaGettop ((L.push save).push (.userdata a)) - 2 = luaGettop L := by
    simp only [luaGettop, LuaState.push, List.length_cons]
    omega
  have htop' : luaGettop L' = luaGettop L + 1 + vs.length := by
    rw [luaGettop, luaGettop, hstack, List.length_append, List.length_reverse, List.length_cons]
    push_cast
    ring
  have hvalue : L'.value (luaGettop L + 1) = some (.string name) := by
    rw [LuaState.value_of_pos (by rw [luaGettop]; omega), hstack, luaGettop]
    simp
  have hcount : luaGettop L' - (luaGettop L + 1) = vs.length := by omega
  have hfirst : luaGettop L + 2 = luaGettop L' - vs.length + 1 := by omega
  refine ⟨L', by rw [← hL'], by rw [← hL'], hstack, ?_⟩
  simp only [walkValue, hv, hsaver, hpush, hcalled, Option.bind_eq_bind, Option.bind_some, htop,
    hL', hcount, luaTolstring_string hvalue, hfirst, Int.toNat_natCast, savedHeader_eq hname]
  rw [Option.map_eq_bind]
  rfl

variable (h lib) in
private theorem sends_walksOver [lib.StackGrows] :
    (∀ seen i v cs seen', Sends h lib seen i v cs seen' → ∀ (L : LuaState) (idx : ℤ) (fuel : ℕ),
        L.heap = h → 0 < idx → L.value idx = some v → streamSize cs < 2 ^ 31 → cs.length < fuel →
        WalksOver (walkValue lib fuel seen i L idx) L cs seen') ∧
      ∀ seen i vs cs seen', SendsAll h lib seen i vs cs seen' → ∀ (L : LuaState) (idx : ℤ)
        (fuel : ℕ), L.heap = h → 0 < idx →
        (∀ (j : ℕ) v, vs[j]? = some v → L.value (idx + j) = some v) → streamSize cs < 2 ^ 31 →
        cs.length < fuel →
        WalksOver (walkSaved (walkValue lib fuel) vs.length idx seen i L) L cs seen' := by
  apply sends_induction
  case value =>
    intro seen seen' i v cs hv L idx fuel hheap hidx hvalue hsmall hfuel
    exact ⟨[], walkValue_covers lib h fuel L idx v _ _ _ _ _ hheap hvalue hv.walks
      (by rwa [List.length_map])⟩
  case userdata =>
    intro seen seen' i a name vs cs hsaves _ ih L idx fuel hheap hidx hvalue hsmall hfuel
    obtain ⟨fuel, rfl⟩ := Nat.exists_eq_succ_of_ne_zero (Nat.ne_of_gt (Nat.zero_lt_of_lt hfuel))
    have hpayload := Content.length_payload_le_size (.userdata (BitVec.ofNat 32 vs.length) name)
    rw [streamSize_cons] at hsmall
    rw [List.length_cons] at hfuel
    change name.length + 4 ≤ _ at hpayload
    obtain ⟨L', hheap', hmetas', hstack', hwalk⟩ :=
      walkValue_userdata seen i hidx hvalue hsaves (by omega) fuel
    obtain ⟨left, hloop⟩ := ih L' (luaGettop L' - vs.length + 1) fuel (hheap'.trans hheap)
      (by rw [luaGettop, hstack', List.length_append, List.length_reverse]; omega)
      (fun _ _ hu => value_argument hstack' hu) (by omega) (by omega)
    refine ⟨left ++ (vs.reverse ++ [.string name]), ?_⟩
    rw [hwalk, hloop, hheap', hmetas', hstack', List.append_assoc, List.append_assoc]
    rfl
  case nil => exact fun _ _ _ _ _ _ _ _ _ _ => ⟨[], rfl⟩
  case cons =>
    intro seen seen' seen'' i v vs cs cs' ih ih' L idx fuel hheap hidx hvs hsmall hfuel
    rw [streamSize_append] at hsmall
    rw [List.length_append] at hfuel
    obtain ⟨hv, hvs'⟩ := value_cons hvs
    obtain ⟨left, hvalue⟩ := ih L idx fuel hheap hidx hv (by omega) (by omega)
    obtain ⟨left', hloop⟩ := ih' { L with stack := left ++ L.stack } (idx + 1) fuel hheap (by omega)
      (fun j u hu => LuaState.value_of_bottom (by omega) ⟨left, rfl⟩ (hvs' j u hu)) (by omega)
      (by omega)
    refine ⟨left' ++ left, ?_⟩
    simp only [List.length_cons, walkSaved, hvalue, Option.bind_eq_bind, Option.bind_some,
      Walk.contents, reduceOption_some, hloop, Walk.append, List.map_append, List.append_assoc]

theorem SendsAll.luaNewmessage [lib.StackGrows] {rest : List LuaValue}
    (hstack : L.stack = vs.reverse ++ rest)
    (hall : SendsAll L.heap lib (fun _ => none) 0 vs cs seen)
    (hsmall : sizeofMessage + streamSize cs < 2 ^ 31) (mem : ℕ → Block) (buf : Block) {slack : ℕ}
    (hfits : 4 * repeats cs ≤ slack) (hfuel : cs.length < fuel) :
    ∃ left, Casting.luaNewmessage lib mem buf slack fuel L vs.length =
      some (messageOf cs vs.length, { L with stack := (left ++ L.stack).drop vs.length }) := by
  have hlength := length_le_streamSize cs
  obtain ⟨left, hwalk⟩ := (sends_walksOver L.heap lib).2 _ _ _ _ _ hall L
    (luaGettop L - vs.length + 1) fuel rfl
    (by rw [luaGettop, hstack, List.length_append, List.length_reverse]; omega)
    (fun _ _ hv => value_argument hstack hv) (by omega) hfuel
  have hcontents : Walk.contents
      ⟨cs.map some, seen, 0, { L with stack := left ++ L.stack }⟩ = cs := reduceOption_some cs
  have hmessage : Walk.message ⟨cs.map some, seen, 0, { L with stack := left ++ L.stack }⟩ =
      messageOf cs vs.length := by
    rw [Walk.message, hcontents, (hall.trees (by omega)).roots_eq, messageOf, marked_zero]
    rfl
  refine ⟨left, ?_⟩
  rw [luaNewmessage_of_walk (show walkValues lib fuel L vs.length = _ from hwalk)
    (by rwa [hcontents]), hcontents, if_pos hfits, hmessage]
  rfl

end Write

/-! ## What arrives -/

section Arrivals

variable (h : LuaHeap) (lib : LuaLibrary) (closures : Address → Option Closure)
  (R : Address → Address → Prop)

mutual

/-- A copy, or what a `__load` makes of the values that have arrived for a userdata. -/
inductive Arrives : LuaValue → LuaValue → Prop
  | value {v v' : LuaValue} : Copied h closures R v v' → Arrives v v'
  | userdata {a : Address} {name : List Byte} {vs vs' results : List LuaValue} :
      lib.SavesAs a name vs → ArrivesAll vs vs' →
      lib.call (lib.loader name) vs' = some results → Arrives (.userdata a) (results.headD .nil)

inductive ArrivesAll : List LuaValue → List LuaValue → Prop
  | nil : ArrivesAll [] []
  | cons {v v' : LuaValue} {vs vs' : List LuaValue} : Arrives v v' → ArrivesAll vs vs' →
      ArrivesAll (v :: vs) (v' :: vs')

end

end Arrivals

section Arrives

variable {closures closures' : Address → Option Closure} {R R' : Address → Address → Prop}
  {v v' : LuaValue} {vs vs' : List LuaValue}

private theorem arrives_mono (hR : ∀ a a', R a a' → R' a a')
    (hclosures : ∀ a c, closures a = some c → closures' a = some c) :
    (∀ v v', Arrives h lib closures R v v' → Arrives h lib closures' R' v v') ∧
      ∀ vs vs', ArrivesAll h lib closures R vs vs' → ArrivesAll h lib closures' R' vs vs' := by
  constructor
  · intro v v' hv
    exact @Arrives.rec h lib closures R (fun v v' _ => Arrives h lib closures' R' v v')
      (fun vs vs' _ => ArrivesAll h lib closures' R' vs vs')
      (fun hv => .value (hv.mono hR hclosures)) (fun hsaves _ hload ih => .userdata hsaves ih hload)
      .nil (fun _ _ ih ih' => .cons ih ih') v v' hv
  · intro vs vs' hvs
    exact @ArrivesAll.rec h lib closures R (fun v v' _ => Arrives h lib closures' R' v v')
      (fun vs vs' _ => ArrivesAll h lib closures' R' vs vs')
      (fun hv => .value (hv.mono hR hclosures)) (fun hsaves _ hload ih => .userdata hsaves ih hload)
      .nil (fun _ _ ih ih' => .cons ih ih') vs vs' hvs

theorem Arrives.mono (hv : Arrives h lib closures R v v') (hR : ∀ a a', R a a' → R' a a')
    (hclosures : ∀ a c, closures a = some c → closures' a = some c) :
    Arrives h lib closures' R' v v' := (arrives_mono hR hclosures).1 v v' hv

theorem ArrivesAll.mono (hvs : ArrivesAll h lib closures R vs vs') (hR : ∀ a a', R a a' → R' a a')
    (hclosures : ∀ a c, closures a = some c → closures' a = some c) :
    ArrivesAll h lib closures' R' vs vs' := (arrives_mono hR hclosures).2 vs vs' hvs

theorem ArrivesAll.length_eq (hvs : ArrivesAll h lib closures R vs vs') :
    vs'.length = vs.length := by
  induction vs generalizing vs' with
  | nil =>
    cases hvs
    rfl
  | cons v vs ih =>
    cases hvs with
    | cons _ hvs => rw [List.length_cons, List.length_cons, ih hvs]

end Arrives

/-! ## Reading -/

inductive Decodes (decode : ValueReader) : ℕ → LuaState × Cursor → LuaState × Cursor → Prop
  | done (s : LuaState × Cursor) : Decodes decode 0 s s
  | next {n : ℕ} {s s' s'' : LuaState × Cursor} :
      decode s.1 s.2 = some (ReturnCode.success.toInt, s') → Decodes decode n s' s'' →
      Decodes decode (n + 1) s s''

section Decodes

variable {decode : ValueReader} {n k fuel : ℕ} {s s' : LuaState × Cursor} {m : Message} {top : ℤ}

theorem Decodes.decodeArguments (hdecodes : Decodes decode n s s') :
    Casting.decodeArguments decode n s.1 s.2 = some s' := by
  induction hdecodes with
  | done s => rfl
  | next hdecode _ ih =>
    rw [Casting.decodeArguments, hdecode]
    exact ih

theorem Decodes.decodeLoop (hdecodes : Decodes (decodeValue lib m top fuel) n s s')
    (hend : decodeValue lib m top fuel s'.1 s'.2 = some (-1, s')) (hk : n < k) :
    Casting.decodeLoop lib m top fuel k s.1 s.2 = some s'.1 := by
  induction hdecodes generalizing k with
  | done s =>
    obtain ⟨k, rfl⟩ := Nat.exists_eq_succ_of_ne_zero (Nat.ne_of_gt hk)
    rw [Casting.decodeLoop, hend]
    rfl
  | next hdecode _ ih =>
    obtain ⟨k, rfl⟩ := Nat.exists_eq_succ_of_ne_zero (Nat.ne_of_gt (Nat.zero_lt_of_lt hk))
    rw [Casting.decodeLoop, hdecode]
    exact ih hend (Nat.lt_of_succ_lt_succ hk)

end Decodes

theorem decodeBody_userdata {decode : ValueReader} {top count : ℤ} {v : Value} {L : LuaState}
    {cur : Cursor} {upvals : Word} {name : List Byte}
    (hv : v.content? = some (.userdata upvals name)) :
    decodeBody lib decode top count v L cur .tUserdata =
      (decodeArguments decode upvals.toInt.toNat (L.push (lib.loader name)) cur).bind fun p =>
        (luaCall p.1 lib upvals.toInt.toNat).map fun q => (q.2.push (q.1.headD .nil), p.2) := by
  have hvalueType := Value.content?_valueType hv
  rw [Value.content?_tUserdata hvalueType] at hv
  obtain ⟨name', hpayload, hcontent⟩ := Option.map_eq_some_iff.mp hv
  cases hcontent
  simp only [decodeBody, hpayload, Option.bind_eq_bind, Option.bind_some, Option.map_eq_bind]
  rfl

theorem luaCall_loads {L : LuaState} {f : LuaValue} {args stack results : List LuaValue}
    (hstack : L.stack = args.reverse ++ f :: stack) (hcall : lib.call f args = some results) :
    luaCall L lib args.length = some (results, { L with stack := stack }) := by
  have hdrop : L.stack.drop args.length = f :: stack := by
    rw [hstack, List.drop_left' List.length_reverse]
  have htake : (L.stack.take args.length).reverse = args := by
    rw [hstack, List.take_left' List.length_reverse, List.reverse_reverse]
  unfold luaCall
  rw [hdrop]
  simp only [htake, hcall, Option.map_some]

section Read

variable {cs : List Content} {top : ℤ} {side : Option Address} {m : Message} {limit : ℕ}

variable (h lib) in
/-- What stands for a value is read as what arrives for it. -/
private theorem sends_arrive [lib.StackGrows] (hcarries : Carries m cs limit)
    (hread : ∀ i < cs.length, streamSize (cs.take i) < limit)
    (hneeded : ∀ ref, Content.reference ref ∈ cs → side ≠ none) :
    (∀ seen i v es seen', Sends h lib seen i v es seen' → ∀ (fuel : ℕ) (L : LuaState)
        (ρ : Renaming) (C : Finished), es <+: cs.drop i → es.length < fuel →
        Tracks cs top side seen ρ i L → L.heap.Keeps C →
        ∃ v' L' ρ' C', decodeValue lib m top fuel L (cursorAt cs i) =
            some (ReturnCode.success.toInt, L', cursorAt cs (i + es.length)) ∧
          L'.stack = v' :: L.stack ∧ Arrives h lib C' ρ'.Rel v v' ∧
          Advances h cs top side (fun _ => False) ρ C L seen' (i + es.length) ρ' C' L'
            (fun b => side = some b)) ∧
      ∀ seen i vs es seen', SendsAll h lib seen i vs es seen' → ∀ (fuel : ℕ) (L : LuaState)
        (ρ : Renaming) (C : Finished), es <+: cs.drop i → es.length < fuel →
        Tracks cs top side seen ρ i L → L.heap.Keeps C →
        ∃ vs' L' ρ' C', Decodes (decodeValue lib m top fuel) vs.length (L, cursorAt cs i)
            (L', cursorAt cs (i + es.length)) ∧
          L'.stack = vs'.reverse ++ L.stack ∧ ArrivesAll h lib C' ρ'.Rel vs vs' ∧
          Advances h cs top side (fun _ => False) ρ C L seen' (i + es.length) ρ' C' L'
            (fun b => side = some b) := by
  apply sends_induction
  case value =>
    intro seen seen' i v es hv fuel L ρ C hes hfuel htracks hkeeps
    obtain ⟨v', L', ρ', C', hdecode, hstack', hcopied, -, hadv⟩ :=
      decodeValue_remakes hcarries hread hneeded fuel L v es i seen seen' ρ C hv hes hfuel htracks
        hkeeps
    exact ⟨v', L', ρ', C', hdecode, hstack', .value hcopied, hadv⟩
  case userdata =>
    intro seen seen' i a name vs es hsaves hall ih fuel L ρ C hes hfuel htracks hkeeps
    obtain ⟨fuel, rfl⟩ := Nat.exists_eq_succ_of_ne_zero (Nat.ne_of_gt (Nat.zero_lt_of_lt hfuel))
    have hc := getElem?_of_drop hes
    have hlt := (List.getElem?_eq_some_iff.mp hc).1
    have hlength := length_le_streamSize cs
    have hsmall := hcarries.small
    have hle := hes.length_le
    rw [List.length_cons, List.length_drop] at hle
    rw [List.length_cons] at hfuel
    obtain ⟨w, hw, -, hdecode⟩ := hcarries.decodeValue lib top hc (hread i hlt) fuel L
    rw [← List.singleton_append] at hes
    obtain ⟨vs', L₁, ρ', C', hdecodes, hstack₁, harrives, hadv⟩ :=
      ih fuel (L.push (lib.loader name)) ρ C (prefix_drop_append hes).2 (by omega)
        (htracks.push _) hkeeps
    obtain ⟨results, hcall⟩ := hsaves.loads vs' harrives.length_eq
    have hcalled := luaCall_loads hstack₁ hcall
    rw [harrives.length_eq] at hcalled
    have hupvals : (BitVec.ofNat 32 vs.length).toInt.toNat = vs.length := by
      have hvs := (hall.trees (by omega)).length_le
      rw [toInt_ofNat_small (by omega), Int.toNat_natCast]
    have hpos : i + 1 + es.length = i + (es.length + 1) := by omega
    rw [hpos] at hdecodes hadv
    refine ⟨results.headD .nil, { L₁ with stack := results.headD .nil :: L.stack }, ρ', C', ?_, rfl,
      .userdata hsaves harrives hcall, hadv.metas, ?_, hadv.keeps, hadv.remade⟩
    · rw [hdecode]
      show Option.map _ (decodeBody _ _ _ _ _ _ _ .tUserdata) = _
      rw [decodeBody_userdata hw, hupvals, hdecodes.decodeArguments, Option.bind_some, hcalled]
      rfl
    · exact hadv.tracks.later le_rfl le_rfl
        (fun s hs => htracks.value_top hs ⟨[results.headD .nil], rfl⟩) fun _ _ => rfl
  case nil =>
    exact fun _ _ _ L ρ C _ _ htracks hkeeps => ⟨[], L, ρ, C, .done _, rfl, .nil, rfl, htracks,
      hkeeps, Remade.of_kept le_rfl (fun _ _ _ => rfl) fun _ _ _ => rfl⟩
  case cons =>
    intro seen seen' seen'' i v vs es es' ih ih' fuel L ρ C hes hfuel htracks hkeeps
    rw [List.length_append] at hfuel
    obtain ⟨hesv, hesr⟩ := prefix_drop_append hes
    obtain ⟨v', L₁, ρ₁, C₁, hdecode, hstack₁, harrives₁, hadv₁⟩ :=
      ih fuel L ρ C hesv (by omega) htracks hkeeps
    obtain ⟨vs', L', ρ', C', hdecodes, hstack', harrives', hadv'⟩ :=
      ih' fuel L₁ ρ₁ C₁ hesr (by omega) hadv₁.tracks hadv₁.keeps
    rw [Nat.add_assoc, ← List.length_append] at hdecodes hadv'
    refine ⟨v' :: vs', L', ρ', C', .next hdecode hdecodes, ?_,
      .cons (harrives₁.mono hadv'.remade.grows hadv'.remade.finishes) harrives',
      hadv₁.trans hadv' fun b hb => htracks.side_lt hb⟩
    rw [hstack', hstack₁, List.reverse_cons, List.append_assoc]
    rfl

end Read

/-! ## Round trips -/

/-- What arrives for the values: everything with an identity that is a copy is from `base` on,
tables correspond one to one, and there are no metatables. -/
def LuaHeap.ArrivesTo (h : LuaHeap) (lib : LuaLibrary) (vs : List LuaValue) (H : LuaHeap)
    (base : Address) (vs' : List LuaValue) : Prop :=
  ∃ R : Address → Address → Prop, Relator.BiUnique R ∧
    ArrivesAll h lib (fun a => if base ≤ a then H.closures a else none) R vs vs' ∧
    ∀ a a', R a a' → base ≤ a' ∧ ∃ t t', h.tables a = some t ∧ H.tables a' = some t' ∧
      t.metatable = none ∧ t'.metatable = none ∧
      CopiedAll h (fun a => if base ≤ a then H.closures a else none) R t.elements t'.elements

/-- With enough fuel, `lua_decodemessage` of the message made of the values on top of one stack puts
on another what is to arrive for them, and changes the stack below as `stackBelow` says. -/
def UserdataSurvive (lib : LuaLibrary) (mem : ℕ → Block) (buf : Block) (slack : ℕ)
    (L R : LuaState) (vs : List LuaValue) : Prop :=
  ∃ N, ∀ fuel ≥ N, ∃ m L' R' vs',
    luaNewmessage lib mem buf slack fuel L vs.length = some (m, L') ∧
      L'.heap = L.heap ∧ (∃ left, L'.stack = (left ++ L.stack).drop vs.length) ∧
      luaDecodemessage lib m fuel R =
        (if m.refs = 0 ∨ R.stack ≠ [] then some ((vs.length : ℤ), R') else none) ∧
      R'.stack = vs'.reverse ++ stackBelow m R ∧ R.Extends R' ∧
      L.heap.ArrivesTo lib vs R'.heap R.heap.fresh vs'

theorem decodeLoop_arrives [lib.StackGrows] (R : LuaState) {vs : List LuaValue} {cs : List Content}
    {seen : Visited} (hall : SendsAll h lib (fun _ => none) 0 vs cs seen)
    (hsmall : sizeofMessage + streamSize cs < 2 ^ 31)
    (hread : ∀ i < cs.length, streamSize (cs.take i) < streamSize cs - 4 * repeats cs) (n : ℕ)
    {fuel : ℕ} (hfuel : cs.length < fuel) :
    ∃ (vs' : List LuaValue) (R' : LuaState),
      decodeLoop lib (messageOf cs n) (luaGettop (decodeStart (messageOf cs n) R)) fuel fuel
        (decodeStart (messageOf cs n) R) msgCursorInit = some R' ∧
      R'.stack = vs'.reverse ++ (decodeStart (messageOf cs n) R).stack ∧ R.Extends R' ∧
      h.ArrivesTo lib vs R'.heap R.heap.fresh vs' := by
  have hlength := length_le_streamSize cs
  have hle := (hall.trees (by omega)).length_le
  have hcarries := carries_messageOf (n := n) hsmall
  obtain ⟨side, hneeded, hside, htracks⟩ :=
    tracks_decodeStart_new (fun ref hmem => refs_messageOf_ne_zero (n := n) hsmall hmem) R
  obtain ⟨vs', R', ρ, C, hdecodes, hstack', harrives, hadv⟩ :=
    (sends_arrive h lib hcarries hread hneeded).2 _ _ _ _ _ hall fuel _ _ (fun _ => none)
      (List.prefix_refl cs) hfuel htracks fun _ _ hnone => by cases hnone
  obtain ⟨fuel, rfl⟩ := Nat.exists_eq_succ_of_ne_zero (Nat.ne_of_gt (Nat.zero_lt_of_lt hfuel))
  have hend := hcarries.decodeValue_end lib (luaGettop (decodeStart (messageOf cs n) R))
    (i := cs.length) (by rw [List.take_length]; exact Nat.sub_le _ _) fuel R'
  rw [Nat.zero_add] at hdecodes
  obtain ⟨hextends, hfinished, hmade⟩ := hadv.of_decodeStart hside
  exact ⟨vs', R', hdecodes.decodeLoop hend (lt_of_le_of_lt hle hfuel), hstack', hextends, ρ.Rel,
    hadv.tracks.biUnique, harrives.mono (fun _ _ hR => hR) hfinished, hmade⟩

section Channel

/-- `CASTING_CHANNEL`. -/
def castingChannel : List Byte :=
  [0x63, 0x61, 0x73, 0x74, 0x69, 0x6e, 0x67, 0x2e, 0x63, 0x68, 0x61, 0x6e, 0x6e, 0x65, 0x6c]

/-- `lua_tonumber`; `parse` is the conversion of a string. -/
def luaTonumber (parse : List Byte → LuaNumber) : LuaValue → LuaNumber
  | .number n => n
  | .string s => parse s
  | _ => 0

/-- `luac_save` on handles with these channel ids; `get_channel` raises an error on other values. -/
def luacSave (cid : Address → Option LuaNumber) : List LuaValue → Option (List LuaValue)
  | .userdata a :: _ => (cid a).map fun n => [.string castingChannel, .number n]
  | _ => none

/-- `luac_load`, where `pushchannel` makes a handle of an id if `channel_ref` finds the channel. -/
def luacLoad (parse : List Byte → LuaNumber) (pushchannel : LuaNumber → Option Address)
    (args : List LuaValue) : List LuaValue :=
  match pushchannel (luaTonumber parse (args.headD .nil)) with
  | some a => [.userdata a]
  | none => [.nil]

structure LuaLibrary.OpensChannels (lib : LuaLibrary) (cid : Address → Option LuaNumber)
    (parse : List Byte → LuaNumber) (pushchannel : LuaNumber → Option Address) : Prop where
  save : ∀ a n, cid a = some n → ∃ save, lib.saver a = some save ∧ lib.call save = luacSave cid
  load : ∀ args, lib.call (lib.loader castingChannel) args = some (luacLoad parse pushchannel args)

variable {cid : Address → Option LuaNumber} {parse : List Byte → LuaNumber}
  {pushchannel : LuaNumber → Option Address} {a : Address} {n : LuaNumber}

theorem LuaLibrary.OpensChannels.savesAs (hopens : lib.OpensChannels cid parse pushchannel)
    (ha : cid a = some n) : lib.SavesAs a castingChannel [.number n] := by
  obtain ⟨save, hsaver, hcall⟩ := hopens.save a n ha
  refine ⟨⟨save, hsaver, ?_⟩, fun args _ => ⟨_, hopens.load args⟩⟩
  rw [hcall, luacSave, ha]
  rfl

theorem isPortable_scalar {v : LuaValue} {c : Content} (hc : v.scalar = some c) :
    h.IsPortable lib [v] := by
  have hcontains : ∀ w, h.Contains [v] w → w = v := by
    intro w ⟨r, hr, hpath⟩
    obtain rfl := List.mem_singleton.mp hr
    rcases hpath.cases_head with rfl | ⟨u, hinside, -⟩
    · rfl
    · cases hinside <;> cases hc
  have hscalar : ∀ w, h.Contains [v] w → w.scalar ≠ none := by
    intro w hw
    rw [hcontains w hw, hc]
    exact Option.some_ne_none c
  constructor
  case graph =>
    exact ⟨Set.Finite.subset (Set.finite_singleton v) hcontains,
      fun a ha => (hscalar _ ha rfl).elim, fun a ha => (hscalar _ ha rfl).elim,
      fun a ha => hscalar _ ha rfl⟩
  case kinds =>
    intro w hw
    have hw := hscalar w hw
    cases w <;> first | exact (hw rfl).elim | rfl
  case plain => exact fun a t ha => (hscalar _ ha rfl).elim
  case acyclic => exact fun a ha => (hscalar _ ha rfl).elim
  case loads => exact fun a c ha => (hscalar _ ha rfl).elim

theorem Sends.eq_of_scalar {seen seen' : Visited} {i : ℕ} {v : LuaValue} {c : Content}
    {cs : List Content} (hv : Sends h lib seen i v cs seen') (hc : v.scalar = some c) :
    cs = [c] := by
  cases hv with
  | value hships =>
    cases hships with
    | scalar hc' => rw [Option.some.inj (hc'.symm.trans hc)]
    | _ => cases hc
  | userdata => cases hc

theorem LuaLibrary.OpensChannels.eq_of_savesAs (hopens : lib.OpensChannels cid parse pushchannel)
    (ha : cid a = some n) {name : List Byte} {vs : List LuaValue} (hsaves : lib.SavesAs a name vs) :
    name = castingChannel ∧ vs = [.number n] := by
  obtain ⟨save, hsaver, hcall⟩ := hopens.save a n ha
  obtain ⟨save', hsaver', hsaved⟩ := hsaves.saves
  obtain rfl : save = save' := Option.some.inj (hsaver.symm.trans hsaver')
  rw [hcall, luacSave, ha] at hsaved
  cases hsaved
  exact ⟨rfl, rfl⟩

theorem LuaLibrary.OpensChannels.sendable (hopens : lib.OpensChannels cid parse pushchannel)
    (ha : cid a = some n) : Sendable h lib (.userdata a) := by
  apply Sendable.userdata (hopens.savesAs ha)
  intro v hv
  rw [List.mem_singleton.mp hv]
  exact .value (isPortable_scalar rfl)

/-- A handle arrives as a handle of the same channel, or as nil if the channel is gone. -/
theorem LuaLibrary.OpensChannels.arrives (hopens : lib.OpensChannels cid parse pushchannel)
    (ha : cid a = some n) {closures : Address → Option Closure} {R : Address → Address → Prop}
    {v' : LuaValue} (hv : Arrives h lib closures R (.userdata a) v') :
    v' = ((pushchannel n).map LuaValue.userdata).getD .nil := by
  cases hv with
  | value hcopied =>
    cases hcopied with
    | scalar hc => cases hc
  | userdata hsaves hall hload =>
    obtain ⟨rfl, rfl⟩ := hopens.eq_of_savesAs ha hsaves
    cases hall with
    | cons hnumber hnil =>
      cases hnil
      cases hnumber with
      | value hcopied =>
        cases hcopied with
        | scalar =>
          rw [hopens.load, luacLoad, Option.some.injEq] at hload
          rw [← hload]
          show (match pushchannel n with
            | some a => [LuaValue.userdata a]
            | none => [LuaValue.nil]).headD .nil = _
          cases pushchannel n <;> rfl

/-- Userdata 0 and 3 are handles of channel 7, the second one in another Lua state. -/
def channelIds : Address → Option LuaNumber := fun a =>
  if a = 0 ∨ a = 3 then some (LuaNumber.ofInt 7) else none

def channelLibrary : LuaLibrary where
  checkstack := fun _ _ => true
  numberString := fun _ => []
  objlen := fun _ => 0
  saver := fun a => (channelIds a).map fun _ => .function 1
  loader := fun name => if name = castingChannel then .function 2 else .nil
  call := fun f args =>
    if f = .function 1 then luacSave channelIds args
    else if f = .function 2 then
      some (luacLoad (fun _ => 0) (fun n => if n = LuaNumber.ofInt 7 then some 3 else none) args)
    else none
  chunk := fun _ => none
  chunkError := fun _ => .nil

instance : channelLibrary.StackGrows := ⟨fun _ _ => rfl⟩

theorem opensChannels_channelLibrary :
    channelLibrary.OpensChannels channelIds (fun _ => 0)
      (fun n => if n = LuaNumber.ofInt 7 then some 3 else none) where
  save := by
    intro a n ha
    refine ⟨.function 1, ?_, rfl⟩
    show (channelIds a).map _ = _
    rw [ha]
    rfl
  load := fun _ => rfl

theorem sends_channelLibrary {cs : List Content} {seen : Visited}
    (hall : SendsAll emptyState.heap channelLibrary (fun _ => none) 0
      [.userdata 0, .boolean true] cs seen) :
    cs = [.userdata 1 castingChannel, .number (LuaNumber.ofInt 7), .boolean true] := by
  cases hall with
  | cons hhandle hrest =>
    cases hrest with
    | cons htrue hnil =>
      cases hnil
      obtain rfl := htrue.eq_of_scalar rfl
      cases hhandle with
      | value hships =>
        cases hships with
        | scalar hc => cases hc
      | userdata hsaves hall =>
        obtain ⟨rfl, rfl⟩ := opensChannels_channelLibrary.eq_of_savesAs rfl hsaves
        cases hall with
        | cons hnumber hnil =>
          cases hnil
          obtain rfl := hnumber.eq_of_scalar rfl
          rfl

end Channel

end Casting
