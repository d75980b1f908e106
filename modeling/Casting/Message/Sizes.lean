import Casting.Message.Growth
import Casting.Message.Stream

/-!
# Message sizes

When the `int`s of a builder hold the sizes that they are to hold, so that `msg_new` asks for as
much memory as it fills.  The lengths of strings, functions and names are `size_t`s, and so are
their sums.
-/

namespace Casting

def Content.hasLength : Content → Bool
  | .string _ | .function _ _ | .userdata _ _ => true
  | _ => false

namespace BuilderCall

/-- The items after a call, whatever their lengths: the name of a userdata is the whole of what
`lc_pushuserdata` is called with, not what is left of its length in an `int`. -/
def exact (items : List Item) : BuilderCall → List Item
  | .pushuserdata name _ => items ++ [itemOf (.userdata 0 name)]
  | call => call.spec items

/-- A call that passes on the length it has, converted to the type of the parameter. -/
def Sized (items : List Item) : BuilderCall → Prop
  | .pushuserdata name len => len = BitVec.ofNat 32 name.length
  | call => call.Valid items

end BuilderCall

def exactAll (items : List Item) (calls : List BuilderCall) : List Item :=
  calls.foldl BuilderCall.exact items

def SizedAll (items : List Item) : List BuilderCall → Prop
  | [] => True
  | call :: calls => call.Sized items ∧ SizedAll (call.exact items) calls

/-! ## Calls that may fail -/

abbrev BuilderCalls := List (BuilderCall × Option Block)

/-- The builder after calls, each with what an allocation in it returns. -/
def buildWith (mb : Builder) (calls : BuilderCalls) : Builder :=
  calls.foldl (fun mb call => call.1.apply call.2 mb) mb

/-- Some call returns an error. -/
def Refuses (mb : Builder) : BuilderCalls → Prop
  | [] => False
  | call :: calls => call.1.result call.2 mb < 0 ∨ Refuses (call.1.apply call.2 mb) calls

/-- Some push finds the builder full and gets no memory. -/
def Starves (mb : Builder) : BuilderCalls → Prop
  | [] => False
  | call :: calls =>
      (call.1.isPush = true ∧ mb.Full ∧ call.2 = none) ∨ Starves (call.1.apply call.2 mb) calls

theorem refuses_iff_starves {mb : Builder} {calls : BuilderCalls} :
    Refuses mb calls ↔ Starves mb calls := by
  induction calls generalizing mb with
  | nil => exact Iff.rfl
  | cons call calls ih =>
      simp only [Refuses, Starves, result_neg_iff, ih]

theorem apply_none {mb : Builder} {call : BuilderCall} (block : Block)
    (h : ¬ (call.isPush = true ∧ mb.Full)) :
    call.apply none mb = call.apply (some block) mb := by
  have hnext : ∀ mb' : Builder, ¬ mb'.Full → nextIndex none mb' = nextIndex (some block) mb' := by
    intro mb' hroom
    have hne : mb'.last ≠ mb'.size := hroom
    simp [nextIndex, hne]
  have hpush : ∀ f size (mb' : Builder), ¬ mb'.Full →
      push f size none mb' = push f size (some block) mb' := by
    intro f size mb' hroom
    simp only [push, hnext mb' hroom]
  cases call with
  | setfunction | setuserdata | settable | setmeta => rfl
  | pushreference ref =>
      have hroom : ¬ mb.Full := fun hfull => h ⟨rfl, hfull⟩
      exact congrArg Prod.snd (hpush _ _ _ hroom)
  | _ =>
      have hroom : ¬ mb.Full := fun hfull => h ⟨rfl, hfull⟩
      exact congrArg Prod.snd (hpush _ _ _ hroom)

theorem buildWith_eq {mb : Builder} {calls : BuilderCalls} (block : Block)
    (h : ¬ Starves mb calls) :
    buildWith mb calls = build mb (calls.map fun call => (call.1, call.2.getD block)) := by
  induction calls generalizing mb with
  | nil => rfl
  | cons call calls ih =>
      obtain ⟨hhead, hrest⟩ := not_or.mp h
      obtain ⟨call, alloc⟩ := call
      have hcall : call.apply alloc mb = call.apply (some (alloc.getD block)) mb := by
        cases alloc with
        | none => exact apply_none block fun hpush => hhead ⟨hpush.1, hpush.2, rfl⟩
        | some found => rfl
      have hih := ih hrest
      simp only at hih
      rw [hcall] at hih
      simpa [buildWith, build, hcall] using hih

/-! ## Exact sizes -/

section Exact

variable {items : List Item} {call : BuilderCall} {calls : List BuilderCall}

/-- Only names can be converted to something shorter. -/
theorem BuilderCall.Sized.valid_or (h : call.Sized items) :
    call.Valid items ∧ call.exact items = call.spec items ∨
      ∃ name len, call = .pushuserdata name len ∧ len = BitVec.ofNat 32 name.length := by
  cases call with
  | pushuserdata name len => exact .inr ⟨name, len, rfl, h⟩
  | _ => exact .inl ⟨h, rfl⟩

theorem length_layout_le_exact (hsized : call.Sized items) :
    (layout items).length ≤ (layout (call.exact items)).length := by
  rcases hsized.valid_or with hvalid | ⟨name, len, rfl, -⟩
  · exact hvalid.2 ▸ length_layout_le_spec hvalid.1
  · simp [BuilderCall.exact]

theorem length_layout_le_exactAll (hsized : SizedAll items calls) :
    (layout items).length ≤ (layout (exactAll items calls)).length := by
  induction calls generalizing items with
  | nil => exact le_rfl
  | cons call calls ih => exact (length_layout_le_exact hsized.1).trans (ih hsized.2)

/-- Small names keep their lengths. -/
theorem exact_eq_spec (hsized : call.Sized items)
    (hsmall : (layout (call.exact items)).length < 2 ^ 31) :
    call.Valid items ∧ call.exact items = call.spec items := by
  rcases hsized.valid_or with hvalid | ⟨name, len, rfl, rfl⟩
  · exact hvalid
  · have hlong := (Content.userdata 0 name).length_payload_le_size
    have hsize : (itemOf (.userdata 0 name)).content.size = (Content.userdata 0 name).size := rfl
    simp only [BuilderCall.exact, layout_append, List.length_append, layout_singleton,
      Item.length_bytes, hsize] at hsmall
    simp only [Content.payload] at hlong
    have hlen : (BitVec.ofNat 32 name.length).toNat = name.length := by
      rw [BitVec.toNat_ofNat, Nat.mod_eq_of_lt (by omega)]
    exact ⟨hlen.le, by simp [BuilderCall.exact, BuilderCall.spec, hlen]⟩

theorem exactAll_eq_specAll (hsized : SizedAll items calls)
    (hsmall : (layout (exactAll items calls)).length < 2 ^ 31) :
    ValidAll items calls ∧ exactAll items calls = specAll items calls := by
  induction calls generalizing items with
  | nil => exact ⟨trivial, rfl⟩
  | cons call calls ih =>
      have hle := length_layout_le_exactAll hsized.2
      obtain ⟨hvalid, heq⟩ := exact_eq_spec hsized.1 (lt_of_le_of_lt hle hsmall)
      obtain ⟨hrest, hall⟩ := ih hsized.2 hsmall
      rw [heq] at hrest hall
      refine ⟨⟨hvalid, hrest⟩, ?_⟩
      change exactAll (call.exact items) calls = specAll (call.spec items) calls
      rw [heq, hall]

end Exact

/-- `bytes` is the sum of the sizes of all items, `len` is the length of each, and the message has
room for what `msg_new` writes. -/
structure HoldsSizes (mb : Builder) (items : List Item) : Prop where
  bytes : mb.bytes.toInt = (items.map fun it => it.content.size).sum
  len : ∀ (i : ℕ) it, items[i]? = some it → it.content.hasLength = true →
    (mb.values i).len.toInt = it.content.payload.length
  room : ∃ data, writtenBefore mb.values mb.last = some data ∧
    sizeofMessage + data.length ≤ mb.request.toNat

theorem Represents.holdsSizes {mb : Builder} {items : List Item} (h : Represents mb items)
    (hrefs : references items = 0) (hsmall : (layout items).length < 2 ^ 31) :
    HoldsSizes mb items where
  bytes := by
    rw [h.bytes_eq, hrefs, Nat.mul_zero, Nat.sub_zero, toInt_ofNat_small hsmall, length_layout]
  len := by
    intro i it hit hlength
    have hmem := List.mem_of_getElem? hit
    have hpayload : it.content.payload.length < 2 ^ 31 := length_payload_lt_of_mem hmem hsmall
    have hvalue := (Value.item?_eq_some_iff.mp (h.value i it hit)).1
    have hfound : (mb.values i).payload = some it.content.payload := by
      have htype := Value.content?_valueType hvalue
      rw [Value.content?, htype] at hvalue
      cases hcontent : it.content with
      | string | function | userdata =>
          simp only [hcontent, Content.valueType, Option.map_eq_some_iff] at hvalue
          obtain ⟨bs, hbs, heq⟩ := hvalue
          cases heq
          exact hbs
      | _ =>
          rw [hcontent] at hlength
          cases hlength
    rw [Value.len_of_payload hfound, toInt_ofNat_small hpayload]
  room := by
    have hrequest := request_eq h.bytes_eq (by omega)
    refine ⟨layout items, h.writtenBefore_last, ?_⟩
    rw [hrequest, hrefs]
    omega

/-- The sizes are right, or a push was refused, exactly when a push got no memory, or no reference
was pushed and the whole message is less than 2 GiB. -/
theorem holdsSizes_iff (buf : Block) (calls : BuilderCalls)
    (hsized : SizedAll [] (calls.map Prod.fst)) :
    (Refuses (msgBuilderInit buf) calls ∨
        HoldsSizes (buildWith (msgBuilderInit buf) calls) (exactAll [] (calls.map Prod.fst))) ↔
      (Starves (msgBuilderInit buf) calls ∨
        (∀ call ∈ calls, call.1.isPushreference = false) ∧
          ((exactAll [] (calls.map Prod.fst)).map fun it => it.content.size).sum < 2 ^ 31) := by
  rw [refuses_iff_starves]
  by_cases hstarves : Starves (msgBuilderInit buf) calls
  · exact iff_of_true (.inl hstarves) (.inl hstarves)
  · have hcalls : ∀ block : Block,
        (calls.map fun call => (call.1, call.2.getD block)).map Prod.fst = calls.map Prod.fst := by
      intro block
      rw [List.map_map]
      rfl
    have hbuilt : (layout (exactAll [] (calls.map Prod.fst))).length < 2 ^ 31 →
        Represents (buildWith (msgBuilderInit buf) calls) (exactAll [] (calls.map Prod.fst)) ∧
          (references (exactAll [] (calls.map Prod.fst)) = 0 ↔
            ∀ call ∈ calls, call.1.isPushreference = false) := by
      intro hsmall
      obtain ⟨hvalid, heq⟩ := exactAll_eq_specAll hsized hsmall
      rw [heq] at hsmall ⊢
      rw [buildWith_eq buf hstarves]
      constructor
      · rw [← hcalls buf] at hvalid hsmall ⊢
        exact (represents_msgBuilderInit buf).build hvalid hsmall
      · rw [references_specAll hvalid, show references [] = 0 from rfl, Nat.zero_add,
          List.countP_map, List.countP_eq_zero]
        simp
    simp only [hstarves, false_or]
    constructor
    · intro hsizes
      have hbytes := hsizes.bytes
      have hsmall : ((exactAll [] (calls.map Prod.fst)).map fun it => it.content.size).sum <
          2 ^ 31 := by
        have hlt := BitVec.toInt_lt (x := (buildWith (msgBuilderInit buf) calls).bytes)
        omega
      rw [← length_layout] at hsmall hbytes ⊢
      obtain ⟨hrep, hrefs⟩ := hbuilt hsmall
      have hle := references_le_layout (exactAll [] (calls.map Prod.fst))
      rw [hrep.bytes_eq, toInt_ofNat_small (by omega)] at hbytes
      exact ⟨hrefs.mp (by omega), hsmall⟩
    · intro ⟨hnone, hsmall⟩
      rw [← length_layout] at hsmall
      obtain ⟨hrep, hrefs⟩ := hbuilt hsmall
      exact hrep.holdsSizes (hrefs.mpr hnone) hsmall

/-- Strings of two and of five bytes, and a function. -/
def shortCalls : BuilderCalls :=
  [(.pushlstring [1, 2] 2, none), (.pushlstring [1, 2, 3, 4, 5] 5, none), (.pushfunction [9], none)]

theorem holdsSizes_shortCalls :
    Refuses (msgBuilderInit fun _ => ⟨0, 0, 0, 0, []⟩) shortCalls ∨
      HoldsSizes (buildWith (msgBuilderInit fun _ => ⟨0, 0, 0, 0, []⟩) shortCalls)
        (exactAll [] (shortCalls.map Prod.fst)) := by
  have hsized : SizedAll [] (shortCalls.map Prod.fst) :=
    ⟨Nat.le_refl 2, Nat.le_refl 5, trivial, trivial⟩
  exact (holdsSizes_iff _ shortCalls hsized).mpr (.inr ⟨by decide, by decide⟩)

/-- A string of 4 GiB keeps none of its length. -/
private theorem not_holdsSizes_long {p : List Byte} (hp : p.length = 2 ^ 32) :
    ¬ (Refuses (msgBuilderInit fun _ => ⟨0, 0, 0, 0, []⟩) [(.pushlstring p (2 ^ 32), none)] ∨
      HoldsSizes
        (buildWith (msgBuilderInit fun _ => ⟨0, 0, 0, 0, []⟩) [(.pushlstring p (2 ^ 32), none)])
        (exactAll [] [.pushlstring p (2 ^ 32)])) := by
  have hsize : (2 ^ 32 : BitVec 64).toNat = 2 ^ 32 := by decide
  rintro (hrefuses | hsizes)
  · rw [refuses_iff_starves] at hrefuses
    simp [Starves, Builder.Full, msgBuilderInit, builderSize] at hrefuses
  · have hlen := hsizes.len 0 ⟨.string (p.take (2 ^ 32 : BitVec 64).toNat), false, false⟩ rfl rfl
    have hlt := BitVec.toInt_lt
      (x := ((buildWith (msgBuilderInit fun _ => ⟨0, 0, 0, 0, []⟩)
        [(.pushlstring p (2 ^ 32), none)]).values (0 : ℕ)).len)
    rw [hlen] at hlt
    simp only [Content.payload, hsize, List.length_take, hp] at hlt
    omega

theorem holdsSizes_fails :
    ¬ ∀ (buf : Block) (calls : BuilderCalls), SizedAll [] (calls.map Prod.fst) →
      Refuses (msgBuilderInit buf) calls ∨
        HoldsSizes (buildWith (msgBuilderInit buf) calls)
          (exactAll [] (calls.map Prod.fst)) := by
  intro hall
  obtain ⟨p, hp⟩ : ∃ p : List Byte, p.length = 2 ^ 32 :=
    ⟨List.replicate (2 ^ 32) 0, List.length_replicate⟩
  have hvalid : (2 ^ 32 : BitVec 64).toNat ≤ p.length := hp.ge.trans' (by decide)
  exact not_holdsSizes_long hp
    (hall (fun _ => ⟨0, 0, 0, 0, []⟩) [(.pushlstring p (2 ^ 32), none)] ⟨hvalid, trivial⟩)

end Casting
