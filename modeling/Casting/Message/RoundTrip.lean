import Casting.Message.Stream

/-!
# The message stream round trip

Builder calls, `msg_new` and `msg_next` together: which values a message gives back.
-/

namespace Casting

section Iteration

variable {m : Message} {items : List Item}

theorem msgNexts_layout (hdata : m.data = layout items)
    (hsize : m.size.toInt = sizeofMessage + (layout items).length)
    (hsmall : (layout items).length < 2 ^ 31) (before : List Item) {after : List Item}
    (hitems : items = before ++ after) {vs : List Value} (hvs : vs.length = after.length + 1) :
    ∃ results last,
      msgNexts m ⟨(layout before).length, before.length⟩ vs = some (results ++ [(-1, last)]) ∧
        results.map (fun r => (r.1, r.2.item?)) =
          (after.zipIdx before.length).map fun x => ((x.2 : ℤ), some x.1) := by
  induction after generalizing before vs with
  | nil =>
    obtain ⟨v, rfl⟩ := List.length_eq_one_iff.mp hvs
    rw [List.append_nil] at hitems
    refine ⟨[], v, ?_, rfl⟩
    rw [msgNexts, msgNext_end (by rw [hsize, hitems])]
    rfl
  | cons it after ih =>
    obtain ⟨v, vs, rfl⟩ := List.exists_cons_of_length_eq_add_one hvs
    have hnext : items = (before ++ [it]) ++ after :=
      hitems.trans (List.append_cons before it after)
    have hmem : it ∈ items := by simp [hitems]
    have hpos : (layout (before ++ [it])).length =
        (layout before).length + it.content.size := by
      rw [layout_append, List.length_append, layout_singleton, Item.length_bytes]
    have hlength := congrArg (fun l => (layout l).length) hnext
    rw [layout_append, List.length_append, hpos] at hlength
    have hat := at_layout hitems
    rw [← hdata] at hat
    have hsome : 0 < it.content.size := Nat.add_pos_left (by decide) _
    obtain ⟨v', hread, hitem⟩ := msgNext_at hat (length_payload_lt_of_mem hmem hsmall)
      (by rw [hsize]; omega) before.length v
    have hvs' : vs.length = after.length + 1 := by simpa using hvs
    obtain ⟨results, last, hrest, hvalues⟩ := ih (before ++ [it]) hnext hvs'
    rw [hpos, List.length_append, List.length_singleton] at hrest
    rw [List.length_append, List.length_singleton] at hvalues
    refine ⟨(before.length, v') :: results, last, ?_, ?_⟩
    · rw [msgNexts, hread]
      push_cast at hrest ⊢
      simp only [Option.bind_eq_bind, Option.bind_some, hrest]
      rfl
    · rw [List.map_cons, hvalues, hitem, List.zipIdx_cons, List.map_cons]

end Iteration

/-- The items that a sequence of builder calls asks for. -/
def itemsOf (calls : List (BuilderCall × Block)) : List Item := specAll [] (calls.map Prod.fst)

/-- `msg_new` writes as many bytes as the message has, and repeated calls of `msg_next` return
the indices of the pushed values with these values, and then -1. -/
def RoundTrips (slack : ℕ) (buf : Block) (calls : List (BuilderCall × Block)) : Prop :=
  ∃ m, msgNew slack (build (msgBuilderInit buf) calls) = some m ∧
    (m.data.length : ℤ) = m.size.toInt - sizeofMessage ∧
    ∀ vs : List Value, vs.length = (itemsOf calls).length + 1 →
      ∃ results last, msgNexts m msgCursorInit vs = some (results ++ [(-1, last)]) ∧
        results.map (fun r => (r.1, r.2.item?)) =
          (itemsOf calls).zipIdx.map fun x => ((x.2 : ℤ), some x.1)

theorem roundTrips_iff (slack : ℕ) (buf : Block) (calls : List (BuilderCall × Block))
    (hvalid : ValidAll [] (calls.map Prod.fst))
    (hsmall : sizeofMessage + (layout (itemsOf calls)).length < 2 ^ 31) :
    RoundTrips slack buf calls ↔ ∀ call ∈ calls, call.1.isPushreference = false := by
  have hrep : Represents (build (msgBuilderInit buf) calls) (itemsOf calls) :=
    (represents_msgBuilderInit buf).build hvalid
      (lt_of_le_of_lt (Nat.le_add_left _ sizeofMessage) hsmall)
  have hmsg := hrep.msgNew hsmall slack
  have hle := references_le_layout (itemsOf calls)
  have hcount : references (itemsOf calls) = 0 ↔
      ∀ call ∈ calls, call.1.isPushreference = false := by
    have hrefs := references_specAll hvalid
    rw [← itemsOf] at hrefs
    rw [hrefs, show references [] = 0 from rfl, Nat.zero_add, List.countP_map,
      List.countP_eq_zero]
    simp
  rw [← hcount]
  constructor
  · rintro ⟨m, hm, hlength, -⟩
    rw [hmsg] at hm
    split at hm
    · cases hm
      rw [toInt_ofNat_small (by omega)] at hlength
      change ((layout (itemsOf calls)).length : ℤ) = _ at hlength
      omega
    · cases hm
  · intro hnone
    rw [hnone, Nat.mul_zero, if_pos (Nat.zero_le _), Nat.sub_zero] at hmsg
    have hsize : (BitVec.ofNat 32 (sizeofMessage + (layout (itemsOf calls)).length)).toInt =
        sizeofMessage + (layout (itemsOf calls)).length := by
      rw [toInt_ofNat_small hsmall]
      omega
    refine ⟨_, hmsg, ?_, ?_⟩
    · change ((layout (itemsOf calls)).length : ℤ) = _
      rw [hsize]
      omega
    · intro vs hvs
      exact msgNexts_layout rfl hsize
        (lt_of_le_of_lt (Nat.le_add_left _ sizeofMessage) hsmall) [] rfl hvs

def zeroed : Block := fun _ => ⟨0, 0, 0, 0, []⟩

/-- A table with an entry and a metatable, a string and a function. -/
theorem roundTrips_table :
    RoundTrips 0 zeroed
      [(.createtable, zeroed), (.pushboolean 1, zeroed), (.pushnumber 7, zeroed),
        (.settable 0 1 0, zeroed), (.createtable, zeroed), (.setmeta 3, zeroed),
        (.pushlstring [104, 105] 2, zeroed), (.pushfunction [1, 2, 3], zeroed),
        (.setfunction 5 0, zeroed)] := by
  apply (roundTrips_iff 0 zeroed _ _ _).mpr
  · simp [BuilderCall.isPushreference]
  · refine ⟨trivial, trivial, trivial, ⟨by decide, _, rfl, rfl⟩, trivial,
      ⟨by decide, _, rfl, rfl⟩, by simp [BuilderCall.Valid], trivial,
      ⟨by decide, _, rfl, rfl⟩, trivial⟩
  · decide

/-- One table and a reference to it. -/
theorem roundTrips_fails :
    ¬ RoundTrips 8 zeroed
      [(.createtable, zeroed), (.pushreference 0, zeroed)] := by
  rintro ⟨m, hm, hlength, -⟩
  have hmessage : (msgNew 8 (build (msgBuilderInit zeroed)
      [(.createtable, zeroed),
        (.pushreference 0, zeroed)])).map
      (fun m => (m.data.length, m.size)) = some (20, 32) := by
    decide
  rw [hm, Option.map_some, Option.some.injEq, Prod.mk.injEq] at hmessage
  rw [hmessage.1, hmessage.2] at hlength
  exact absurd hlength (by decide)

end Casting
