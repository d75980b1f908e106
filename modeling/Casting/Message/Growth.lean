import Casting.Framework.Transition
import Casting.Message.Builder

/-!
# Builders that cannot grow

What the pushes return, and what they do to the builder when the allocation of `next_index`
fails: the error code becomes the index that they write to.
-/

namespace Casting

open Transition

namespace BuilderCall

def isPush : BuilderCall → Bool
  | .setfunction _ _ | .setuserdata _ _ | .settable _ _ _ | .setmeta _ => false
  | _ => true

def result (alloc : Option Block) (mb : Builder) : BuilderCall → ℤ
  | .pushnil => (lcPushnil alloc mb).1
  | .pushboolean b => (lcPushboolean alloc mb b).1
  | .pushnumber n => (lcPushnumber alloc mb n).1
  | .pushlstring p sz => (lcPushlstring alloc mb p sz).1
  | .pushreference ref => (lcPushreference alloc mb ref).1
  | .createtable => (lcCreatetable alloc mb).1
  | .pushfunction b => (lcPushfunction alloc mb b).1
  | .pushuserdata name len => (lcPushuserdata alloc mb name len).1
  | .setfunction _ _ | .setuserdata _ _ | .settable _ _ _ | .setmeta _ => 0

/-- What a push adds to `bytes`. -/
def pushed : BuilderCall → Word
  | .pushnumber _ => 4 + 8
  | .pushlstring _ sz => 4 + 4 + sz.setWidth 32
  | .createtable => 4 + 4 + 4
  | .pushfunction b => 4 + 4 + 4 + BitVec.ofNat 32 b.length
  | .pushuserdata _ len => 4 + 4 + 4 + len
  | _ => 4

/-- What a call does before `next_index`. -/
def prepare (mb : Builder) : BuilderCall → Builder
  | .pushreference ref =>
      { mb with refs := mb.refs + 1 }.write ref.toInt fun v =>
        { v with type := v.type ||| tReferenced }
  | _ => mb

end BuilderCall

/-! ## One push -/

section Push

variable {mb : Builder} {alloc : Option Block} {call : BuilderCall}

/-- `next_index` asks for memory. -/
def Builder.Full (mb : Builder) : Prop := mb.last = mb.size

instance : DecidablePred Builder.Full := fun mb => inferInstanceAs (Decidable (mb.last = mb.size))

/-- The pushes are one function, up to what they fill the new value with. -/
theorem push_of_isPush (hpush : call.isPush = true) (alloc : Option Block) (mb : Builder) :
    ∃ f, call.result alloc mb = (push f call.pushed alloc (call.prepare mb)).1 ∧
      call.apply alloc mb = (push f call.pushed alloc (call.prepare mb)).2 := by
  cases call with
  | setfunction | setuserdata | settable | setmeta => cases hpush
  | _ => exact ⟨_, rfl, rfl⟩

@[simp]
theorem last_prepare (call : BuilderCall) (mb : Builder) : (call.prepare mb).last = mb.last := by
  cases call <;> rfl

@[simp]
theorem size_prepare (call : BuilderCall) (mb : Builder) : (call.prepare mb).size = mb.size := by
  cases call <;> rfl

theorem full_prepare (call : BuilderCall) (mb : Builder) :
    (call.prepare mb).Full ↔ mb.Full := by
  simp [Builder.Full]

theorem nextIndex_of_full (hfull : mb.Full) :
    nextIndex none mb = (ReturnCode.errNoMem.toInt, mb) := if_pos hfull

theorem nextIndex_of_room (hroom : mb.Full → alloc ≠ none) :
    (nextIndex alloc mb).1 = mb.last ∧ (nextIndex alloc mb).2.last = mb.last + 1 ∧
      (nextIndex alloc mb).2.size = if mb.Full then mb.size * 2 else mb.size := by
  by_cases hfull : mb.Full
  · obtain ⟨block, rfl⟩ := Option.ne_none_iff_exists'.mp (hroom hfull)
    have hlast : mb.last = mb.size := hfull
    simp [nextIndex, Builder.Full, hlast]
  · have hlast : mb.last ≠ mb.size := hfull
    simp [nextIndex, Builder.Full, hlast]

/-- Without memory a push writes where its error code points, and counts a value all the same. -/
theorem apply_of_full (hpush : call.isPush = true) (hfull : mb.Full) :
    ∃ f, call.result none mb = ReturnCode.errNoMem.toInt ∧
      call.apply none mb =
        { (call.prepare mb).write ReturnCode.errNoMem.toInt f with
          bytes := mb.bytes + call.pushed, count := mb.count + 1 } := by
  obtain ⟨f, hresult, happly⟩ := push_of_isPush hpush none mb
  have hnext : nextIndex none (call.prepare mb) =
      (ReturnCode.errNoMem.toInt, call.prepare mb) :=
    nextIndex_of_full ((full_prepare call mb).mpr hfull)
  refine ⟨f, ?_, ?_⟩
  · rw [hresult, push, hnext]
  · rw [happly, push, hnext]
    cases call <;> rfl

theorem apply_of_room (hpush : call.isPush = true) (hroom : mb.Full → alloc ≠ none) :
    call.result alloc mb = mb.last ∧ (call.apply alloc mb).last = mb.last + 1 ∧
      (call.apply alloc mb).size = if mb.Full then mb.size * 2 else mb.size := by
  obtain ⟨f, hresult, happly⟩ := push_of_isPush hpush alloc mb
  have hnext := nextIndex_of_room fun hfull => hroom ((full_prepare call mb).mp hfull)
  simp only [last_prepare, size_prepare, full_prepare] at hnext
  rw [hresult, happly]
  exact hnext

theorem result_neg_iff (alloc : Option Block) (mb : Builder) :
    call.result alloc mb < 0 ↔ call.isPush = true ∧ mb.Full ∧ alloc = none := by
  cases hpush : call.isPush with
  | false => cases call <;> simp_all [BuilderCall.isPush, BuilderCall.result]
  | true =>
      by_cases hfail : mb.Full ∧ alloc = none
      · obtain ⟨hfull, rfl⟩ := hfail
        obtain ⟨f, hresult, -⟩ := apply_of_full hpush hfull
        simp [hresult, hfull, ReturnCode.toInt]
      · have hresult := (apply_of_room hpush fun hfull hnone => hfail ⟨hfull, hnone⟩).1
        have hnonneg : ¬ (mb.last : ℤ) < 0 := by omega
        simp [hresult, hnonneg, hfail]

end Push

/-! ## A push that fails -/

/-- A push was refused, and the builder is as it was, flags and all. -/
structure Refused (mb : Builder) (result : ℤ) (mb' : Builder) : Prop where
  error : result < 0
  outside : ∀ i : ℤ, i < 0 ∨ mb.last ≤ i → mb'.values i = mb.values i
  stored : ∀ i : ℤ, 0 ≤ i → i < mb.last → mb'.values i = mb.values i
  last : mb'.last = mb.last
  size : mb'.size = mb.size
  bytes : mb'.bytes = mb.bytes
  count : mb'.count = mb.count
  refs : mb'.refs = mb.refs

/-- A push, with what an allocation in it returns. -/
def pushStep (mb : Builder) (a : BuilderCall × Option Block) : Option Builder :=
  if a.1.isPush then some (a.1.apply a.2 mb) else none

/-- Builders grow at 16 values, at 32, at 64 and so on. -/
theorem size_of_pushes (buf : Block) {as : List (BuilderCall × Option Block)} {mb : Builder}
    (hrun : run pushStep (msgBuilderInit buf) as = some mb) :
    mb.last ≤ mb.size ∧ ∃ k, mb.size = builderSize * 2 ^ k := by
  have hstep : ∀ mb a next, (mb.last ≤ mb.size ∧ ∃ k, mb.size = builderSize * 2 ^ k) → True →
      pushStep mb a = some next →
      next.last ≤ next.size ∧ ∃ k, next.size = builderSize * 2 ^ k := by
    rintro mb ⟨call, alloc⟩ next ⟨hle, k, hsize⟩ - hnext
    unfold pushStep at hnext
    split at hnext
    · rename_i hpush
      cases hnext
      by_cases hfail : mb.Full ∧ alloc = none
      · obtain ⟨hfull, rfl⟩ := hfail
        obtain ⟨f, -, happly⟩ := apply_of_full hpush hfull
        rw [happly]
        cases call <;> exact ⟨hle, k, hsize⟩
      · obtain ⟨-, hlast, hgrown⟩ := apply_of_room hpush
          fun hfull hnone => hfail ⟨hfull, hnone⟩
        rw [hlast, hgrown]
        by_cases hfull : mb.Full
        · have heq : mb.last = mb.size := hfull
          have hpos : 0 < 2 ^ k := Nat.two_pow_pos k
          rw [if_pos hfull]
          refine ⟨?_, k + 1, by rw [hsize, Nat.pow_succ, Nat.mul_assoc]⟩
          simp only [builderSize] at hsize
          omega
        · have hne : mb.last ≠ mb.size := hfull
          rw [if_neg hfull]
          exact ⟨by omega, k, hsize⟩
    · cases hnext
  have hrespects : Respects pushStep (fun _ _ => True) (msgBuilderInit buf) as :=
    respects_of_forall (p := fun _ => True) (fun _ _ => trivial) _
  exact hrespects.run_invariant hstep ⟨Nat.zero_le _, 0, rfl⟩ hrun

/-- No push leaves a full builder as it was when there is no memory: it returns an error, but it
counts a value that was not stored. -/
theorem not_refused_of_full (buf : Block) {as : List (BuilderCall × Option Block)} {mb : Builder}
    (hrun : run pushStep (msgBuilderInit buf) as = some mb) (hfull : mb.Full) {call : BuilderCall}
    (hpush : call.isPush = true) :
    (∃ k, mb.last = builderSize * 2 ^ k) ∧ call.result none mb < 0 ∧
      ¬ Refused mb (call.result none mb) (call.apply none mb) := by
  have hlast : mb.last = mb.size := hfull
  refine ⟨?_, (result_neg_iff none mb).mpr ⟨hpush, hfull, rfl⟩, ?_⟩
  · rw [hlast]
    exact (size_of_pushes buf hrun).2
  · intro hrefused
    obtain ⟨f, -, happly⟩ := apply_of_full hpush hfull
    have hsame := hrefused.count
    rw [happly] at hsame
    exact absurd (BitVec.add_right_eq_self.mp hsame) (by decide)

def sixteenNils : List (BuilderCall × Option Block) := List.replicate builderSize (.pushnil, none)

def sixteenBuilder : Builder :=
  sixteenNils.foldl (fun mb a => a.1.apply a.2 mb) (msgBuilderInit fun _ => ⟨0, 0, 0, 0, []⟩)

theorem run_sixteenNils :
    run pushStep (msgBuilderInit fun _ => ⟨0, 0, 0, 0, []⟩) sixteenNils = some sixteenBuilder := rfl

theorem not_refused_of_sixteen :
    (∃ k, sixteenBuilder.last = builderSize * 2 ^ k) ∧
      BuilderCall.pushnil.result none sixteenBuilder < 0 ∧
      ¬ Refused sixteenBuilder (BuilderCall.pushnil.result none sixteenBuilder)
        (BuilderCall.pushnil.apply none sixteenBuilder) :=
  not_refused_of_full _ run_sixteenNils rfl rfl

/-- The seventeenth value of a builder is counted when there is no memory for it. -/
theorem refused_fails :
    ¬ ∀ (buf : Block) (as : List (BuilderCall × Option Block)) (mb : Builder),
      run pushStep (msgBuilderInit buf) as = some mb → mb.Full → ∀ call : BuilderCall,
        call.isPush = true → Refused mb (call.result none mb) (call.apply none mb) := by
  intro hall
  have hrefused := hall _ sixteenNils sixteenBuilder run_sixteenNils rfl .pushnil rfl
  have hcount := hrefused.count
  change (17 : Word) = 16 at hcount
  exact absurd hcount (by decide)

end Casting
