import Casting.Channel.Closing

/-!
# Who waits in a channel

Readers wait only while there is nothing to read, whatever callers do between their status test
and their locked section.  Writers are to wait only while the buffer is full, but one
`channel_read` takes from the buffer and from `writers` together.
-/

namespace Casting

open Transition

variable {κ μ : Type*}

namespace Callers

/-- With the lock free: whoever waits to read has nothing to read, and the buffer is within its
size. -/
def ReadersIdle (s : Callers κ μ) : Prop :=
  (s.channel.readers ≠ [] → s.channel.messages = [] ∧ s.channel.writers = []) ∧
    s.channel.messages.length ≤ s.channel.bufSize

/-- A locked section of `channel_write` that pops a reader pops either a message or a writer
with it, and the callbacks after it are defined and hand the popped message to that reader. -/
def ServesOne (s : Callers κ μ) (a : CallerStep κ μ) : Prop :=
  ∀ i message cb r, a = .locked i → s.tested[i]? = some (.write message cb) →
    (channelWriteLocked s.channel message cb).2.r = some r →
    let l := (channelWriteLocked s.channel message cb).2
    l.m.isSome ≠ l.w.isSome ∧
      ∃ calls, channelWriteCallbacks message cb l = some calls ∧
        ∀ m, l.m = some m ∨ l.w.map Writer.message = some m → ⟨r.cb, some m, .read⟩ ∈ calls

theorem readersIdle_of_rendezvous {s : Callers κ μ} (hs : Rendezvous s.channel) :
    s.ReadersIdle := by
  refine ⟨?_, hs.bounded⟩
  intro hwaiting
  rcases hs.idle with hnone | hempty
  · exact (hwaiting hnone).elim
  · exact hempty

theorem servesOne_of_rendezvous {s : Callers κ μ} (hs : Rendezvous s.channel)
    (a : CallerStep κ μ) : s.ServesOne a := by
  intro i message cb r _ _ hr
  rcases channelWriteLocked_cases hs message cb with
    ⟨_, _, heq⟩ | ⟨_, _, heq⟩ | ⟨r', rest, _, _, _, _, heq⟩ | ⟨r', rest, _, _, _, _, heq⟩
  · rw [heq] at hr
    cases hr
  · rw [heq] at hr
    cases hr
  all_goals
    rw [heq] at hr ⊢
    cases hr
    refine ⟨by simp, _, rfl, ?_⟩
    simp

/-- No step of any caller spoils what the locked sections rely on. -/
theorem rendezvous_step {s next : Callers κ μ} {a : CallerStep κ μ} (hs : Rendezvous s.channel)
    (hstep : s.step a = some next) : Rendezvous next.channel := by
  cases a with
  | test call =>
      simp only [step] at hstep
      split at hstep <;> cases hstep <;> exact hs
  | close =>
      cases hstep
      exact channelClose_rendezvous hs
  | locked i =>
      obtain ⟨call, _, rfl⟩ := Option.map_eq_some_iff.mp hstep
      cases call with
      | write message cb => exact channelWriteLocked_rendezvous hs message cb
      | read cb => exact channelReadLocked_rendezvous hs cb

/-- Under any interleaving of status tests, locked sections and closes, on a channel of any
size. -/
theorem readersIdle_throughout (size : Int) (steps : List (CallerStep κ μ)) :
    Throughout step ReadersIdle (start size) steps ∧
      Before step ServesOne (start size) steps := by
  have hstart : Rendezvous (start size : Callers κ μ).channel := channelNew_rendezvous size
  constructor
  · exact throughout_of_invariant (fun _ _ _ hs hnext => rendezvous_step hs hnext)
      (fun _ hs => readersIdle_of_rendezvous hs) hstart steps
  · exact before_of_invariant (fun _ _ _ hs hnext => rendezvous_step hs hnext)
      (fun _ a hs => servesOne_of_rendezvous hs a) hstart steps

end Callers

/-! ## Writers -/

namespace History

/-- Writers wait only while the buffer is full. -/
def WritersHeld (h : History κ μ) : Prop :=
  h.channel.writers ≠ [] → h.channel.messages.length = h.channel.bufSize

/-- The call is not a `channel_read` that takes a buffered message while two writers wait. -/
def ReadLeavesNone (h : History κ μ) : Call κ μ → Prop
  | .write _ _ => True
  | .read _ => h.channel.messages = [] ∨ h.channel.writers.length ≤ 1

theorem writersHeld_iff {h : History κ μ} :
    h.WritersHeld ↔ (h.parked ≠ [] → h.buffered.length = h.channel.bufSize) := by
  simp [WritersHeld, parked, buffered]

theorem writersHeld_write {h next : History κ μ} (hk : Kept h) (hheld : h.WritersHeld)
    {message : μ} {cb : κ} (hcall : h.call (.write message cb) = some next) :
    next.WritersHeld := by
  obtain ⟨_, hnext, _, hsize, _, hcases⟩ := call_write hk message cb
  obtain rfl := Option.some.inj (hcall.symm.trans hnext)
  rw [writersHeld_iff] at hheld ⊢
  rw [hsize]
  intro hparked
  rcases hcases with ⟨hroom, _, _, hp⟩ | ⟨hfull, _, hb, _⟩ | ⟨_, _, _, _, hp⟩
  · rw [hp] at hparked
    exact absurd (hheld hparked) (Nat.ne_of_lt hroom)
  · rw [hb]
    exact hfull
  · exact (hparked hp).elim

theorem writersHeld_read_iff {h next : History κ μ} (hk : Kept h) (hheld : h.WritersHeld)
    {cb : κ} (hcall : h.call (.read cb) = some next) :
    next.WritersHeld ↔ h.ReadLeavesNone (.read cb) := by
  obtain ⟨_, hnext, _, hsize, _, hb, hp, _⟩ := call_read hk cb
  obtain rfl := Option.some.inj (hcall.symm.trans hnext)
  have hguard : h.ReadLeavesNone (.read cb) ↔ h.buffered = [] ∨ h.parked.length ≤ 1 := by
    simp [ReadLeavesNone, buffered, parked]
  rw [writersHeld_iff] at hheld ⊢
  rw [hguard, hsize, hb, hp]
  cases hbuf : h.buffered with
  | nil =>
      refine iff_of_true ?_ (.inl rfl)
      intro hrest
      have hparked : h.parked ≠ [] := fun hnone => hrest (by rw [hnone]; rfl)
      rw [← hheld hparked, hbuf]
      rfl
  | cons m ms =>
      rcases Nat.lt_or_ge 1 h.parked.length with htwo | hone
      · refine iff_of_false ?_ ?_
        · intro hfull
          have hparked : h.parked ≠ [] := List.ne_nil_of_length_pos (by omega)
          have hrest : h.parked.tail ≠ [] := by
            apply List.ne_nil_of_length_pos
            rw [List.length_tail]
            omega
          have hbefore := hheld hparked
          have hafter := hfull hrest
          rw [hbuf, List.length_cons] at hbefore
          rw [List.tail_cons] at hafter
          omega
        · simpa using htwo
      · refine iff_of_true ?_ (.inr hone)
        intro hrest
        have hnone : h.parked.tail.length = 0 := by
          rw [List.length_tail]
          omega
        exact (hrest (List.length_eq_zero_iff.mp hnone)).elim

/-- Along a sequence of calls on a channel of any size, writers wait only while the buffer is
full, in every state reached, exactly if no read takes a buffered message while two writers
wait. -/
theorem writersHeld_throughout_iff (size : Int) (calls : List (Call κ μ)) :
    (∃ final, run call (start size) calls = some final) ∧
      (Throughout call WritersHeld (start size) calls ↔
        Respects call ReadLeavesNone (start size) calls) := by
  refine ⟨run_call_total (start_kept size) calls, ?_⟩
  refine throughout_iff_respects (I := fun h _ => Kept h) ?_ ?_ (start_kept size) ?_
  · intro h c _ next hk _ hcall
    cases c with
    | write message cb =>
        obtain ⟨_, hnext, hkept, _⟩ := call_write hk message cb
        obtain rfl := Option.some.inj (hcall.symm.trans hnext)
        exact hkept
    | read cb =>
        obtain ⟨_, hnext, hkept, _⟩ := call_read hk cb
        obtain rfl := Option.some.inj (hcall.symm.trans hnext)
        exact hkept
  · intro h c _ next hk hheld hcall
    cases c with
    | write message cb => exact iff_of_true (writersHeld_write hk hheld hcall) trivial
    | read cb => exact writersHeld_read_iff hk hheld hcall
  · intro hwaiting
    exact (hwaiting rfl).elim

/-- Buffer size 1 and two parked writers: one read empties the buffer and leaves a writer. -/
theorem writersHeld_fails :
    ¬ ∀ (size : Int) (calls : List (Call Nat Nat)) (final : History Nat Nat),
      run call (start size) calls = some final → final.WritersHeld := by
  intro hall
  have hheld := hall 1 [.write 1 0, .write 2 0, .write 3 0, .read 9] _ rfl (by decide)
  exact absurd hheld (by decide)

end History

end Casting
