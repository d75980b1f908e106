import Casting.Runtime.Releases

/-!
# Every message

What becomes of the messages that are made: each is on its way, destroyed, or was dropped at one
of the places of `drops`.
-/

namespace Casting.Runtime

open Transition

/-- The run-time system with the messages that were dropped. -/
structure MessageLog where
  state : State
  dropped : List MessageId

namespace MessageLog

def start (size : ChannelId → Int) : MessageLog := ⟨State.start size, []⟩

def step (l : MessageLog) (a : Label) : Option MessageLog :=
  (l.state.step a).map fun next => ⟨next, l.dropped ++ l.state.drops a⟩

/-- Every message is on its way, destroyed or dropped, and what was dropped is on its way no
more. -/
structure Accounted (l : MessageLog) : Prop where
  owners : l.state.SingleOwner
  even : State.Even l.state.store
  placed : ∀ m < l.state.store.next, (∃ p, m ∈ l.state.held p) ∨
    1 ≤ (l.state.store.records m).destroys ∨ m ∈ l.dropped
  gone : ∀ m ∈ l.dropped, m < l.state.store.next ∧ ∀ p, m ∉ l.state.held p

theorem accounted_start (size : ChannelId → Int) : (start size).Accounted where
  owners := State.singleOwner_start size
  even m hm := absurd hm (Nat.not_lt_zero m)
  placed m hm := absurd hm (Nat.not_lt_zero m)
  gone := List.forall_mem_nil _

theorem Accounted.step {l l' : MessageLog} {a : Label} (hl : l.Accounted)
    (hguard : l.state.ReleaseKept a) (hstep : l.step a = some l') : l'.Accounted := by
  obtain ⟨next, hnext, rfl⟩ := Option.map_eq_some_iff.mp hstep
  have hmade := State.next_step hnext
  have hplaced : ∀ m, State.Placed l.state a next m → (∃ p, m ∈ next.held p) ∨
      1 ≤ (next.store.records m).destroys ∨ m ∈ l.dropped ++ l.state.drops a := by
    intro m hm
    rcases hm with hheld | hdestroyed | hdropped
    · exact .inl hheld
    · exact .inr (.inl hdestroyed)
    · exact .inr (.inr (List.mem_append_right _ hdropped))
  constructor
  · exact hl.owners.step hguard hnext
  · exact State.even_step hl.even hnext
  · intro m hm
    by_cases hold : m < l.state.store.next
    · rcases hl.placed m hold with ⟨p, hp⟩ | hdestroyed | hdropped
      · exact hplaced m (State.placed_step hl.owners hnext hp)
      · exact .inr (.inl (Nat.le_trans hdestroyed (State.destroys_step hold hnext)))
      · exact .inr (.inr (List.mem_append_left _ hdropped))
    · -- a step makes one message at most
      have heq : m = l.state.store.next := by
        have hone : (l.state.makes a).toList.length ≤ 1 := by
          cases l.state.makes a <;> simp
        have hlt : m < l.state.store.next + 1 :=
          Nat.lt_of_lt_of_le hm (by rw [hmade]; exact Nat.add_le_add_left hone _)
        exact Nat.le_antisymm (Nat.lt_succ_iff.mp hlt) (Nat.not_lt.mp hold)
      subst heq
      exact hplaced _ (State.placed_new hnext hm)
  · intro m hm
    rcases List.mem_append.mp hm with hdropped | hdropped
    · obtain ⟨hlt, hgone⟩ := hl.gone m hdropped
      constructor
      · exact Nat.lt_of_lt_of_le hlt (by rw [hmade]; exact Nat.le_add_right _ _)
      · intro p hp
        rcases State.known_step hl.owners.rendezvous hnext hp with hnew | ⟨q, hq⟩
        · exact absurd hlt (Nat.not_lt.mpr hnew)
        · exact hgone q hq
    · exact State.dropped_step hl.owners hnext hdropped

/-- Where a message is in the end: on its way in one place, destroyed once, or dropped at one of
the places of `drops` and never destroyed. -/
def Fate (l : MessageLog) (m : MessageId) : Prop :=
  ((∃! p, m ∈ l.state.held p) ∧ m ∉ l.dropped ∧ l.state.store.records m = ⟨1, 1, 0⟩) ∨
  ((∀ p, m ∉ l.state.held p) ∧ l.state.store.records m = ⟨0, 1, 1⟩) ∨
  ((∀ p, m ∉ l.state.held p) ∧ m ∈ l.dropped ∧ l.state.store.records m = ⟨1, 1, 0⟩)

theorem Accounted.fate {l : MessageLog} (hl : l.Accounted) {m : MessageId}
    (hm : m < l.state.store.next) : l.Fate m := by
  by_cases hheld : ∃ p, m ∈ l.state.held p
  · left
    obtain ⟨p, hp⟩ := hheld
    refine ⟨⟨p, hp, fun q hq => hl.owners.apart.apart q p m hq hp⟩, ?_,
      (hl.owners.counted p m hp).2⟩
    exact fun hdropped => (hl.gone m hdropped).2 p hp
  · right
    have hnowhere : ∀ p, m ∉ l.state.held p := fun p hp => hheld ⟨p, hp⟩
    obtain ⟨htaken, hcount⟩ := hl.even m hm
    have hbalanced := hl.owners.balanced m
    cases hrecord : l.state.store.records m with
    | mk refCount taken destroys =>
        rw [hrecord] at htaken hcount hbalanced
        simp only at htaken hcount hbalanced
        subst htaken
        have hcases : destroys = 0 ∨ destroys = 1 := by omega
        rcases hcases with rfl | rfl
        · right
          refine ⟨hnowhere, ?_, by congr 1; push_cast at hcount; omega⟩
          rcases hl.placed m hm with hplace | hdestroyed | hdropped
          · exact absurd hplace hheld
          · rw [hrecord] at hdestroyed
            exact absurd hdestroyed (Nat.not_succ_le_zero 0)
          · exact hdropped
        · left
          exact ⟨hnowhere, by congr 1; push_cast at hcount; omega⟩

end MessageLog

end Casting.Runtime
