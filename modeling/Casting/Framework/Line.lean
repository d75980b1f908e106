import Casting.Framework.Transition

/-!
# Waiting lines

A line in which newcomers go to the end and which is served from the front.  Whoever stands in it is
served after those before them, whatever comes later; and if each turn gets one job of a party
done, rounds of turns get its jobs done one after the other.
-/

namespace Casting.Line

open Transition

variable {State Label Item : Type*} {step : State → Label → Option State}

/-- In each step newcomers join the line at its end, and it is left from the front. -/
def FirstInFirstOut (step : State → Label → Option State) (line : State → List Item)
    (joins leaves : State → Label → List Item) : Prop :=
  ∀ s a next, step s a = some next → line s ++ joins s a = leaves s a ++ line next

/-- Runs one after the other, each of which serves as many as stood in the line when it began.
`Between` holds where one ends and the next begins. -/
def Rounds (step : State → Label → Option State) (line : State → List Item)
    (leaves : State → Label → List Item) (Between : State → Prop) :
    State → List (List Label) → State → Prop
  | s, [], final => Between s ∧ final = s
  | s, as :: rounds, final =>
      Between s ∧ ∃ next, run step s as = some next ∧
        (line s).length ≤ (along step leaves s as).length ∧
          Rounds step line leaves Between next rounds final

variable {line : State → List Item} {joins leaves : State → Label → List Item}
  {Between : State → Prop}

theorem Rounds.between {s final : State} {rounds : List (List Label)}
    (h : Rounds step line leaves Between s rounds final) : Between s := by
  cases rounds with
  | nil => exact h.1
  | cons as rounds => exact h.1

theorem FirstInFirstOut.run (h : FirstInFirstOut step line joins leaves) {s final : State}
    {as : List Label} (hrun : run step s as = some final) :
    line s ++ along step joins s as = along step leaves s as ++ line final := by
  induction as generalizing s with
  | nil =>
      cases hrun
      simp [along]
  | cons a as ih =>
      obtain ⟨next, hnext, hrest⟩ := run_cons_eq_some.mp hrun
      rw [along_cons hnext, along_cons hnext]
      calc line s ++ (joins s a ++ along step joins next as)
          = (line s ++ joins s a) ++ along step joins next as := (List.append_assoc _ _ _).symm
        _ = leaves s a ++ (line next ++ along step joins next as) := by
            rw [h s a next hnext, List.append_assoc]
        _ = leaves s a ++ along step leaves next as ++ line final := by
            rw [ih hrest, List.append_assoc]

/-- When as many have been served as stood in the line, all of these have been. -/
theorem FirstInFirstOut.served (h : FirstInFirstOut step line joins leaves) {s final : State}
    {as : List Label} (hrun : Transition.run step s as = some final)
    (henough : (line s).length ≤ (along step leaves s as).length) :
    line s <+: along step leaves s as := by
  have hstood : line s <+: along step leaves s as ++ line final := by
    rw [← h.run hrun]
    exact List.prefix_append _ _
  exact List.prefix_of_prefix_length_le hstood (List.prefix_append _ _) henough

/-- If each round gets the next job done, `n` rounds get `n` jobs done, or all of them. -/
theorem Rounds.progress {Job : Type*} (done todo : State → List Job) {I : State → Prop}
    {guard : State → Label → Prop}
    (hkeep : ∀ s as next, I s → Respects step guard s as →
      Transition.run step s as = some next →
      I next ∧ done s <+: done next ∧ done s ++ todo s <+: done next ++ todo next)
    (hturn : ∀ s as next job rest, I s → Between s → Between next →
      Transition.run step s as = some next → (line s).length ≤ (along step leaves s as).length →
        todo s = job :: rest → done s ++ [job] <+: done next)
    {s final : State} {rounds : List (List Label)} (hs : I s)
    (hguard : Respects step guard s rounds.flatten)
    (h : Rounds step line leaves Between s rounds final) :
    done s ++ (todo s).take rounds.length <+: done final := by
  induction rounds generalizing s with
  | nil =>
      obtain ⟨_, rfl⟩ := h
      simp
  | cons as rounds ih =>
      obtain ⟨hbetween, next, hrun, henough, hrest⟩ := h
      obtain ⟨hround, hlater⟩ := hguard.append hrun
      obtain ⟨hnext, hdone, hall⟩ := hkeep s as next hs hround hrun
      -- both sides are parts of what is done or to be done after the round
      have hbefore : done s ++ (todo s).take (rounds.length + 1) <+: done next ++ todo next :=
        ((List.prefix_append_right_inj _).mpr (List.take_prefix _ _)).trans hall
      have hafter : done next ++ (todo next).take rounds.length <+: done next ++ todo next :=
        (List.prefix_append_right_inj _).mpr (List.take_prefix _ _)
      have hlength := hall.length_le
      refine (List.prefix_of_prefix_length_le hbefore hafter ?_).trans (ih hnext hlater hrest)
      cases htodo : todo s with
      | nil =>
          have hle := hdone.length_le
          simp only [List.take_nil, List.length_append, List.length_nil]
          omega
      | cons job rest =>
          have hone := (hturn s as next job rest hs hbetween hrest.between hrun henough
            htodo).length_le
          rw [htodo] at hlength
          simp only [List.length_append, List.length_take, List.length_cons,
            List.length_nil] at hlength hone ⊢
          omega

end Casting.Line
