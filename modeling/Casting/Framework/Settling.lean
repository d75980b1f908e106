import Casting.Framework.Transition
import Mathlib.Algebra.BigOperators.Finprod

/-!
# Runs that settle

A weight that every step of some kind lowers bounds the number of such steps in a row, whatever
their order, and a system that takes them as long as it can comes to rest.  The weight of many
parts is a sum over those that have any.
-/

namespace Casting.Transition

variable {State Label : Type*} {step : State → Label → Option State} {kind : Label → Prop}
  {I : State → Prop} {weight : State → ℕ}

def Quiet (step : State → Label → Option State) (kind : Label → Prop) (s : State) : Prop :=
  ∀ a, kind a → step s a = none

theorem run_of_kind (hstep : ∀ s a next, I s → kind a → step s a = some next → I next)
    {s final : State} {as : List Label} (hs : I s) (has : ∀ a ∈ as, kind a)
    (hrun : run step s as = some final) : I final :=
  Respects.run_invariant hstep hs (respects_of_forall has s) hrun

/-- A run takes at most as many steps as the weight allows. -/
theorem length_add_le
    (hstep : ∀ s a next, I s → kind a → step s a = some next → I next ∧ weight next < weight s)
    {s final : State} {as : List Label} (hs : I s) (has : ∀ a ∈ as, kind a)
    (hrun : run step s as = some final) : as.length + weight final ≤ weight s := by
  induction as generalizing s with
  | nil =>
      cases hrun
      simp
  | cons a as ih =>
      obtain ⟨next, hnext, hrest⟩ := run_cons_eq_some.mp hrun
      obtain ⟨hinv, hlt⟩ := hstep s a next hs (has a List.mem_cons_self) hnext
      have hle := ih hinv (fun b hb => has b (List.mem_cons_of_mem a hb)) hrest
      simp only [List.length_cons]
      omega

/-- Every state comes to rest by some run. -/
theorem exists_quiet
    (hstep : ∀ s a next, I s → kind a → step s a = some next → I next ∧ weight next < weight s)
    {s : State} (hs : I s) :
    ∃ as final, (∀ a ∈ as, kind a) ∧ run step s as = some final ∧ Quiet step kind final := by
  induction hw : weight s using Nat.strong_induction_on generalizing s with
  | h n ih =>
      by_cases hquiet : Quiet step kind s
      · exact ⟨[], s, by simp, rfl, hquiet⟩
      · obtain ⟨a, ha⟩ := not_forall.mp hquiet
        obtain ⟨hkind, hsome⟩ := Classical.not_imp.mp ha
        obtain ⟨next, hnext⟩ := Option.ne_none_iff_exists'.mp hsome
        obtain ⟨hinv, hlt⟩ := hstep s a next hs hkind hnext
        obtain ⟨as, final, has, hrun, hfinal⟩ := ih (weight next) (hw ▸ hlt) hinv rfl
        refine ⟨a :: as, final, ?_, run_cons_eq_some.mpr ⟨next, hnext, hrun⟩, hfinal⟩
        intro b hb
        rcases List.mem_cons.mp hb with rfl | hb
        · exact hkind
        · exact has b hb

/-! ### Sums over the parts that weigh anything -/

variable {Part Value : Type*} [DecidableEq Part] {f : Part → Value} {w : Value → ℕ}

theorem finsum_update_add (hf : (Function.support fun i => w (f i)).Finite) (i : Part)
    (v : Value) :
    (∑ᶠ j, w (Function.update f i v j)) + w (f i) = (∑ᶠ j, w (f j)) + w v := by
  set parts := insert i hf.toFinset with hparts
  have hbefore : (Function.support fun j => w (f j)) ⊆ parts := by
    intro j hj
    simp only [hparts, Finset.coe_insert, Set.Finite.coe_toFinset]
    exact .inr hj
  have hafter : (Function.support fun j => w (Function.update f i v j)) ⊆ parts := by
    intro j hj
    by_cases hji : j = i
    · simp [hparts, hji]
    · apply hbefore
      simpa [hji] using hj
  rw [finsum_eq_sum_of_support_subset _ hbefore, finsum_eq_sum_of_support_subset _ hafter]
  have hmem : i ∈ parts := Finset.mem_insert_self i _
  rw [← Finset.add_sum_erase parts _ hmem, ← Finset.add_sum_erase parts (fun j => w (f j)) hmem]
  have hrest : ∑ j ∈ parts.erase i, w (Function.update f i v j) = ∑ j ∈ parts.erase i, w (f j) :=
    Finset.sum_congr rfl fun j hj => by
      rw [Function.update_of_ne (Finset.ne_of_mem_erase hj)]
  simp only [Function.update_self, hrest]
  omega

theorem finite_support_update (hf : (Function.support fun i => w (f i)).Finite) (i : Part)
    (v : Value) : (Function.support fun j => w (Function.update f i v j)).Finite := by
  apply (hf.insert i).subset
  intro j hj
  by_cases hji : j = i
  · exact .inl hji
  · right
    simpa [hji] using hj

end Casting.Transition
