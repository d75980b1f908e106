import Mathlib.Data.List.Basic
import Mathlib.Data.Option.Basic

/-!
# Refinement of calls with results

An object is a state type with a partial function for its calls, each of which has a result; a call
without an outcome is `none`.  A model of the object says which results are permitted and what
they leave.  A relation between the two that every allowed call keeps makes all results permitted.
-/

namespace Casting.Refinement

variable {State Model Call Result : Type*}

def results (step : State → Call → Option (State × Result)) :
    State → List Call → Option (State × List Result)
  | s, [] => some (s, [])
  | s, c :: cs =>
      (step s c).bind fun next =>
        (results step next.1 cs).map fun rest => (rest.1, next.2 :: rest.2)

/-- Every call is made in a state in which `guard` allows it. -/
def Allowed (step : State → Call → Option (State × Result)) (guard : State → Call → Prop) :
    State → List Call → Prop
  | _, [] => True
  | s, c :: cs => guard s c ∧ ∀ next ∈ step s c, Allowed step guard next.1 cs

instance decidableAllowed (step : State → Call → Option (State × Result))
    (guard : State → Call → Prop) [∀ s c, Decidable (guard s c)] :
    ∀ s cs, Decidable (Allowed step guard s cs)
  | _, [] => .isTrue trivial
  | s, c :: cs =>
      have : ∀ next : State × Result, Decidable (Allowed step guard next.1 cs) := fun next =>
        decidableAllowed step guard next.1 cs
      inferInstanceAs (Decidable (guard s c ∧ ∀ next ∈ step s c, Allowed step guard next.1 cs))

/-- What a model permits calls to return, and what it is after them. -/
inductive Permits (spec : Model → Call → Result → Model → Prop) :
    Model → List Call → List Result → Model → Prop
  | nil {m : Model} : Permits spec m [] [] m
  | cons {m m' m'' : Model} {c : Call} {cs : List Call} {r : Result} {rs : List Result} :
      spec m c r m' → Permits spec m' cs rs m'' → Permits spec m (c :: cs) (r :: rs) m''

variable {step : State → Call → Option (State × Result)} {guard : State → Call → Prop}
  {spec : Model → Call → Result → Model → Prop}

theorem Allowed.cons {s s' : State} {c : Call} {cs : List Call} {r : Result} (hguard : guard s c)
    (hstep : step s c = some (s', r)) (hrest : Allowed step guard s' cs) :
    Allowed step guard s (c :: cs) := by
  refine ⟨hguard, fun next hnext => ?_⟩
  rw [Option.mem_def, hstep] at hnext
  cases hnext
  exact hrest

theorem results_cons_eq_some {s s' : State} {c : Call} {cs : List Call} {rs : List Result} :
    results step s (c :: cs) = some (s', rs) ↔
      ∃ next r rest, step s c = some (next, r) ∧ results step next cs = some (s', rest) ∧
        rs = r :: rest := by
  simp only [results, Option.bind_eq_some_iff, Option.map_eq_some_iff, Prod.exists,
    Prod.mk.injEq]
  constructor
  · rintro ⟨next, r, hstep, final, rest, hrest, rfl, rfl⟩
    exact ⟨next, r, rest, hstep, hrest, rfl⟩
  · rintro ⟨next, r, rest, hstep, hrest, rfl⟩
    exact ⟨next, r, hstep, s', rest, hrest, rfl, rfl⟩

theorem results_singleton {s s' : State} {c : Call} {r : Result} (hstep : step s c = some (s', r)) :
    results step s [c] = some (s', [r]) :=
  results_cons_eq_some.mpr ⟨s', r, [], hstep, rfl, rfl⟩

theorem results_append {s mid s' : State} {cs ds : List Call} {rs qs : List Result}
    (hcs : results step s cs = some (mid, rs)) (hds : results step mid ds = some (s', qs)) :
    results step s (cs ++ ds) = some (s', rs ++ qs) := by
  induction cs generalizing s rs with
  | nil =>
    cases hcs
    exact hds
  | cons c cs ih =>
    obtain ⟨next, r, rest, hstep, hrest, rfl⟩ := results_cons_eq_some.mp hcs
    exact results_cons_eq_some.mpr ⟨next, r, rest ++ qs, hstep, ih hrest, rfl⟩

theorem permits_iff_results {s s' : State} {cs : List Call} {rs : List Result} :
    Permits (fun s c r s' => step s c = some (s', r)) s cs rs s' ↔
      results step s cs = some (s', rs) := by
  constructor
  · intro h
    induction h with
    | nil => rfl
    | cons hstep _ ih => exact results_cons_eq_some.mpr ⟨_, _, _, hstep, ih, rfl⟩
  · intro h
    induction cs generalizing s rs with
    | nil =>
      cases h
      exact .nil
    | cons c cs ih =>
      obtain ⟨next, r, rest, hstep, hrest, rfl⟩ := results_cons_eq_some.mp h
      exact .cons hstep (ih hrest)

/-- If every allowed call has a permitted outcome that keeps `R`, so have all of them.  `R` may
mention the calls still to come. -/
theorem results_permitted {R : State → Model → List Call → Prop}
    (hstep : ∀ s m c cs, R s m (c :: cs) → guard s c →
      ∃ s' r m', step s c = some (s', r) ∧ spec m c r m' ∧ R s' m' cs)
    {s : State} {m : Model} {cs : List Call} (hs : R s m cs) (hallowed : Allowed step guard s cs) :
    ∃ s' rs m', results step s cs = some (s', rs) ∧ Permits spec m cs rs m' ∧ R s' m' [] := by
  induction cs generalizing s m with
  | nil => exact ⟨s, [], m, rfl, .nil, hs⟩
  | cons c cs ih =>
    obtain ⟨hguard, hrest⟩ := hallowed
    obtain ⟨next, r, m₁, hnext, hspec, hkept⟩ := hstep s m c cs hs hguard
    obtain ⟨s', rs, m', hresults, hpermits, hlast⟩ := ih hkept (hrest (next, r) hnext)
    exact ⟨s', r :: rs, m', results_cons_eq_some.mpr ⟨next, r, rs, hnext, hresults, rfl⟩,
      .cons hspec hpermits, hlast⟩

end Casting.Refinement
