import Mathlib.Data.Option.Basic

/-!
# Computations that raise errors

A computation changes a world, and either returns a value or raises an error, with which it leaves
all the computations around it.  A computation that does not end has no result.  Two facts about
computations are put together from those about their parts: what of the world they keep, however
they end, and which computation without a world gives the values that they return.
-/

namespace Casting

universe u

abbrev Raising (ω ε : Type u) := ExceptT ε (StateT ω Option)

namespace Raising

variable {ω ε α β : Type u}

/-- How the computation ends in a world, and the world it leaves. -/
def runs (m : Raising ω ε α) (w : ω) : Option (Except ε α × ω) := (ExceptT.run m).run w

def ofOption (o : Option α) : Raising ω ε α := ExceptT.mk fun w => o.map fun a => (.ok a, w)

def ofState (f : ω → Option (α × ω)) : Raising ω ε α :=
  ExceptT.mk fun w => (f w).map fun r => (.ok r.1, r.2)

variable {m : Raising ω ε α} {f : α → Raising ω ε β} {w w' : ω}

@[simp]
theorem runs_ofState (g : ω → Option (α × ω)) :
    (ofState g : Raising ω ε α).runs w = (g w).map fun r => (.ok r.1, r.2) := rfl

theorem runs_bind : (m >>= f).runs w = (m.runs w).bind fun
    | (.ok a, v) => (f a).runs v
    | (.error e, v) => some (.error e, v) := by
  show (m.runs w).bind _ = (m.runs w).bind _
  congr 1
  funext r
  rcases r with ⟨e | a, v⟩ <;> rfl

theorem runs_bind_eq_some {r : Except ε β} :
    (m >>= f).runs w = some (r, w') ↔
      (∃ a v, m.runs w = some (.ok a, v) ∧ (f a).runs v = some (r, w')) ∨
        ∃ e, r = .error e ∧ m.runs w = some (.error e, w') := by
  rw [runs_bind]
  constructor
  · intro h
    obtain ⟨⟨e | a, v⟩, hm, hrest⟩ := Option.bind_eq_some_iff.mp h
    · cases hrest
      exact .inr ⟨e, rfl, hm⟩
    · exact .inl ⟨a, v, hm, hrest⟩
  · rintro (⟨a, v, hm, hrest⟩ | ⟨e, rfl, hm⟩)
    · simpa [hm] using hrest
    · simp [hm]

theorem runs_bind_of_ok {a : α} (h : m.runs w = some (.ok a, w')) :
    (m >>= f).runs w = (f a).runs w' := by
  simp [runs_bind, h]

/-! ### What is kept -/

/-- `P` still holds when the computation ends, also where it raises an error. -/
structure Keeps (P : ω → Prop) (m : Raising ω ε α) : Prop where
  ends : ∀ w r w', m.runs w = some (r, w') → P w → P w'

variable {P : ω → Prop}

theorem Keeps.pure (a : α) : Keeps P (Pure.pure a : Raising ω ε α) := by
  constructor
  intro w r w' hrun hw
  cases hrun
  exact hw

theorem Keeps.throw (e : ε) : Keeps P (MonadExcept.throw e : Raising ω ε α) := by
  constructor
  intro w r w' hrun hw
  cases hrun
  exact hw

theorem Keeps.ofOption (o : Option α) : Keeps P (ofOption o : Raising ω ε α) := by
  constructor
  intro w r w' hrun hw
  obtain ⟨a, _, heq⟩ := Option.map_eq_some_iff.mp hrun
  cases heq
  exact hw

theorem Keeps.bind (hm : Keeps P m) (hf : ∀ a, Keeps P (f a)) : Keeps P (m >>= f) := by
  constructor
  intro w r w' hrun hw
  rcases runs_bind_eq_some.mp hrun with ⟨a, v, hv, hrest⟩ | ⟨e, _, hraise⟩
  · exact (hf a).ends v r w' hrest (hm.ends w _ v hv hw)
  · exact hm.ends w _ w' hraise hw

/-! ### What is returned -/

/-- Where the computation returns, it returns what `o` gives. -/
structure Returns (m : Raising ω ε α) (o : Option α) : Prop where
  returned : ∀ w a w', m.runs w = some (.ok a, w') → o = some a

variable {o : Option α} {g : α → Option β}

theorem Returns.pure (a : α) : Returns (Pure.pure a : Raising ω ε α) (some a) := by
  constructor
  intro w b w' hrun
  cases hrun
  rfl

theorem Returns.ofOption (o : Option α) : Returns (ofOption o : Raising ω ε α) o := by
  constructor
  intro w b w' hrun
  obtain ⟨a, ho, heq⟩ := Option.map_eq_some_iff.mp hrun
  cases heq
  exact ho

theorem Returns.bind (hm : Returns m o) (hf : ∀ a, Returns (f a) (g a)) :
    Returns (m >>= f) (o >>= g) := by
  constructor
  intro w b w' hrun
  rcases runs_bind_eq_some.mp hrun with ⟨a, v, hv, hrest⟩ | ⟨e, heq, _⟩
  · rw [hm.returned w a v hv]
    exact (hf a).returned v b w' hrest
  · cases heq

theorem Returns.after {o : Option β} (hf : ∀ a, Returns (f a) o) : Returns (m >>= f) o := by
  constructor
  intro w b w' hrun
  rcases runs_bind_eq_some.mp hrun with ⟨a, v, _, hrest⟩ | ⟨e, heq, _⟩
  · exact (hf a).returned v b w' hrest
  · cases heq

end Raising

end Casting
