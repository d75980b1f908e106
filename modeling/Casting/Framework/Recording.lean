import Mathlib.Data.Option.Basic
import Mathlib.Order.Basic

/-!
# Computations that record events

A computation that may not end and that records events while it goes on, the last one at the end.
What it records is apart from what it computes: erasing the records leaves a computation of the
same values.
-/

namespace Casting

abbrev Recording (ε : Type) := StateT (List ε) Option

namespace Recording

variable {ε α β : Type}

def record (e : ε) : Recording ε Unit := fun es => some ((), es ++ [e])

def ofOption (o : Option α) : Recording ε α := fun es => o.map fun a => (a, es)

variable {m : Recording ε α} {f : α → Recording ε β} {a : α} {b : β} {es es' es'' : List ε}

@[simp]
theorem run_ofOption (o : Option α) :
    (ofOption o : Recording ε α).run es = o.map fun a => (a, es) := rfl

theorem run_bind_eq_some :
    (m >>= f).run es = some (b, es'') ↔
      ∃ a es', m.run es = some (a, es') ∧ (f a).run es' = some (b, es'') := by
  rw [StateT.run_bind]
  constructor
  · intro h
    obtain ⟨⟨a, es'⟩, hm, hf⟩ := Option.bind_eq_some_iff.mp h
    exact ⟨a, es', hm, hf⟩
  · intro ⟨a, es', hm, hf⟩
    exact Option.bind_eq_some_iff.mpr ⟨(a, es'), hm, hf⟩

theorem run_bind_of (h : m.run es = some (a, es')) : (m >>= f).run es = (f a).run es' := by
  rw [StateT.run_bind, h]
  rfl

theorem run_bind_value (a : α) : (ofOption (some a) >>= f).run es = (f a).run es := rfl

theorem run_bind_nothing : (ofOption none >>= f).run es = none := rfl

theorem run_bind_record {m : Recording ε β} (e : ε) :
    (record e >>= fun _ => m).run es = m.run (es ++ [e]) := rfl

theorem run_bind_pure (g : α → β) :
    (m >>= fun a => pure (g a)).run es = (m.run es).map fun r => (g r.1, r.2) := by
  rw [StateT.run_bind]
  cases m.run es <;> rfl

theorem run_ofOption_eq_some {o : Option α} :
    (ofOption o : Recording ε α).run es = some (a, es') ↔ o = some a ∧ es = es' := by
  rw [run_ofOption, Option.map_eq_some_iff]
  constructor
  · intro ⟨a', ho, heq⟩
    cases heq
    exact ⟨ho, rfl⟩
  · intro ⟨ho, heq⟩
    exact ⟨a, ho, by rw [heq]⟩

/-! ### Erasing the records -/

/-- Whatever was recorded before, the computation gives what `o` gives. -/
structure Erases (m : Recording ε α) (o : Option α) : Prop where
  erased : ∀ es, (m.run es).map Prod.fst = o

variable {o : Option α} {g : α → Option β}

theorem Erases.pure (a : α) : Erases (Pure.pure a : Recording ε α) (some a) where
  erased _ := rfl

theorem Erases.ofOption (o : Option α) : Erases (ofOption o : Recording ε α) o where
  erased es := by
    rw [run_ofOption, Option.map_map]
    exact Option.map_id_apply

theorem Erases.bind (hm : Erases m o) (hf : ∀ a, Erases (f a) (g a)) :
    Erases (m >>= f) (o >>= g) where
  erased es := by
    rw [← hm.erased es, StateT.run_bind]
    cases m.run es with
    | none => rfl
    | some r => exact (hf r.1).erased r.2

theorem Erases.value {o : Option β} (a : α) (hf : Erases (f a) o) :
    Erases (Recording.ofOption (some a) >>= f) o where
  erased es := hf.erased es

theorem Erases.nothing : Erases (Recording.ofOption none >>= f) none where
  erased _ := rfl

theorem Erases.record {m : Recording ε β} {o : Option β} (e : ε) (hm : Erases m o) :
    Erases (Recording.record e >>= fun _ => m) o where
  erased es := by
    rw [run_bind_record]
    exact hm.erased _

end Recording

end Casting
