import Mathlib.Data.List.Basic
import Mathlib.Data.Option.Basic

/-!
# Runs of a labelled partial step function

A system is a state type, a label type and a partial step function: `none` means that the
labelled step is not enabled.  A label carries every choice the environment makes, so an
interleaving is a list of labels.  Two predicates on runs are used throughout: a property of
every state passed (`Throughout`) and a condition on every step taken (`Respects`).
-/

namespace Casting.Transition

variable {State Label : Type*}

/-- Take the labelled steps in order, failing as soon as one of them is not enabled. -/
def run (step : State → Label → Option State) : State → List Label → Option State
  | s, [] => some s
  | s, a :: as => (step s a).bind fun next => run step next as

/-- What the steps of a run give out, one after the other. -/
def along {Item : Type*} (step : State → Label → Option State) (out : State → Label → List Item) :
    State → List Label → List Item
  | _, [] => []
  | s, a :: as =>
      match step s a with
      | some next => out s a ++ along step out next as
      | none => []

/-- `P` holds at the start and in every state the run passes through. -/
def Throughout (step : State → Label → Option State) (P : State → Prop) :
    State → List Label → Prop
  | s, [] => P s
  | s, a :: as => P s ∧ ∀ next ∈ step s a, Throughout step P next as

/-- Every step the run takes starts from a state in which `guard` admits its label. -/
def Respects (step : State → Label → Option State) (guard : State → Label → Prop) :
    State → List Label → Prop
  | _, [] => True
  | s, a :: as => ∀ next ∈ step s a, guard s a ∧ Respects step guard next as

/-- `P` holds before every step that the run comes to, also before one that is not enabled. -/
def Before (step : State → Label → Option State) (P : State → Label → Prop) :
    State → List Label → Prop
  | _, [] => True
  | s, a :: as => P s a ∧ ∀ next ∈ step s a, Before step P next as

instance decidableRespects (step : State → Label → Option State)
    (guard : State → Label → Prop) [∀ s a, Decidable (guard s a)] :
    ∀ s as, Decidable (Respects step guard s as)
  | _, [] => .isTrue trivial
  | s, a :: as =>
      have : ∀ next, Decidable (Respects step guard next as) := fun next =>
        decidableRespects step guard next as
      inferInstanceAs (Decidable (∀ next ∈ step s a, guard s a ∧ Respects step guard next as))

instance decidableBefore (step : State → Label → Option State) (P : State → Label → Prop)
    [∀ s a, Decidable (P s a)] : ∀ s as, Decidable (Before step P s as)
  | _, [] => .isTrue trivial
  | s, a :: as =>
      have : ∀ next, Decidable (Before step P next as) := fun next =>
        decidableBefore step P next as
      inferInstanceAs (Decidable (P s a ∧ ∀ next ∈ step s a, Before step P next as))

instance decidableThroughout (step : State → Label → Option State) (P : State → Prop)
    [DecidablePred P] : ∀ s as, Decidable (Throughout step P s as)
  | s, [] => inferInstanceAs (Decidable (P s))
  | s, a :: as =>
      have : ∀ next, Decidable (Throughout step P next as) := fun next =>
        decidableThroughout step P next as
      inferInstanceAs (Decidable (P s ∧ ∀ next ∈ step s a, Throughout step P next as))

variable {step : State → Label → Option State} {P I : State → Prop}
  {guard : State → Label → Prop}

theorem run_cons_eq_some {s final : State} {a : Label} {as : List Label} :
    run step s (a :: as) = some final ↔
      ∃ next, step s a = some next ∧ run step next as = some final := by
  simp [run, Option.bind_eq_some_iff]

theorem run_append (s : State) (as bs : List Label) :
    run step s (as ++ bs) = (run step s as).bind fun next => run step next bs := by
  induction as generalizing s with
  | nil => rfl
  | cons a as ih => simp only [List.cons_append, run, ih, Option.bind_assoc]

theorem run_map {Image : Type*} {step' : Image → Label → Option Image} (f : State → Image)
    (hstep : ∀ s a next, step s a = some next → step' (f s) a = some (f next)) {s final : State}
    {as : List Label} (hrun : run step s as = some final) :
    run step' (f s) as = some (f final) := by
  induction as generalizing s with
  | nil =>
      cases hrun
      rfl
  | cons a as ih =>
      obtain ⟨next, hnext, hrest⟩ := run_cons_eq_some.mp hrun
      exact run_cons_eq_some.mpr ⟨f next, hstep s a next hnext, ih hrest⟩

theorem along_cons {Item : Type*} {out : State → Label → List Item} {s next : State} {a : Label}
    (h : step s a = some next) (as : List Label) :
    along step out s (a :: as) = out s a ++ along step out next as := by
  simp only [along, h]

theorem map_along {Item Image : Type*} (f : Item → Image) (out : State → Label → List Item)
    (s : State) (as : List Label) :
    (along step out s as).map f = along step (fun s a => (out s a).map f) s as := by
  induction as generalizing s with
  | nil => rfl
  | cons a as ih =>
      cases hnext : step s a with
      | none => simp [along, hnext]
      | some next => simp [along_cons hnext, ih]

/-- What is taken in is given out again or kept, if that is so in each step. -/
theorem conserved_run {Item : Type*} [DecidableEq Item] {x : Item} (kept : State → ℕ)
    (taken given : State → Label → List Item)
    (hstep : ∀ s a next, I s → step s a = some next →
      I next ∧ kept s + (taken s a).count x = kept next + (given s a).count x)
    {s final : State} {as : List Label} (hs : I s) (hrun : run step s as = some final) :
    kept s + (along step taken s as).count x =
      kept final + (along step given s as).count x := by
  induction as generalizing s with
  | nil =>
      cases hrun
      rfl
  | cons a as ih =>
      obtain ⟨next, hnext, hrest⟩ := run_cons_eq_some.mp hrun
      obtain ⟨hinv, hone⟩ := hstep s a next hs hnext
      have hlater := ih hinv hrest
      simp only [along_cons hnext, List.count_append]
      omega

/-- A property of every state passed holds in the last one. -/
theorem Throughout.last {s final : State} {as : List Label} (h : Throughout step P s as)
    (hrun : run step s as = some final) : P final := by
  induction as generalizing s with
  | nil =>
      cases hrun
      exact h
  | cons a as ih =>
      obtain ⟨next, hnext, hrest⟩ := run_cons_eq_some.mp hrun
      exact ih (h.2 next hnext) hrest

theorem respects_of_forall {p : Label → Prop} {as : List Label} (h : ∀ a ∈ as, p a) (s : State) :
    Respects step (fun _ a => p a) s as := by
  induction as generalizing s with
  | nil => trivial
  | cons a as ih =>
      intro next _
      exact ⟨h a List.mem_cons_self, ih (fun b hb => h b (List.mem_cons_of_mem a hb)) next⟩

theorem Respects.mono_of_invariant {guard' : State → Label → Prop}
    (hstep : ∀ s a next, I s → guard s a → step s a = some next → I next)
    (himp : ∀ s a, I s → guard s a → guard' s a) {s : State} {as : List Label} (hs : I s)
    (h : Respects step guard s as) : Respects step guard' s as := by
  induction as generalizing s with
  | nil => trivial
  | cons a as ih =>
      intro next hnext
      obtain ⟨hhead, hrest⟩ := h next hnext
      exact ⟨himp s a hs hhead, ih (hstep s a next hs hhead hnext) hrest⟩

/-- A condition that a machine's steps meet on another one they meet on it. -/
theorem Respects.comap {State' Label' : Type*} {step' : State' → Label' → Option State'}
    (f : State' → State) (g : Label' → Label)
    (hstep : ∀ s a next, step' s a = some next → step (f s) (g a) = some (f next)) {s : State'}
    {as : List Label'} (h : Respects step guard (f s) (as.map g)) :
    Respects step' (fun s a => guard (f s) (g a)) s as := by
  induction as generalizing s with
  | nil => trivial
  | cons a as ih =>
      intro next hnext
      obtain ⟨hguard, hrest⟩ := h (f next) (hstep s a next hnext)
      exact ⟨hguard, ih hrest⟩

theorem Respects.mono {guard' : State → Label → Prop} (h : ∀ s a, guard s a → guard' s a)
    {s : State} {as : List Label} (hs : Respects step guard s as) : Respects step guard' s as :=
  hs.mono_of_invariant (I := fun _ => True) (fun _ _ _ _ _ _ => trivial) (fun s a _ => h s a)
    trivial

theorem Respects.append {s final : State} {as bs : List Label}
    (h : Respects step guard s (as ++ bs)) (hrun : run step s as = some final) :
    Respects step guard s as ∧ Respects step guard final bs := by
  induction as generalizing s with
  | nil =>
      cases hrun
      exact ⟨trivial, h⟩
  | cons a as ih =>
      obtain ⟨mid, hmid, hrest⟩ := run_cons_eq_some.mp hrun
      refine ⟨?_, (ih (h mid hmid).2 hrest).2⟩
      intro next hnext
      rw [Option.mem_def, hmid] at hnext
      cases hnext
      exact ⟨(h mid hmid).1, (ih (h mid hmid).2 hrest).1⟩

theorem Respects.then {s final : State} {as bs : List Label} (h : Respects step guard s as)
    (hrun : run step s as = some final) (hrest : Respects step guard final bs) :
    Respects step guard s (as ++ bs) := by
  induction as generalizing s with
  | nil =>
      cases hrun
      exact hrest
  | cons a as ih =>
      obtain ⟨mid, hmid, htail⟩ := run_cons_eq_some.mp hrun
      intro next hnext
      rw [Option.mem_def, hmid] at hnext
      cases hnext
      exact ⟨(h mid hmid).1, ih (h mid hmid).2 htail⟩

/-- An invariant of the admitted steps holds at the end of an admitted run. -/
theorem Respects.run_invariant (hstep : ∀ s a next, I s → guard s a → step s a = some next → I next)
    {s final : State} {as : List Label} (hs : I s) (h : Respects step guard s as)
    (hrun : run step s as = some final) : I final := by
  induction as generalizing s with
  | nil =>
      cases hrun
      exact hs
  | cons a as ih =>
      obtain ⟨mid, hmid, hrest⟩ := run_cons_eq_some.mp hrun
      obtain ⟨hguard, htail⟩ := h mid hmid
      exact ih (hstep s a mid hs hguard hmid) htail hrest

/-- A step function whose steps are always enabled where `I` holds runs every label list. -/
theorem run_total (hstep : ∀ s a, I s → ∃ next, step s a = some next ∧ I next)
    {s : State} (hs : I s) (as : List Label) : ∃ final, run step s as = some final := by
  induction as generalizing s with
  | nil => exact ⟨s, rfl⟩
  | cons a as ih =>
      obtain ⟨next, hnext, hinv⟩ := hstep s a hs
      obtain ⟨final, hfinal⟩ := ih hinv
      exact ⟨final, run_cons_eq_some.mpr ⟨next, hnext, hfinal⟩⟩

/-- When each single step keeps `P` exactly if the guard admits it, a run keeps `P` in every
state exactly if all its steps are admitted.  `I` may mention the labels still to come. -/
theorem throughout_iff_respects {I : State → List Label → Prop}
    (hinv : ∀ s a as next, I s (a :: as) → guard s a → step s a = some next → I next as)
    (hiff : ∀ s a as next, I s (a :: as) → P s → step s a = some next →
      (P next ↔ guard s a))
    {s : State} {as : List Label} (hs : I s as) (hp : P s) :
    Throughout step P s as ↔ Respects step guard s as := by
  induction as generalizing s with
  | nil => exact ⟨fun _ => trivial, fun _ => hp⟩
  | cons a as ih =>
      constructor
      · intro ⟨_, htail⟩ next hnext
        have hthere := htail next hnext
        have hpnext : P next := by
          cases as with
          | nil => exact hthere
          | cons b bs => exact hthere.1
        have hguard := (hiff s a as next hs hp hnext).mp hpnext
        exact ⟨hguard, (ih (hinv s a as next hs hguard hnext) hpnext).mp hthere⟩
      · intro hresp
        refine ⟨hp, ?_⟩
        intro next hnext
        obtain ⟨hguard, hrest⟩ := hresp next hnext
        have hpnext := (hiff s a as next hs hp hnext).mpr hguard
        exact (ih (hinv s a as next hs hguard hnext) hpnext).mpr hrest

/-- A property that an invariant implies holds throughout every admitted run. -/
theorem throughout_of_respects
    (hstep : ∀ s a next, I s → guard s a → step s a = some next → I next)
    (himp : ∀ s, I s → P s) {s : State} {as : List Label} (hs : I s)
    (hguard : Respects step guard s as) : Throughout step P s as := by
  induction as generalizing s with
  | nil => exact himp s hs
  | cons a as ih =>
      refine ⟨himp s hs, ?_⟩
      intro next hnext
      obtain ⟨hhead, hrest⟩ := hguard next hnext
      exact ih (hstep s a next hs hhead hnext) hrest

theorem before_of_invariant {P : State → Label → Prop}
    (hstep : ∀ s a next, I s → step s a = some next → I next) (himp : ∀ s a, I s → P s a)
    {s : State} (hs : I s) (as : List Label) : Before step P s as := by
  induction as generalizing s with
  | nil => trivial
  | cons a as ih =>
      refine ⟨himp s a hs, ?_⟩
      intro next hnext
      exact ih (hstep s a next hs hnext)

/-- When each step has the property exactly if the guard admits it, all steps of a run do
exactly if all are admitted. -/
theorem before_iff_respects {P : State → Label → Prop}
    (hstep : ∀ s a, I s → ∃ next, step s a = some next ∧ (guard s a → I next))
    (hiff : ∀ s a, I s → (P s a ↔ guard s a)) {s : State} (hs : I s) {as : List Label} :
    Before step P s as ↔ Respects step guard s as := by
  induction as generalizing s with
  | nil => exact Iff.rfl
  | cons a as ih =>
      obtain ⟨next, hnext, hinv⟩ := hstep s a hs
      simp only [Before, Respects, Option.mem_def, hnext, Option.some.injEq, forall_eq',
        hiff s a hs]
      constructor
      · intro ⟨hguard, hrest⟩
        exact ⟨hguard, (ih (hinv hguard)).mp hrest⟩
      · intro ⟨hguard, hrest⟩
        exact ⟨hguard, (ih (hinv hguard)).mpr hrest⟩

/-- An invariant that implies a property makes it hold throughout every run. -/
theorem throughout_of_invariant (hstep : ∀ s a next, I s → step s a = some next → I next)
    (himp : ∀ s, I s → P s) {s : State} (hs : I s) (as : List Label) : Throughout step P s as :=
  throughout_of_respects (fun s a next hi _ hnext => hstep s a next hi hnext) himp hs
    (respects_of_forall (p := fun _ => True) (fun _ _ => trivial) s)

end Casting.Transition
