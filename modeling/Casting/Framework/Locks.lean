import Mathlib.Data.List.Basic
import Mathlib.Logic.Relation

/-!
# Locks that are not reentrant

One thread, the locks it holds and the instructions it still has to execute.  An operation works
on the world and may have further instructions executed before the rest.  A thread that asks for a
lock that it holds already waits for itself, and never goes on.
-/

namespace Casting.Locks

variable {Lock World Op : Type*} [DecidableEq Lock]

inductive Instr (Lock Op : Type*)
  | lock (l : Lock)
  | unlock (l : Lock)
  | op (a : Op)
  deriving DecidableEq, Repr

structure Thread (Lock World Op : Type*) where
  world : World
  held : List Lock
  todo : List (Instr Lock Op)

def step (exec : Op → World → World × List (Instr Lock Op)) (t : Thread Lock World Op) :
    Option (Thread Lock World Op) :=
  match t.todo with
  | [] => none
  | .lock l :: rest => if l ∈ t.held then none else some ⟨t.world, l :: t.held, rest⟩
  | .unlock l :: rest => some ⟨t.world, t.held.erase l, rest⟩
  | .op a :: rest => some ⟨(exec a t.world).1, t.held, (exec a t.world).2 ++ rest⟩

def Reaches (exec : Op → World → World × List (Instr Lock Op)) :
    Thread Lock World Op → Thread Lock World Op → Prop :=
  Relation.ReflTransGen fun t t' => step exec t = some t'

def SelfLocks (t : Thread Lock World Op) : Prop := ∃ l ∈ t.held, ∃ rest, t.todo = .lock l :: rest

def Ends (exec : Op → World → World × List (Instr Lock Op)) (t : Thread Lock World Op) : Prop :=
  ∃ t', Reaches exec t t' ∧ t'.todo = []

variable {exec : Op → World → World × List (Instr Lock Op)} {t t' : Thread Lock World Op}
  {held : List Lock} {is js : List (Instr Lock Op)} {w w' w'' : World} {l : Lock} {a : Op}

theorem SelfLocks.step_eq_none (h : SelfLocks t) : step exec t = none := by
  obtain ⟨l, hl, rest, htodo⟩ := h
  simp only [step, htodo, if_pos hl]

theorem step_eq_none_of_nil (h : t.todo = []) : step exec t = none := by
  simp only [step, h]

theorem Reaches.eq_of_step_eq_none (h : Reaches exec t t') (hnone : step exec t = none) :
    t' = t := by
  rcases Relation.ReflTransGen.cases_head h with heq | ⟨next, hnext, _⟩
  · exact heq.symm
  · rw [hnone] at hnext
    cases hnext

/-- A run is determined, so a thread that ends does not wait for itself on the way. -/
theorem Ends.not_selfLocks (h : Ends exec t) (hreach : Reaches exec t t') : ¬ SelfLocks t' := by
  intro hself
  obtain ⟨last, hlast, hnil⟩ := h
  have hunique : Relator.RightUnique fun t t' : Thread Lock World Op => step exec t = some t' :=
    fun _ _ _ h₁ h₂ => Option.some.inj (h₁.symm.trans h₂)
  have hsame : last = t' := by
    rcases Relation.ReflTransGen.total_of_right_unique hunique hlast hreach with h | h
    · exact (Reaches.eq_of_step_eq_none h (step_eq_none_of_nil hnil)).symm
    · exact Reaches.eq_of_step_eq_none h hself.step_eq_none
  obtain ⟨l, _, rest, htodo⟩ := hself
  rw [← hsame, hnil] at htodo
  cases htodo

/-! ### Instructions that return, and instructions that do not -/

/-- The instructions are executed, and the locks are held again as before. -/
def Returns (exec : Op → World → World × List (Instr Lock Op)) (held : List Lock)
    (is : List (Instr Lock Op)) (w w' : World) : Prop :=
  ∀ rest, Reaches exec ⟨w, held, is ++ rest⟩ ⟨w', held, rest⟩

/-- While executing the instructions the thread asks for a lock that it holds. -/
def Hangs (exec : Op → World → World × List (Instr Lock Op)) (held : List Lock)
    (is : List (Instr Lock Op)) (w : World) : Prop :=
  ∀ rest, ∃ t, Reaches exec ⟨w, held, is ++ rest⟩ t ∧ SelfLocks t

theorem reaches_lock (hl : l ∉ held) :
    Reaches exec ⟨w, held, .lock l :: is⟩ ⟨w, l :: held, is⟩ :=
  Relation.ReflTransGen.single (if_neg hl)

theorem reaches_unlock : Reaches exec ⟨w, l :: held, .unlock l :: is⟩ ⟨w, held, is⟩ :=
  Relation.ReflTransGen.single (by simp [step])

theorem reaches_op (hexec : exec a w = (w', is)) :
    Reaches exec ⟨w, held, .op a :: js⟩ ⟨w', held, is ++ js⟩ := by
  apply Relation.ReflTransGen.single
  simp only [step, hexec]

theorem returns_nil : Returns exec held [] w w := fun _ => Relation.ReflTransGen.refl

theorem Returns.append (h : Returns exec held is w w') (h' : Returns exec held js w' w'') :
    Returns exec held (is ++ js) w w'' := by
  intro rest
  rw [List.append_assoc]
  exact (h (js ++ rest)).trans (h' rest)

theorem Returns.op (hexec : exec a w = (w', is)) (h : Returns exec held is w' w'') :
    Returns exec held [.op a] w w'' := fun rest => (reaches_op hexec).trans (h rest)

theorem Returns.locked (hl : l ∉ held) (h : Returns exec (l :: held) is w w') :
    Returns exec held (.lock l :: is ++ [.unlock l]) w w' := by
  intro rest
  have hbody := h ([.unlock l] ++ rest)
  rw [← List.append_assoc] at hbody
  exact ((reaches_lock hl).trans hbody).trans reaches_unlock

theorem Returns.ends (h : Returns exec held is w w') : Ends exec ⟨w, held, is⟩ := by
  have hreach := h []
  rw [List.append_nil] at hreach
  exact ⟨_, hreach, rfl⟩

theorem hangs_lock (hl : l ∈ held) : Hangs exec held (.lock l :: is) w := fun rest =>
  ⟨_, Relation.ReflTransGen.refl, l, hl, is ++ rest, rfl⟩

theorem Hangs.append (h : Hangs exec held is w) : Hangs exec held (is ++ js) w := by
  intro rest
  rw [List.append_assoc]
  exact h (js ++ rest)

theorem Returns.hangs (h : Returns exec held is w w') (h' : Hangs exec held js w') :
    Hangs exec held (is ++ js) w := by
  intro rest
  obtain ⟨t, hreach, hself⟩ := h' rest
  rw [List.append_assoc]
  exact ⟨t, (h (js ++ rest)).trans hreach, hself⟩

theorem Hangs.op (hexec : exec a w = (w', is)) (h : Hangs exec held is w') :
    Hangs exec held [.op a] w := by
  intro rest
  obtain ⟨t, hreach, hself⟩ := h rest
  exact ⟨t, (reaches_op hexec).trans hreach, hself⟩

theorem Hangs.locked (hl : l ∉ held) (h : Hangs exec (l :: held) is w) :
    Hangs exec held (.lock l :: is ++ [.unlock l]) w := by
  intro rest
  obtain ⟨t, hreach, hself⟩ := h ([.unlock l] ++ rest)
  rw [← List.append_assoc] at hreach
  exact ⟨t, (reaches_lock hl).trans hreach, hself⟩

theorem Hangs.not_ends (h : Hangs exec held is w) : ¬ Ends exec ⟨w, held, is⟩ := by
  intro hends
  obtain ⟨t, hreach, hself⟩ := h []
  rw [List.append_nil] at hreach
  exact hends.not_selfLocks hreach hself

end Casting.Locks
