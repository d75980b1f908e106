import Mathlib.Data.List.Basic
import Mathlib.Logic.Function.Basic

/-!
# Chains of linked nodes

Nodes in memory, each with a link to the next one.  Memory is a function, so that a chain that
comes to an end has no node twice, and what is written to other nodes leaves it alone.
-/

namespace Casting.Chain

structure Node (Address α : Type*) where
  next : Option Address
  data : α
  deriving DecidableEq, Repr

abbrev Memory (Address α : Type*) := Address → Option (Node Address α)

variable {Address α : Type*}

/-- From `p` on there are just these nodes with these data. -/
def Linked (memory : Memory Address α) : Option Address → List (Address × α) → Prop
  | p, [] => p = none
  | p, n :: ns =>
      p = some n.1 ∧ ∃ next, memory n.1 = some ⟨next, n.2⟩ ∧ Linked memory next ns

variable {memory : Memory Address α} {p : Option Address} {ns : List (Address × α)}

theorem Linked.unique {ns' : List (Address × α)} (h : Linked memory p ns)
    (h' : Linked memory p ns') : ns = ns' := by
  induction ns generalizing p ns' with
  | nil =>
    have hp : p = none := h
    cases ns' with
    | nil => rfl
    | cons n' ns' =>
      have hp' := h'.1
      rw [hp] at hp'
      cases hp'
  | cons n ns ih =>
    obtain ⟨hp, next, hn, hrest⟩ := h
    cases ns' with
    | nil =>
      have hp' : p = none := h'
      rw [hp] at hp'
      cases hp'
    | cons n' ns' =>
      obtain ⟨hp', next', hn', hrest'⟩ := h'
      rw [hp, Option.some.injEq] at hp'
      rw [← hp', hn, Option.some.injEq, Node.mk.injEq] at hn'
      obtain ⟨rfl, hdata⟩ := hn'
      rw [ih hrest hrest', Prod.ext hp' hdata]

theorem Linked.suffix {n : Address} {x : α} (h : Linked memory p ns) (hmem : (n, x) ∈ ns) :
    ∃ before after, ns = before ++ (n, x) :: after ∧
      Linked memory (some n) ((n, x) :: after) := by
  induction ns generalizing p with
  | nil => cases hmem
  | cons m ns ih =>
    rcases List.mem_cons.mp hmem with rfl | hmem
    · exact ⟨[], ns, rfl, rfl, h.2⟩
    · obtain ⟨-, next, -, hrest⟩ := h
      obtain ⟨before, after, rfl, hlinked⟩ := ih hrest hmem
      exact ⟨m :: before, after, rfl, hlinked⟩

theorem Linked.nodup (h : Linked memory p ns) : (ns.map Prod.fst).Nodup := by
  induction ns generalizing p with
  | nil => exact List.nodup_nil
  | cons n ns ih =>
    have hp := h.1
    obtain ⟨-, next, hn, hrest⟩ := id h
    rw [List.map_cons, List.nodup_cons]
    refine ⟨fun hmem => ?_, ih hrest⟩
    obtain ⟨⟨m, x⟩, hx, heq⟩ := List.mem_map.mp hmem
    obtain ⟨before, after, hsplit, hlinked⟩ := hrest.suffix hx
    -- the rest of the chain would be as long as all of it
    rw [hp, ← heq] at h
    have hlength := congrArg List.length (h.unique hlinked)
    rw [hsplit, List.length_cons, List.length_append, List.length_cons] at hlength
    omega

theorem Linked.allocated (h : Linked memory p ns) {n : Address} (hn : n ∈ ns.map Prod.fst) :
    memory n ≠ none := by
  obtain ⟨⟨m, x⟩, hx, rfl⟩ := List.mem_map.mp hn
  obtain ⟨-, after, -, -, next, hnode, -⟩ := h.suffix hx
  rw [hnode]
  exact Option.some_ne_none _

theorem Linked.last {n : Address} {x : α} (h : Linked memory p (ns ++ [(n, x)])) :
    memory n = some ⟨none, x⟩ := by
  induction ns generalizing p with
  | nil =>
    obtain ⟨-, next, hn, hrest⟩ := h
    have hnext : next = none := hrest
    rw [← hnext]
    exact hn
  | cons m ns ih =>
    obtain ⟨-, next, -, hrest⟩ := h
    exact ih hrest

section Update

variable [DecidableEq Address]

theorem Linked.frame {n : Address} (h : Linked memory p ns) (hn : n ∉ ns.map Prod.fst)
    (node : Option (Node Address α)) : Linked (Function.update memory n node) p ns := by
  induction ns generalizing p with
  | nil => exact h
  | cons m ns ih =>
    rw [List.map_cons, List.mem_cons, not_or] at hn
    obtain ⟨hp, next, hm, hrest⟩ := h
    refine ⟨hp, next, ?_, ih hrest hn.2⟩
    rw [Function.update_of_ne (Ne.symm hn.1)]
    exact hm

theorem Linked.snoc {m n : Address} {x y : α} (h : Linked memory p (ns ++ [(m, x)]))
    (hn : memory n = none) :
    Linked (Function.update (Function.update memory n (some ⟨none, y⟩)) m (some ⟨some n, x⟩)) p
      (ns ++ [(m, x), (n, y)]) := by
  have hfresh : ∀ b ∈ (ns ++ [(m, x)]).map Prod.fst, b ≠ n := by
    rintro b hb rfl
    exact h.allocated hb hn
  have hnodup := h.nodup
  induction ns generalizing p with
  | nil =>
    obtain ⟨hp, -⟩ := h
    refine ⟨hp, some n, Function.update_self .., rfl, none, ?_, rfl⟩
    have hne : m ≠ n := hfresh m List.mem_cons_self
    rw [Function.update_of_ne (Ne.symm hne)]
    exact Function.update_self ..
  | cons b ns ih =>
    rw [List.cons_append, List.map_cons] at hfresh hnodup
    obtain ⟨hp, next, hb, hrest⟩ := h
    have hbn : b.1 ≠ n := hfresh b.1 List.mem_cons_self
    have hbm : b.1 ≠ m := by
      intro heq
      have hnot := (List.nodup_cons.mp hnodup).1
      exact hnot (List.mem_map.mpr ⟨(m, x), List.mem_append_right _ List.mem_cons_self, heq.symm⟩)
    refine ⟨hp, next, ?_, ih hrest (fun c hc => hfresh c (List.mem_cons_of_mem _ hc))
      (List.nodup_cons.mp hnodup).2⟩
    rw [Function.update_of_ne hbm, Function.update_of_ne hbn]
    exact hb

theorem Linked.tail {n : Address} {x : α} (h : Linked memory p ((n, x) :: ns)) :
    ∃ next, p = some n ∧ memory n = some ⟨next, x⟩ ∧
      Linked (Function.update memory n none) next ns := by
  have hnodup := h.nodup
  rw [List.map_cons, List.nodup_cons] at hnodup
  obtain ⟨hp, next, hn, hrest⟩ := h
  exact ⟨next, hp, hn, hrest.frame hnodup.1 none⟩

end Update

end Casting.Chain
