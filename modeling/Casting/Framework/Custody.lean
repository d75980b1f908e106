import Mathlib.Data.List.Nodup
import Mathlib.Data.List.Pairwise
import Mathlib.Data.List.Perm.Subperm

/-!
# Custody of unique tokens

Places hold lists of tokens, and no token is in two places or twice in one.  A step that
changes finitely many places keeps this when the tokens in them afterwards are, with
multiplicity, among those in them before and some that were nowhere.
-/

namespace Casting.Custody

variable {Place Token : Type*}

structure Disjointly (held : Place → List Token) : Prop where
  nodup : ∀ p, (held p).Nodup
  apart : ∀ p q x, x ∈ held p → x ∈ held q → p = q

variable {f g : Place → List Token}

theorem Disjointly.nodup_flatMap (hf : Disjointly f) {places : List Place} (h : places.Nodup) :
    (places.flatMap f).Nodup := by
  rw [List.nodup_flatMap]
  constructor
  · exact fun p _ => hf.nodup p
  · apply h.imp
    intro p q hne x hp hq
    exact hne (hf.apart p q x hp hq)

/-- How custody changes hands: `gone` are the tokens that leave the changed places for good and
`fresh` those that enter them from outside. -/
structure Handover (f g : Place → List Token) (fresh gone : List Token) (places : List Place) :
    Prop where
  nodup : places.Nodup
  same : ∀ p, p ∉ places → g p = f p
  moved : (gone ++ places.flatMap g).Subperm (fresh ++ places.flatMap f)

variable {fresh gone : List Token} {places : List Place}

theorem Handover.mem_moved (h : Handover f g fresh gone places) {x : Token}
    (hx : x ∈ gone ++ places.flatMap g) : x ∈ fresh ∨ ∃ q ∈ places, x ∈ f q := by
  rcases List.mem_append.mp (h.moved.subset hx) with hfresh | hold
  · exact .inl hfresh
  · exact .inr (List.mem_flatMap.mp hold)

theorem Handover.mem_changed (h : Handover f g fresh gone places) {p : Place} {x : Token}
    (hp : p ∈ places) (hx : x ∈ g p) : x ∈ fresh ∨ ∃ q ∈ places, x ∈ f q :=
  h.mem_moved (List.mem_append_right _ (List.mem_flatMap.mpr ⟨p, hp, hx⟩))

theorem Handover.mem (h : Handover f g fresh gone places) {p : Place} {x : Token}
    (hx : x ∈ g p) : x ∈ fresh ∨ ∃ q, x ∈ f q := by
  by_cases hp : p ∈ places
  · rcases h.mem_changed hp hx with hfresh | ⟨q, _, hq⟩
    · exact .inl hfresh
    · exact .inr ⟨q, hq⟩
  · rw [h.same p hp] at hx
    exact .inr ⟨p, hx⟩

theorem Handover.nodup_moved (h : Handover f g fresh gone places) (hf : Disjointly f)
    (hfresh : fresh.Nodup) (hnew : ∀ x ∈ fresh, ∀ p, x ∉ f p) :
    (gone ++ places.flatMap g).Nodup := by
  have hbefore : (fresh ++ places.flatMap f).Nodup := by
    rw [List.nodup_append]
    refine ⟨hfresh, hf.nodup_flatMap h.nodup, ?_⟩
    rintro x hx y hy rfl
    obtain ⟨p, _, hp⟩ := List.mem_flatMap.mp hy
    exact hnew x hx p hp
  obtain ⟨l, hperm, hsub⟩ := h.moved
  exact hperm.nodup_iff.mp (hbefore.sublist hsub)

theorem Handover.disjointly (h : Handover f g fresh gone places) (hf : Disjointly f)
    (hfresh : fresh.Nodup) (hnew : ∀ x ∈ fresh, ∀ p, x ∉ f p) : Disjointly g := by
  have hafter := (List.nodup_append.mp (h.nodup_moved hf hfresh hnew)).2.1
  rw [List.nodup_flatMap] at hafter
  -- a token in a changed place and in an unchanged one was in two places before
  have hcross : ∀ p q x, p ∈ places → q ∉ places → x ∈ g p → x ∈ g q → False := by
    intro p q x hp hq hxp hxq
    rw [h.same q hq] at hxq
    rcases h.mem_changed hp hxp with hx | ⟨r, hr, hxr⟩
    · exact hnew x hx q hxq
    · have heq := hf.apart r q x hxr hxq
      rw [heq] at hr
      exact hq hr
  constructor
  · intro p
    by_cases hp : p ∈ places
    · exact hafter.1 p hp
    · rw [h.same p hp]
      exact hf.nodup p
  · intro p q x hxp hxq
    by_cases hp : p ∈ places
    · by_cases hq : q ∈ places
      · by_contra hne
        have hsymm : Std.Symm (Function.onFun List.Disjoint g) :=
          ⟨fun _ _ hdisjoint x hx hx' => hdisjoint hx' hx⟩
        exact hafter.2.forall hp hq hne hxp hxq
      · exact (hcross p q x hp hq hxp hxq).elim
    · by_cases hq : q ∈ places
      · exact (hcross q p x hq hp hxq hxp).elim
      · rw [h.same p hp] at hxp
        rw [h.same q hq] at hxq
        exact hf.apart p q x hxp hxq

theorem Handover.not_mem_of_gone (h : Handover f g fresh gone places) (hf : Disjointly f)
    (hfresh : fresh.Nodup) (hnew : ∀ x ∈ fresh, ∀ p, x ∉ f p) {x : Token} (hx : x ∈ gone)
    (p : Place) : x ∉ g p := by
  intro hxp
  by_cases hp : p ∈ places
  · exact (List.nodup_append.mp (h.nodup_moved hf hfresh hnew)).2.2 x hx x
      (List.mem_flatMap.mpr ⟨p, hp, hxp⟩) rfl
  · rw [h.same p hp] at hxp
    rcases h.mem_moved (List.mem_append_left _ hx) with hx' | ⟨q, hq, hxq⟩
    · exact hnew x hx' p hxp
    · have heq := hf.apart q p x hxq hxp
      rw [heq] at hq
      exact hp hq

end Casting.Custody
