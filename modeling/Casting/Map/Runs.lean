import Casting.Framework.Transition
import Casting.Map.Cursor
import Mathlib.Data.Set.Card

/-!
# Runs of calls on a map in memory

Sequences of `map_insert`, `map_remove` and `map_clear`.  A call whose behaviour is undefined has
no successor.
-/

namespace Casting

open MapNode Transition

variable {δ : Type}

/-- A call on a map, with what its environment does in it. -/
inductive NodeCall (δ : Type)
  | insert (supply : NodeMap.Supply δ) (data : Option δ)
  | remove (data : Option δ)
  | clear (rounds : Nat)

/-- `lc_alloc` gives the call a node that is not in use. -/
def NodeCall.Fresh (h : Nodes δ) : NodeCall δ → Prop
  | .insert supply _ => supply.Fresh h
  | .remove _ => True
  | .clear _ => True

instance (h : Nodes δ) (c : NodeCall δ) : Decidable (c.Fresh h) :=
  match c with
  | .insert supply _ =>
      inferInstanceAs (Decidable (∀ n ∈ supply.alloc, n ≠ sentinal ∧ h n = none))
  | .remove _ => .isTrue trivial
  | .clear _ => .isTrue trivial

namespace NodeMap

def call (m : NodeMap δ) : NodeCall δ → Except MapFault (NodeMap δ)
  | .insert supply data => (m.insert supply data).map Prod.fst
  | .remove data => (m.remove data).map Prod.fst
  | .clear rounds => m.clear rounds

def step (m : NodeMap δ) (c : NodeCall δ) : Option (NodeMap δ) :=
  if c.Fresh m.nodes then (m.call c).toOption else none

/-- The nodes that the links lead to from the root. -/
inductive Linked (m : NodeMap δ) : NodeRef → Prop
  | root (hne : m.root ≠ sentinal) : m.Linked m.root
  | link {n target : NodeRef} {dir : Bool} (hn : m.Linked n)
      (hlink : m.nodes.link n dir = .ok target) (hne : target ≠ sentinal) : m.Linked target

/-- The entries that can be reached from the root. -/
def entries (m : NodeMap δ) : Set NodeRef := {n | m.Linked n ∧ m.nodes n ≠ none}

/-- The calls that build a map: insertions, but not of a key that is there where elements are
copied, and removals. -/
def Builds (m : NodeMap δ) : NodeCall δ → Prop
  | .insert _ data => m.copies = true → ∀ rounds x, m.find rounds data ≠ .ok (some x)
  | .remove _ => True
  | .clear _ => False

variable {m m' : NodeMap δ} {t : MapNode (Entry δ)} {supply : Supply δ} {data : Option δ}

theorem step_eq_some {c : NodeCall δ} :
    m.step c = some m' ↔ c.Fresh m.nodes ∧ m.call c = .ok m' := by
  rw [step]
  split
  · rename_i hfresh
    cases m.call c <;> simp [hfresh, Except.toOption]
  · rename_i hused
    simp [hused]

/-! ### What can be reached -/

theorem refs_closed {h : Nodes δ} (ht : t.Laid h) {n target : NodeRef} {dir : Bool}
    (hn : n ∈ t.refs) (hlink : h.link n dir = .ok target) (hne : target ≠ sentinal) :
    target ∈ t.refs := by
  obtain ⟨fs, l, a, x, b, hplug, rfl⟩ := exists_plug hn
  rw [← hplug] at ht ⊢
  obtain ⟨hx, hcell, ha, hb⟩ := (laid_plug.mp ht).1
  rw [Nodes.link_eq hx hcell] at hlink
  rw [(refs_plug _ _).mem_iff, List.mem_append, refs_node, List.mem_append, List.mem_cons]
  cases dir with
  | false =>
      cases hlink
      exact .inl (.inl (addr_mem fun hnil => hne (ha.addr_eq_sentinal.mpr hnil)))
  | true =>
      cases hlink
      exact .inl (.inr (.inr (addr_mem fun hnil => hne (hb.addr_eq_sentinal.mpr hnil))))

theorem linked_of_addr {s : MapNode (Entry δ)} (hs : s.Laid m.nodes)
    (haddr : s ≠ .nil → m.Linked s.addr) {n : NodeRef} (hn : n ∈ s.refs) : m.Linked n := by
  induction s with
  | nil => simp at hn
  | node l a x b iha ihb =>
      obtain ⟨hx, hcell, ha, hb⟩ := hs
      have hnode : m.Linked x.1 := haddr (by simp)
      rw [refs_node, List.mem_append, List.mem_cons] at hn
      rcases hn with hn | rfl | hn
      · refine iha ha (fun hne => ?_) hn
        exact hnode.link (Nodes.link_eq hx hcell false) (mt ha.addr_eq_sentinal.mp hne)
      · exact hnode
      · refine ihb hb (fun hne => ?_) hn
        exact hnode.link (Nodes.link_eq hx hcell true) (mt hb.addr_eq_sentinal.mp hne)

theorem Holds.linked_iff (ht : m.Holds t) {n : NodeRef} : m.Linked n ↔ n ∈ t.refs := by
  constructor
  · intro hn
    induction hn with
    | root hne =>
        rw [ht.root]
        exact addr_mem (mt ht.root_eq_sentinal.mpr hne)
    | link hn hlink hne ih => exact refs_closed ht.laid ih hlink hne
  · apply linked_of_addr ht.laid
    intro hne
    rw [← ht.root]
    exact .root (mt ht.root_eq_sentinal.mp hne)

theorem Holds.entries_eq (ht : m.Holds t) : m.entries = {n | n ∈ t.refs} := by
  ext n
  constructor
  · intro ⟨hn, _⟩
    exact ht.linked_iff.mp hn
  · intro hn
    exact ⟨ht.linked_iff.mpr hn, ht.laid.live hn⟩

theorem Holds.ncard_entries (ht : m.Holds t) : m.entries.ncard = t.toList.length := by
  have hcoe : {n | n ∈ t.refs} = (t.refs.toFinset : Set NodeRef) := by
    ext n
    simp
  rw [ht.entries_eq, hcoe, Set.ncard_coe_finset, List.toFinset_card_of_nodup ht.nodup, refs,
    List.length_map]

/-- Fewer than `2 ^ 32 - 1` entries make at most 31 levels of at most two nodes on a path. -/
theorem Holds.height_le (ht : m.Holds t) (hfew : m.entries.ncard < 2 ^ 32 - 1) :
    t.height ≤ 62 := by
  obtain ⟨n, hbalanced⟩ := ht.balanced
  have hpow := hbalanced.pow_le
  rw [ht.ncard_entries] at hfew
  have hsmall : 2 ^ n < 2 ^ 32 := by omega
  have hlevels : n < 32 := (Nat.pow_lt_pow_iff_right (by decide)).mp hsmall
  have := hbalanced.height_le
  omega

/-! ### Finding -/

theorem findLoop_laid {cmp : δ → δ → ℤ} {h : Nodes δ} {rounds : Nat} {d : Entry δ}
    (ht : t.Laid h) (hrounds : t.searchPath (keyed cmp) d ≤ rounds) :
    findLoop cmp h d.2 rounds t.addr = .ok ((t.find (keyed cmp) d).map Prod.snd) := by
  induction t generalizing rounds with
  | nil => cases rounds <;> rfl
  | node l a x b iha ihb =>
      obtain ⟨hx, hcell, ha, hb⟩ := ht
      have hdata : h.data x.1 = .ok x.2 := Nodes.data_eq hx hcell
      have hlink := Nodes.link_eq hx hcell
      cases rounds with
      | zero =>
          rw [searchPath] at hrounds
          omega
      | succ rounds =>
          simp only [searchPath, keyed] at hrounds
          simp only [addr_node, findLoop, if_neg hx, hdata, MapFault.ok_bind, MapNode.find, keyed]
          by_cases heq : cmp x.2 d.2 = 0
          · simp only [heq, if_true, Option.map_some]
          · simp only [heq, if_false, hlink, MapFault.ok_bind] at hrounds ⊢
            by_cases hlt : cmp x.2 d.2 < 0
            · simp only [hlt, if_true, decide_true, NodeCell.link] at hrounds ⊢
              exact ihb hb (by omega)
            · simp only [hlt, if_false, decide_false, NodeCell.link] at hrounds ⊢
              exact iha ha (by omega)

theorem findLoop_mem {cmp : δ → δ → ℤ} {h : Nodes δ} {rounds : Nat} {data y : δ} (ht : t.Laid h)
    (hfind : findLoop cmp h data rounds t.addr = .ok (some y)) :
    ∃ e ∈ t.toList, cmp e.2 data = 0 := by
  induction t generalizing rounds with
  | nil => cases rounds <;> cases hfind
  | node l a x b iha ihb =>
      obtain ⟨hx, hcell, ha, hb⟩ := ht
      have hdata : h.data x.1 = .ok x.2 := Nodes.data_eq hx hcell
      have hlink := Nodes.link_eq hx hcell
      simp only [toList, List.mem_append, List.mem_cons]
      cases rounds with
      | zero =>
          rw [addr_node, findLoop, if_neg hx] at hfind
          cases hfind
      | succ rounds =>
          simp only [addr_node, findLoop, if_neg hx, hdata, MapFault.ok_bind, hlink] at hfind
          by_cases heq : cmp x.2 data = 0
          · exact ⟨x, .inr (.inl rfl), heq⟩
          · by_cases hlt : cmp x.2 data < 0
            · simp only [heq, if_false, hlt, decide_true, NodeCell.link] at hfind
              obtain ⟨e, he, hkey⟩ := ihb hb hfind
              exact ⟨e, .inr (.inr he), hkey⟩
            · simp only [heq, if_false, hlt, decide_false, NodeCell.link] at hfind
              obtain ⟨e, he, hkey⟩ := iha ha hfind
              exact ⟨e, .inl he, hkey⟩

theorem Holds.find_eq (ht : m.Holds t) {rounds : Nat} {d : Entry δ}
    (hrounds : t.searchPath (keyed m.cmp) d ≤ rounds) :
    m.find rounds (some d.2) = .ok ((t.find (keyed m.cmp) d).map Prod.snd) := by
  rw [find, ht.root]
  exact findLoop_laid ht.laid hrounds

theorem Holds.absent (ht : m.Holds t) {d : Entry δ}
    (habsent : ∀ rounds x, m.find rounds (some d.2) ≠ .ok (some x)) :
    t.find (keyed m.cmp) d = none := by
  have hfind := ht.find_eq (Nat.le_refl (t.searchPath (keyed m.cmp) d))
  cases hfound : t.find (keyed m.cmp) d with
  | none => rfl
  | some x =>
      rw [hfound] at hfind
      exact (habsent _ _ hfind).elim

/-! ### One call -/

/-- A call leaves a tree in memory, and changes the size as the number of elements changes. -/
structure Follows (m : NodeMap δ) (t : MapNode (Entry δ)) (m' : NodeMap δ)
    (t' : MapNode (Entry δ)) : Prop where
  holds : m'.Holds t'
  copies : m'.copies = m.copies
  size : m'.size - t'.toList.length = m.size - t.toList.length

theorem insert_cases (ht : m.Holds t) (hfresh : supply.Fresh m.nodes)
    (hbuilds : m.Builds (.insert supply data)) :
    (heightLimit ≤ t.height ∧ m.insert supply data = .error .overrun) ∨
      ∃ m' t' reply, m.insert supply data = .ok (m', reply) ∧ Follows m t m' t' := by
  cases data with
  | none => exact .inr ⟨m, t, invalid, rfl, ht, rfl, rfl⟩
  | some data =>
      by_cases hfits : t.searchPath (keyed m.cmp) (sentinal, data) ≤ heightLimit
      · right
        cases hfind : t.find (keyed m.cmp) (sentinal, data) with
        | some x =>
            have hcopies : m.copies = false := by
              cases hcopies : m.copies with
              | false => rfl
              | true =>
                  rw [ht.absent (hbuilds hcopies)] at hfind
                  cases hfind
            obtain ⟨h', t', hreplace, hholds, hrefs, _⟩ :=
              replace_found ht hcopies hfind supply
            have hlength := congrArg List.length hrefs
            simp only [refs, List.length_map] at hlength
            exact ⟨_, t', _, (insert_found ht hfits hfind).trans hreplace, hholds, rfl,
              by rw [hlength]⟩
        | none =>
            cases hsupplied : m.supplied supply data with
            | error err =>
                exact ⟨m, t, err, insert_failed ht hfits hfind hsupplied, ht, rfl, rfl⟩
            | ok e =>
                obtain ⟨h', r, hinsert, hholds, _⟩ :=
                  insert_absent ht hfresh hfits hfind hsupplied
                refine ⟨_, _, _, hinsert, hholds, rfl, ?_⟩
                rw [length_attach]
                simp only [leaf, toList, List.length_append, List.length_cons, List.length_nil]
                push_cast
                omega
      · have hheight : t.searchPath (keyed m.cmp) (sentinal, data) ≤ t.height :=
          searchPath_le_height t
        exact .inl ⟨by omega, insert_overrun ht (Nat.lt_of_not_le hfits)⟩

theorem remove_cases (ht : m.Holds t) (hne : data = none ∨ t ≠ .nil) :
    (heightLimit ≤ t.height ∧ m.remove data = .error .overrun) ∨
      ∃ m' t' reply, m.remove data = .ok (m', reply) ∧ Follows m t m' t' := by
  cases data with
  | none => exact .inr ⟨m, t, none, rfl, ht, rfl, rfl⟩
  | some data =>
      have hne : t ≠ .nil := hne.resolve_left (by simp)
      by_cases hfits : t.removePath (keyed m.cmp) (sentinal, data) ≤ heightLimit
      · right
        cases hfind : t.find (keyed m.cmp) (sentinal, data) with
        | none => exact ⟨m, t, none, remove_missing ht hne hfits hfind, ht, rfl, rfl⟩
        | some x =>
            obtain ⟨h', t', hremove, hholds, hrelabel⟩ := remove_found ht hfits hfind
            have hlength := congrArg (fun s => s.toList.length) hrelabel
            have hremoved := length_remove hfind
            simp only [length_relabel] at hlength
            refine ⟨_, t', _, hremove, hholds, rfl, ?_⟩
            simp only [hlength, ← hremoved]
            push_cast
            omega
      · have hpath : t.removePath (keyed m.cmp) (sentinal, data) ≤ t.height + 1 := by
          cases hfind : t.find (keyed m.cmp) (sentinal, data) with
          | none =>
              rw [removePath_of_not_find hfind]
              exact Nat.succ_le_succ (searchPath_le_height t)
          | some x =>
              have := removePath_of_find hfind
              omega
        exact .inl ⟨by omega, remove_overrun ht hne (Nat.lt_of_not_le hfits)⟩

end NodeMap

end Casting
