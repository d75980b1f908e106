import Casting.Map.Runs

/-!
# Replacing an element that is there

`map_insert` of a key that is there passes the old element to `rel` and then lets `dup` write
through it; where `dup` fails, the node is freed and stays in the tree.
-/

namespace Casting

open MapNode

variable {δ : Type}

namespace NodeMap

variable {m m' : NodeMap δ} {t : MapNode (Entry δ)} {supply : Supply δ} {data : δ}
  {d x : Entry δ}

/-- What can be seen of a map: what is found, its size, its order and what cursors give. -/
structure SameView (m m' : NodeMap δ) : Prop where
  find : ∀ rounds data, m'.find rounds data = m.find rounds data
  size : m'.size = m.size
  ordered : ∀ depth, m'.ordered depth = m.ordered depth
  travel : ∀ dir dirs, (m'.travel dir dirs >>= fun cur => cur.value m'.nodes) =
    (m.travel dir dirs >>= fun cur => cur.value m.nodes)

theorem sameView_refl (m : NodeMap δ) : m.SameView m :=
  ⟨fun _ _ => rfl, rfl, fun _ => rfl, fun _ _ => rfl⟩

/-- The entry of the tree that a search for new data comes upon. -/
def present (m : NodeMap δ) (t : MapNode (Entry δ)) (data : δ) : Option (Entry δ) :=
  t.find (keyed m.cmp) (sentinal, data)

/-- The code with which `dup` or `lc_alloc` fails in the insertion: a key that is there needs
a copy only, and that only in a map that copies. -/
def Fails (m : NodeMap δ) (t : MapNode (Entry δ)) (supply : Supply δ) (data : δ) (err : ℤ) :
    Prop :=
  match m.present t data with
  | some _ => m.copies = true ∧ supply.copy = .error err
  | none => m.supplied supply data = .error err

/-- The node of `x` holds `copy`, `x` was passed to `rel` once, and nothing else is changed. -/
def replaced (m : NodeMap δ) (x : Entry δ) (copy : δ) : NodeMap δ :=
  { m with
    nodes := Function.update m.nodes x.1 ((m.nodes x.1).map fun c => { c with data := copy })
    released := m.released ++ [x.2] }

/-- A copy of the new element replaces the old one, and a failure leaves no trace. -/
structure ReplacesOrKeeps (m : NodeMap δ) (t : MapNode (Entry δ)) (supply : Supply δ)
    (data : δ) : Prop where
  replaces : ∀ x copy, m.present t data = some x → m.copies = true → m.releases = true →
    supply.copy = .ok copy → m.insert supply (some data) = .ok (m.replaced x copy, m.size)
  keeps : ∀ err, m.Fails t supply data err →
    ∃ m', m.insert supply (some data) = .ok (m', err) ∧ m.SameView m'

/-- A key that is there needs no copy, or needs no release and gets its copy; the search for one
that is not there stays in its path array, if it ends in a failure. -/
def CopiesSafely (m : NodeMap δ) (t : MapNode (Entry δ)) (supply : Supply δ) (data : δ) : Prop :=
  match m.present t data with
  | some _ => m.copies = false ∨ (m.releases = false ∧ supply.copy.isOk = true)
  | none => (m.supplied supply data).isOk = true ∨
      t.searchPath (keyed m.cmp) (sentinal, data) ≤ heightLimit

/-- The search for a key whose node is freed comes to that node. -/
theorem findLoop_freed {cmp : δ → δ → ℤ} {h : Nodes δ} {rounds : Nat} (ht : t.Laid h)
    (hnodup : t.refs.Nodup) (hfound : t.find (keyed cmp) d = some x)
    (hrounds : t.searchPath (keyed cmp) d ≤ rounds) :
    findLoop cmp (Function.update h x.1 none) d.2 rounds t.addr = .error .dangling := by
  induction t generalizing rounds with
  | nil => cases hfound
  | node l a y b iha ihb =>
      obtain ⟨hy, hcell, ha, hb⟩ := ht
      obtain ⟨hanodup, hbnodup, hya, hyb, _⟩ := nodup_node.mp hnodup
      cases rounds with
      | zero =>
          rw [searchPath] at hrounds
          omega
      | succ rounds =>
          simp only [MapNode.find, searchPath, keyed] at hfound hrounds
          by_cases heq : cmp y.2 d.2 = 0
          · simp only [heq, if_true, Option.some.injEq] at hfound
            subst hfound
            rw [addr_node, findLoop, if_neg hy, Nodes.data, if_neg hy, Nodes.cell,
              Function.update_self]
            rfl
          · simp only [heq, if_false] at hfound hrounds
            have hcell' : y.1 ≠ x.1 →
                Function.update h x.1 none y.1 = some ⟨l, y.2, a.addr, b.addr⟩ := by
              intro hne
              rw [Function.update_of_ne hne, hcell]
            by_cases hlt : cmp y.2 d.2 < 0
            · simp only [hlt, if_true] at hfound hrounds
              have hne : y.1 ≠ x.1 := by
                intro heq
                rw [heq] at hyb
                exact hyb (mem_refs_of_find hfound)
              simp only [addr_node, findLoop, if_neg hy, Nodes.data_eq hy (hcell' hne),
                Nodes.link_eq hy (hcell' hne), MapFault.ok_bind, heq, if_false, hlt, decide_true,
                NodeCell.link]
              exact ihb hb hbnodup hfound (by omega)
            · simp only [hlt, if_false] at hfound hrounds
              have hne : y.1 ≠ x.1 := by
                intro heq
                rw [heq] at hya
                exact hya (mem_refs_of_find hfound)
              simp only [addr_node, findLoop, if_neg hy, Nodes.data_eq hy (hcell' hne),
                Nodes.link_eq hy (hcell' hne), MapFault.ok_bind, heq, if_false, hlt, decide_false,
                NodeCell.link]
              exact iha ha hanodup hfound (by omega)

theorem insert_copied (ht : m.Holds t) (hcopies : m.copies = true)
    (hfound : m.present t data = some x) (supply : Supply δ) :
    m.insert supply (some data) = .error .overrun ∨
      match supply.copy with
      | .ok _ => m.insert supply (some data) = .error .element
      | .error err => ∃ released, m.insert supply (some data) =
          .ok ({ m with nodes := Function.update m.nodes x.1 none, released }, err) := by
  by_cases hfits : t.searchPath (keyed m.cmp) (sentinal, data) ≤ heightLimit
  · right
    obtain ⟨fs, l, a, b, _, _, hx, hcell, _⟩ := ht.at_found hfound
    rw [insert_found ht hfits hfound, replace, Nodes.data_eq hx hcell, hcopies]
    cases supply.copy with
    | ok copy => rfl
    | error err =>
        simp only [MapFault.ok_bind, if_true, Nodes.free_eq hx hcell]
        exact ⟨_, rfl⟩
  · exact .inl (insert_overrun ht (Nat.lt_of_not_le hfits))

/-- A node that is freed in the tree is missed by the next search for its key. -/
theorem not_sameView_freed (ht : m.Holds t) (hfound : m.present t data = some x)
    (released : List δ) :
    ¬ m.SameView { m with nodes := Function.update m.nodes x.1 none, released } := by
  intro hview
  have hbefore := ht.find_eq (Nat.le_refl (t.searchPath (keyed m.cmp) (sentinal, data)))
  have hafter := findLoop_freed ht.laid ht.nodup hfound (Nat.le_refl _)
  have hsame := hview.find (t.searchPath (keyed m.cmp) (sentinal, data)) (some data)
  rw [hbefore] at hsame
  rw [← ht.root] at hafter
  cases hafter.symm.trans hsame

theorem replacesOrKeeps_present (ht : m.Holds t) (hfound : m.present t data = some x) :
    m.ReplacesOrKeeps t supply data ↔
      m.copies = false ∨ (m.releases = false ∧ supply.copy.isOk = true) := by
  constructor
  · intro h
    cases hcopies : m.copies with
    | false => exact .inl rfl
    | true =>
        right
        have hinsert := insert_copied ht hcopies hfound supply
        cases hcopy : supply.copy with
        | ok copy =>
            refine ⟨?_, rfl⟩
            cases hreleases : m.releases with
            | false => rfl
            | true =>
                have hok := h.replaces x copy hfound hcopies hreleases hcopy
                rw [hcopy, hok] at hinsert
                rcases hinsert with hover | helement
                · cases hover
                · cases helement
        | error err =>
            have hfails : m.Fails t supply data err := by
              rw [Fails, hfound]
              exact ⟨hcopies, hcopy⟩
            obtain ⟨m', hok, hview⟩ := h.keeps err hfails
            rw [hcopy, hok] at hinsert
            rcases hinsert with hover | ⟨released, hfreed⟩
            · cases hover
            · cases hfreed
              exact (not_sameView_freed ht hfound released hview).elim
  · intro hsafe
    refine ⟨?_, ?_⟩
    · intro y copy _ hcopies hreleases _
      rcases hsafe with hplain | ⟨hkept, _⟩
      · rw [hcopies] at hplain
        cases hplain
      · rw [hreleases] at hkept
        cases hkept
    · intro err hfails
      rw [Fails, hfound] at hfails
      obtain ⟨hcopies, hcopy⟩ := hfails
      rcases hsafe with hplain | ⟨_, hok⟩
      · rw [hcopies] at hplain
        cases hplain
      · rw [hcopy] at hok
        cases hok

theorem replacesOrKeeps_absent (ht : m.Holds t) (habsent : m.present t data = none) :
    m.ReplacesOrKeeps t supply data ↔ (m.supplied supply data).isOk = true ∨
      t.searchPath (keyed m.cmp) (sentinal, data) ≤ heightLimit := by
  constructor
  · intro h
    cases hsupplied : m.supplied supply data with
    | ok e => exact .inl rfl
    | error err =>
        right
        by_contra hlong
        have hfails : m.Fails t supply data err := by
          rw [Fails, habsent]
          exact hsupplied
        obtain ⟨m', hok, _⟩ := h.keeps err hfails
        have hover : m.insert supply (some data) = .error .overrun :=
          insert_overrun ht (Nat.lt_of_not_le hlong)
        cases hok.symm.trans hover
  · intro hsafe
    refine ⟨?_, ?_⟩
    · intro x copy hfound
      rw [habsent] at hfound
      cases hfound
    · intro err hfails
      rw [Fails, habsent] at hfails
      have hfits := hsafe.resolve_left (by simp [hfails, Except.isOk, Except.toBool])
      exact ⟨m, insert_failed ht hfits habsent hfails, sameView_refl m⟩

/-- An insertion replaces its key by a copy, and leaves no trace of a failure, exactly when no
copy is made over an element and no search for a new key leaves its path array. -/
theorem replacesOrKeeps_iff (ht : m.Holds t) :
    m.ReplacesOrKeeps t supply data ↔ m.CopiesSafely t supply data := by
  rw [CopiesSafely]
  cases hpresent : m.present t data with
  | some x => exact replacesOrKeeps_present ht hpresent
  | none => exact replacesOrKeeps_absent ht hpresent

/-- A map with copies of one element, 5, at node 1. -/
def single : NodeMap ℤ where
  nodes := fun n => if n = 1 then some ⟨1, 5, sentinal, sentinal⟩ else none
  root := 1
  cmp := fun x y => x - y
  copies := true
  releases := true
  size := 1
  released := []

theorem single_holds : single.Holds (leaf (1, 5)) := by
  refine ⟨rfl, ⟨by decide, rfl, trivial, trivial⟩, by decide, 1, .two _ .nil .nil⟩

/-- A failed insertion of a new key into that map leaves no trace. -/
theorem replacesOrKeeps_single : single.ReplacesOrKeeps (leaf (1, 5)) ⟨none, .ok 7⟩ 7 := by
  refine (replacesOrKeeps_iff single_holds).mpr ?_
  exact .inr (by decide)

/-- Inserting 5 again writes the copy through the released element. -/
theorem replacesOrKeeps_fails : ¬ ∀ (m : NodeMap ℤ) (t : MapNode (Entry ℤ)) (supply : Supply ℤ)
    (data : ℤ), m.Holds t → m.ReplacesOrKeeps t supply data := by
  intro hall
  have h := hall single (leaf (1, 5)) ⟨some 2, .ok 5⟩ 5 single_holds
  have hok := h.replaces (1, 5) 5 rfl rfl rfl rfl
  cases hok

end NodeMap

end Casting
