import Casting.Map.Refinement

/-!
# The entries of a map in memory, in order

The calls that build a map keep its tree in search order.  So the entries that can be reached are
those of one ascending list, and `map_ordered` visits them in the order of that list.
-/

namespace Casting

open MapNode Transition

section

variable {α β : Type} {κ : Type*} [LinearOrder κ]

theorem toList_relabel (g : α → β) (t : MapNode α) :
    (t.relabel g).toList = t.toList.map g := by
  induction t with
  | nil => rfl
  | node level a x b iha ihb =>
      rw [relabel, toList, toList, iha, ihb, List.map_append, List.map_cons]

theorem ordered_relabel (g : α → β) (key : β → κ) (t : MapNode α) :
    Ordered key (t.relabel g) ↔ Ordered (fun x => key (g x)) t := by
  rw [Ordered, Ordered, toList_relabel, List.pairwise_map]

end

variable {δ : Type} {κ : Type*} [LinearOrder κ]

/-- The key of the element that the call inserts. -/
def NodeCall.inserted (key : δ → κ) : NodeCall δ → Option κ
  | .insert _ data => data.map key
  | .remove _ => none
  | .clear _ => none

/-- Where `dup` makes a copy, it has the key of the element. -/
def NodeCall.Clones (key : δ → κ) : NodeCall δ → Prop
  | .insert supply data => ∀ x ∈ data, ∀ copy, supply.copy = .ok copy → key copy = key x
  | .remove _ => True
  | .clear _ => True

namespace NodeMap

variable {key : δ → κ} {m m' : NodeMap δ} {t : MapNode (Entry δ)} {supply : Supply δ}
  {data : Option δ}

/-- The list has the entries that can be reached, each of them once and in ascending order. -/
structure InOrder (key : δ → κ) (m : NodeMap δ) (es : List (Entry δ)) : Prop where
  nodup : (es.map Prod.fst).Nodup
  mem : ∀ n, n ∈ es.map Prod.fst ↔ n ∈ m.entries
  data : ∀ e ∈ es, m.nodes.data e.1 = .ok e.2
  ascending : es.Pairwise fun x y => key x.2 < key y.2

/-- The map is the tree `t` in memory, in search order. -/
structure Sorted (key : δ → κ) (m : NodeMap δ) (t : MapNode (Entry δ)) : Prop where
  holds : m.Holds t
  compares : Compares m.cmp key
  ordered : Ordered (fun e : Entry δ => key e.2) t

theorem sorted_init {cmp : δ → δ → ℤ} (hcmp : Compares cmp key) (nodes : Nodes δ)
    (copies releases : Bool) : (init nodes cmp copies releases).Sorted key .nil :=
  ⟨holds_init nodes cmp copies releases, hcmp, ordered_nil⟩

theorem compares_sub : Compares (fun x y : ℤ => x - y) id :=
  ⟨fun _ _ => sub_neg, fun _ _ => sub_eq_zero⟩

theorem Sorted.keyed (h : m.Sorted key t) :
    Compares (keyed m.cmp) (fun e : Entry δ => key e.2) :=
  ⟨fun x y => h.compares.lt x.2 y.2, fun x y => h.compares.eq x.2 y.2⟩

theorem data_laid {h : Nodes δ} (ht : t.Laid h) {e : Entry δ} (he : e ∈ t.toList) :
    h.data e.1 = .ok e.2 := by
  induction t with
  | nil => simp [toList] at he
  | node l a x b iha ihb =>
      obtain ⟨hx, hcell, ha, hb⟩ := ht
      rw [toList, List.mem_append, List.mem_cons] at he
      rcases he with he | rfl | he
      · exact iha ha he
      · exact Nodes.data_eq hx hcell
      · exact ihb hb he

theorem Sorted.inOrder (h : m.Sorted key t) : m.InOrder key t.toList where
  nodup := h.holds.nodup
  mem := by
    intro n
    rw [h.holds.entries_eq]
    exact Iff.rfl
  data := fun _ he => data_laid h.holds.laid he
  ascending := h.ordered

/-! ### Building a map -/

omit [LinearOrder κ] in
theorem key_supplied {data : δ} {e : Entry δ}
    (hclones : m.copies = true → (NodeCall.insert supply (some data)).Clones key)
    (he : m.supplied supply data = .ok e) : key e.2 = key data := by
  unfold supplied at he
  cases halloc : supply.alloc with
  | none =>
      rw [halloc] at he
      cases he
  | some n =>
      simp only [halloc] at he
      split at he
      · rename_i hcopies
        cases hcopy : supply.copy with
        | error err =>
            rw [hcopy] at he
            cases he
        | ok copy =>
            rw [hcopy] at he
            cases he
            exact hclones hcopies data rfl copy hcopy
      · cases he
        rfl

theorem Sorted.fits_of_insert (h : m.Sorted key t) {data : δ} {reply : ℤ}
    (hinsert : m.insert supply (some data) = .ok (m', reply)) :
    t.searchPath (NodeMap.keyed m.cmp) (sentinal, data) ≤ heightLimit := by
  by_contra hlong
  rw [insert_overrun (d := (sentinal, data)) h.holds (Nat.lt_of_not_le hlong)] at hinsert
  cases hinsert

theorem Sorted.insert_absent (h : m.Sorted key t) (hfresh : supply.Fresh m.nodes) {data : δ}
    (hfound : t.find (NodeMap.keyed m.cmp) (sentinal, data) = none)
    (hclones : m.copies = true → (NodeCall.insert supply (some data)).Clones key) {reply : ℤ}
    (hinsert : m.insert supply (some data) = .ok (m', reply)) :
    ∃ t', m'.Sorted key t' ∧ ∀ e ∈ t'.toList, e ∈ t.toList ∨ key e.2 = key data := by
  have hfits := h.fits_of_insert hinsert
  cases hsupplied : m.supplied supply data with
  | error err =>
      rw [insert_failed h.holds hfits hfound hsupplied] at hinsert
      cases hinsert
      exact ⟨t, h, fun _ he => .inl he⟩
  | ok e =>
      obtain ⟨h', r, hok, hholds, _⟩ :=
        NodeMap.insert_absent h.holds hfresh hfits hfound hsupplied
      rw [hok] at hinsert
      cases hinsert
      have hkey := key_supplied hclones hsupplied
      refine ⟨_, ⟨hholds, h.compares, ordered_attach h.keyed h.ordered hkey ?_⟩, ?_⟩
      · intro x hx hkey
        rw [(find_eq_some_iff h.keyed h.ordered).mpr ⟨hx, hkey⟩] at hfound
        cases hfound
      · intro x hx
        rcases (mem_toList_attach _ x t (leaf e)).mp hx with hx | hx
        · obtain rfl : x = e := by simpa [leaf, toList] using hx
          exact .inr hkey
        · exact .inl hx

theorem Sorted.insert (h : m.Sorted key t) (hfresh : supply.Fresh m.nodes)
    (hbuilds : m.Builds (.insert supply data))
    (hclones : m.copies = true → (NodeCall.insert supply data).Clones key) {reply : ℤ}
    (hinsert : m.insert supply data = .ok (m', reply)) :
    ∃ t', m'.Sorted key t' := by
  cases data with
  | none =>
      cases hinsert
      exact ⟨t, h⟩
  | some data =>
      have hfits := h.fits_of_insert hinsert
      cases hfound : t.find (NodeMap.keyed m.cmp) (sentinal, data) with
      | some x =>
          have hcopies : m.copies = false := by
            cases hcopies : m.copies with
            | false => rfl
            | true =>
                rw [h.holds.absent (hbuilds hcopies)] at hfound
                cases hfound
          obtain ⟨h', t', hreplace, hholds, _, hrelabel⟩ :=
            replace_found h.holds hcopies hfound supply
          rw [insert_found h.holds hfits hfound, hreplace] at hinsert
          cases hinsert
          refine ⟨t', hholds, h.compares, ?_⟩
          rw [← ordered_relabel Prod.snd, hrelabel, ordered_relabel]
          exact ordered_overwrite h.keyed h.ordered hfound
      | none =>
          obtain ⟨t', h', _⟩ := h.insert_absent hfresh hfound hclones hinsert
          exact ⟨t', h'⟩

theorem Sorted.remove (h : m.Sorted key t) {reply : Option δ}
    (hremove : m.remove data = .ok (m', reply)) :
    ∃ t', m'.Sorted key t' ∧
      ∀ x ∈ t'.toList.map Prod.snd, x ∈ t.toList.map Prod.snd := by
  cases data with
  | none =>
      cases hremove
      exact ⟨t, h, fun _ hx => hx⟩
  | some data =>
      by_cases hne : t = .nil
      · subst hne
        rw [remove_empty h.holds] at hremove
        cases hremove
        exact ⟨.nil, ⟨h.holds.resize _, h.compares, h.ordered⟩, fun _ hx => hx⟩
      · have hfits : t.removePath (NodeMap.keyed m.cmp) (sentinal, data) ≤ heightLimit := by
          by_contra hlong
          rw [remove_overrun (d := (sentinal, data)) h.holds hne (Nat.lt_of_not_le hlong)]
            at hremove
          cases hremove
        cases hfound : t.find (NodeMap.keyed m.cmp) (sentinal, data) with
        | none =>
            rw [remove_missing h.holds hne hfits hfound] at hremove
            cases hremove
            exact ⟨t, h, fun _ hx => hx⟩
        | some x =>
            obtain ⟨h', t', hok, hholds, hrelabel⟩ := remove_found h.holds hfits hfound
            rw [hok] at hremove
            cases hremove
            refine ⟨t', ⟨hholds, h.compares, ?_⟩, ?_⟩
            · rw [← ordered_relabel Prod.snd, hrelabel, ordered_relabel]
              exact ordered_remove h.ordered hfound
            · obtain ⟨before, after, hlist, hremoved⟩ := toList_remove hfound
              rw [← toList_relabel, hrelabel, toList_relabel, hremoved, hlist]
              intro y hy
              exact (((List.sublist_cons_self x after).append_left before).map _).mem hy

/-- The call goes on building the map, and `dup`, if there is one, keeps the key. -/
def Grows (key : δ → κ) (m : NodeMap δ) (c : NodeCall δ) : Prop :=
  m.Builds c ∧ (m.copies = true → c.Clones key)

theorem Sorted.step (h : m.Sorted key t) {c : NodeCall δ} (hgrows : m.Grows key c)
    (hstep : m.step c = some m') : ∃ t', m'.Sorted key t' := by
  obtain ⟨hbuilds, hclones⟩ := hgrows
  obtain ⟨hfresh, hcall⟩ := step_eq_some.mp hstep
  cases c with
  | insert supply data =>
      obtain ⟨⟨next, reply⟩, hinsert, heq⟩ := MapFault.map_eq_ok.mp hcall
      cases heq
      exact h.insert hfresh hbuilds hclones hinsert
  | remove data =>
      obtain ⟨⟨next, reply⟩, hremove, heq⟩ := MapFault.map_eq_ok.mp hcall
      cases heq
      obtain ⟨t', h', _⟩ := h.remove hremove
      exact ⟨t', h'⟩
  | clear rounds => exact hbuilds.elim

theorem Sorted.absent (h : m.Sorted key t) {data : δ} (hnew : ∀ e ∈ t.toList, key e.2 ≠ key data)
    (rounds : Nat) (y : δ) : m.find rounds (some data) ≠ .ok (some y) := by
  intro hfind
  rw [find, h.holds.root] at hfind
  obtain ⟨e, he, heq⟩ := findLoop_mem h.holds.laid hfind
  exact hnew e he ((h.compares.eq _ _).mp heq)

/-- Insertions of different keys, and any removals, build a map. -/
theorem Sorted.respects (h : m.Sorted key t) {calls : List (NodeCall δ)}
    (hnew : ∀ e ∈ t.toList, key e.2 ∉ calls.filterMap (NodeCall.inserted key))
    (hnodup : (calls.filterMap (NodeCall.inserted key)).Nodup)
    (hclones : ∀ c ∈ calls, c.Clones key) (hclear : ∀ rounds, NodeCall.clear rounds ∉ calls) :
    Respects NodeMap.step (Grows key) m calls := by
  induction calls generalizing m t with
  | nil => trivial
  | cons c calls ih =>
      intro m' hstep
      rw [List.forall_mem_cons] at hclones
      simp only [List.mem_cons, not_or] at hclear
      obtain ⟨hfresh, hcall⟩ := step_eq_some.mp hstep
      cases c with
      | insert supply data =>
          cases data with
          | none =>
              cases hcall
              refine ⟨⟨?_, fun _ => hclones.1⟩,
                ih h hnew hnodup hclones.2 fun rounds => (hclear rounds).2⟩
              rintro _ _ x ⟨⟩
          | some data =>
              obtain ⟨⟨next, reply⟩, hinsert, heq⟩ := MapFault.map_eq_ok.mp hcall
              cases heq
              obtain ⟨hfirst, hrest⟩ := List.nodup_cons.mp hnodup
              have habsent := h.absent fun e he heq => hnew e he (heq ▸ List.mem_cons_self)
              obtain ⟨t', h', hsub⟩ := h.insert_absent hfresh (h.holds.absent habsent)
                (fun _ => hclones.1) hinsert
              refine ⟨⟨fun _ => habsent, fun _ => hclones.1⟩,
                ih h' ?_ hrest hclones.2 fun rounds => (hclear rounds).2⟩
              intro e he
              rcases hsub e he with he | heq
              · exact fun hmem => hnew e he (List.mem_cons_of_mem _ hmem)
              · rw [heq]
                exact hfirst
      | remove data =>
          obtain ⟨⟨next, reply⟩, hremove, heq⟩ := MapFault.map_eq_ok.mp hcall
          cases heq
          obtain ⟨t', h', hsub⟩ := h.remove hremove
          refine ⟨⟨trivial, fun _ => hclones.1⟩,
            ih h' ?_ hnodup hclones.2 fun rounds => (hclear rounds).2⟩
          intro e he
          obtain ⟨e', he', heq⟩ := List.mem_map.mp (hsub _ (List.mem_map_of_mem he))
          rw [← heq]
          exact hnew e' he'
      | clear rounds => exact ((hclear rounds).1 rfl).elim

/-- What is true of every sorted tree in memory is true throughout a run that builds a map. -/
theorem throughout_of_sorted {P : NodeMap δ → Prop} (hP : ∀ {m t}, m.Sorted key t → P m)
    {cmp : δ → δ → ℤ} (hcmp : Compares cmp key) (nodes : Nodes δ) (copies releases : Bool)
    {calls : List (NodeCall δ)}
    (hgrows : Respects NodeMap.step (Grows key) (init nodes cmp copies releases) calls) :
    Throughout NodeMap.step P (init nodes cmp copies releases) calls := by
  refine throughout_of_respects (I := fun m => ∃ t, m.Sorted key t) ?_ ?_
    ⟨.nil, sorted_init hcmp nodes copies releases⟩ hgrows
  · intro m c m' ⟨t, h⟩ hgrows hstep
    exact h.step hgrows hstep
  · intro m ⟨t, h⟩
    exact hP h

/-! ### Visiting -/

theorem orderedFrom_laid {h : Nodes δ} (ht : t.Laid h) {depth : Nat} (hdepth : t.height ≤ depth) :
    orderedFrom h depth t.addr = .ok (t.toList.map Prod.snd) := by
  induction t generalizing depth with
  | nil => cases depth <;> rfl
  | node l a x b iha ihb =>
      obtain ⟨hx, hcell, ha, hb⟩ := ht
      rw [height] at hdepth
      cases depth with
      | zero => omega
      | succ depth =>
          have hleft := Nodes.link_eq hx hcell false
          have hright := Nodes.link_eq hx hcell true
          have hdata : h.data x.1 = .ok x.2 := Nodes.data_eq hx hcell
          have hdeptha : a.height ≤ depth := by omega
          have hdepthb : b.height ≤ depth := by omega
          have hbefore := iha ha hdeptha
          have hafter := ihb hb hdepthb
          rw [addr_node, orderedFrom, if_neg hx, hleft, MapFault.ok_bind]
          simp only [NodeCell.link, hbefore, hdata, hright, hafter, MapFault.ok_bind, toList,
            List.map_append, List.map_cons]

theorem ordered_eq (ht : m.Holds t) {depth : Nat} (hdepth : t.height ≤ depth) :
    m.ordered depth = .ok (t.toList.map Prod.snd) := by
  rw [ordered, ht.root]
  exact orderedFrom_laid ht.laid hdepth

end NodeMap

end Casting
