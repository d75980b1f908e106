import Casting.Message.Handing
import Casting.Message.Termination

/-!
# What an encoding leaves on the stack

`write_value` leaves the Lua stack as it was, and hands on what it was pointed at, unless it comes
to a userdata: what a `__save` returned stays on the stack, and the index that the userdata was at
may mean something else by the time that it is pushed.
-/

namespace Casting

open Recording Relation

/-! ## Tables that have been met -/

/-- The heap with nothing in the tables that have been met. -/
def LuaHeap.without (h : LuaHeap) (seen : Visited) : LuaHeap where
  tables a := if seen a = none then h.tables a else (h.tables a).map fun _ => .empty
  closures := h.closures
  fresh := h.fresh
  bounded := by
    intro a ha
    simp only [h.bounded a ha, Option.map_none, ite_self]

section Without

variable {h h' : LuaHeap} {objlen : Address → ℕ} {seen seen' : Visited} {i : ℕ} {v w : LuaValue}
  {calls : List (Option Content)} {metas : ℕ}

theorem LuaHeap.without_of_unmet {a : Address} (ha : seen a = none) :
    (h.without seen).tables a = h.tables a := if_pos ha

theorem LuaHeap.children_of_met {a : Address} {t : LuaTable} (ha : seen a ≠ none)
    (ht : (h.without seen).tables a = some t) : t.children = [] := by
  simp only [LuaHeap.without, if_neg ha] at ht
  obtain ⟨t', -, rfl⟩ := Option.map_eq_some_iff.mp ht
  rfl

theorem LuaHeap.Inside.of_without (hw : (h.without seen).Inside v w) : h.Inside v w := by
  cases hw with
  | @table a t _ ht hmem =>
    by_cases ha : seen a = none
    · rw [without_of_unmet ha] at ht
      exact .table ht hmem
    · rw [children_of_met ha ht] at hmem
      cases hmem
  | upvalue hc hmem => exact .upvalue hc hmem

theorem LuaHeap.Contains.of_without {vs : List LuaValue} (hv : (h.without seen).Contains vs v) :
    h.Contains vs v := by
  obtain ⟨r, hr, hpath⟩ := hv
  exact ⟨r, hr, ReflTransGen.mono (fun _ _ => LuaHeap.Inside.of_without) r v hpath⟩

private theorem walks_of_agree (htables : ∀ a, seen a = none → h'.tables a = h.tables a)
    (hclosures : h'.closures = h.closures) :
    (∀ seen₁ i v calls seen₂ metas, Walks h objlen seen₁ i v calls seen₂ metas →
        seen.Within seen₁ → Walks h' objlen seen₁ i v calls seen₂ metas) ∧
      ∀ seen₁ i vs calls seen₂ metas, WalksAll h objlen seen₁ i vs calls seen₂ metas →
        seen.Within seen₁ → WalksAll h' objlen seen₁ i vs calls seen₂ metas := by
  apply walks_induction
  case leaf => exact fun _ _ _ hleaf _ => .leaf hleaf
  case met => exact fun _ _ _ _ hmet _ => .met hmet
  case table =>
    intro seen₁ seen₂ i a t calls metas hnew ht ih hwithin
    have ha : seen a = none := by
      by_contra hmet
      exact hwithin a hmet hnew
    rw [← htables a ha] at ht
    exact .table hnew ht (ih (hwithin.trans (Visited.within_update seen₁ a i)))
  case function =>
    intro seen₁ seen₂ i a c calls metas hc ih hwithin
    rw [← hclosures] at hc
    exact .function hc (ih hwithin)
  case nil => exact fun _ _ _ => .nil
  case cons =>
    intro seen₁ seen₂ seen₃ i v vs calls calls' metas metas' ih ih' hwithin
    have hwalk := ih hwithin
    exact .cons hwalk (ih' (hwithin.trans hwalk.within))

theorem Walks.without (hwalk : Walks h objlen seen i v calls seen' metas) :
    Walks (h.without seen) objlen seen i v calls seen' metas :=
  (walks_of_agree (fun _ => LuaHeap.without_of_unmet) rfl).1 _ _ _ _ _ _ hwalk fun _ ha => ha

theorem Walks.of_without (hwalk : Walks (h.without seen) objlen seen i v calls seen' metas) :
    Walks h objlen seen i v calls seen' metas :=
  (walks_of_agree (fun _ ha => (LuaHeap.without_of_unmet ha).symm) rfl).1 _ _ _ _ _ _ hwalk
    fun _ ha => ha

end Without

/-! ## Values that can be walked -/

/-- The `__save` of a userdata returns a name and then values. -/
def LuaLibrary.Saves (lib : LuaLibrary) (a : Address) : Prop :=
  ∃ save name saved, lib.saver a = some save ∧
    lib.call save [.userdata a] = some (.string name :: saved)

def LuaHeap.Savable (h : LuaHeap) (lib : LuaLibrary) (v : LuaValue) : Prop :=
  ∀ a, ReflTransGen h.Inside v (.userdata a) → lib.Saves a

theorem LuaHeap.Savable.inside {h : LuaHeap} {lib : LuaLibrary} {v w : LuaValue}
    (hv : h.Savable lib v) (hw : h.Inside v w) : h.Savable lib w :=
  fun a hpath => hv a (.head hw hpath)

/-- A finite graph of values whose tables and functions exist and whose userdata can be saved. -/
structure LuaHeap.IsSavable (h : LuaHeap) (lib : LuaLibrary) (vs : List LuaValue) : Prop where
  finite : {v | h.Contains vs v}.Finite
  tables : ∀ a, h.Contains vs (.table a) → ∃ t, h.tables a = some t
  closures : ∀ a, h.Contains vs (.function a) → ∃ c, h.closures a = some c
  saves : ∀ a, h.Contains vs (.userdata a) → lib.Saves a

section Walkable

variable {h : LuaHeap} {lib : LuaLibrary} {objlen : Address → ℕ} {vs : List LuaValue}
  {v : LuaValue}

theorem LuaHeap.IsSavable.isGraph (hgraph : h.IsSavable lib vs) (seen : Visited)
    (hplain : ∀ a, ¬ (h.without seen).Contains vs (.userdata a)) :
    (h.without seen).IsGraph vs where
  finite := hgraph.finite.subset fun _ hv => hv.of_without
  tables := by
    intro a ha
    obtain ⟨t, ht⟩ := hgraph.tables a ha.of_without
    by_cases hmet : seen a = none
    · exact ⟨t, (LuaHeap.without_of_unmet hmet).trans ht⟩
    · refine ⟨.empty, ?_⟩
      simp only [LuaHeap.without, if_neg hmet, ht, Option.map_some]
  closures := fun a ha => hgraph.closures a ha.of_without
  plain := hplain

/-- A value can be walked exactly if no userdata is in it, nor a function that is found again
through nothing but upvalues. -/
theorem LuaHeap.IsSavable.walks_iff (hgraph : h.IsSavable lib [v]) (seen : Visited) (i : ℕ) :
    (∃ calls seen' metas, Walks h objlen seen i v calls seen' metas) ↔
      ∀ a, ¬ (h.without seen).Contains [v] (.userdata a) ∧
        ((h.without seen).Contains [v] (.function a) → ¬ TransGen h.Captures a a) := by
  constructor
  · intro ⟨calls, seen', metas, hwalk⟩ a
    have hall : WalksAll (h.without seen) objlen seen i [v] _ seen' _ := .cons hwalk.without .nil
    refine ⟨fun ha => ?_, fun ha => ?_⟩
    · obtain ⟨_, _, _, _, _, huserdata, -⟩ :=
        hall.contains (fun _ _ => LuaHeap.children_of_met) ha
      cases huserdata with
      | leaf hleaf => cases hleaf
    · obtain ⟨_, _, _, _, _, hfunction, -⟩ :=
        hall.contains (fun _ _ => LuaHeap.children_of_met) ha
      exact hfunction.acyclic
  · intro hwalkable
    have hplain := hgraph.isGraph seen fun a => (hwalkable a).1
    obtain ⟨calls, seen', metas, hwalk⟩ := walks_exists hplain (fun a => (hwalkable a).2) _
      ⟨v, List.mem_singleton_self v, .refl⟩ seen i le_rfl
    exact ⟨calls, seen', metas, hwalk.of_without⟩

end Walkable

/-! ## The builder's memory -/

section Memory

variable {mb : Builder} {seen : Visited} {i : ℕ}

theorem Remembers.push (h : Remembers mb seen i) (f : Value → Value) (size : Word)
    (block : Block) : Remembers (push f size (some block) mb).2 seen (i + 1) := by
  obtain ⟨-, hlast, hrefmap, -, -⟩ := push_frame f size block mb
  refine ⟨by rw [hlast, h.last], ?_⟩
  rw [hrefmap]
  exact h.records

theorem Remembers.settable (h : Remembers mb seen i) (idx : ℤ) (slots array : BitVec 64) :
    Remembers (lcSettable mb idx slots array) seen i := ⟨h.last, h.records⟩

theorem Remembers.setfunction (h : Remembers mb seen i) (idx : ℤ) (upvals : Word) :
    Remembers (lcSetfunction mb idx upvals) seen i := ⟨h.last, h.records⟩

theorem Remembers.setmeta (h : Remembers mb seen i) (idx : ℤ) :
    Remembers (lcSetmeta mb idx) seen i := ⟨h.last, h.records⟩

theorem Remembers.append {calls calls' : List (Option Content)}
    (h : Remembers mb seen (i + calls.reduceOption.length + calls'.reduceOption.length)) :
    Remembers mb seen (i + (calls ++ calls').reduceOption.length) := by
  rw [List.reduceOption_append, List.length_append, ← Nat.add_assoc]
  exact h

theorem Remembers.under {c : Content} {calls : List (Option Content)}
    (h : Remembers mb seen (i + 1 + calls.reduceOption.length)) :
    Remembers mb seen (i + (some c :: calls).reduceOption.length) := by
  rw [List.reduceOption_cons_of_some, List.length_cons, Nat.add_comm calls.reduceOption.length,
    ← Nat.add_assoc]
  exact h

theorem Remembers.met (h : Remembers mb seen i) (mem : ℕ → Block) {a : Address} {j : ℕ}
    (ha : seen a = some j) :
    ∃ mb', refCheck mem mb a = some (true, mb') ∧ Remembers mb' seen (i + 1) := by
  have hfind := h.records.find ⟨a, BitVec.ofNat 32 mb.last⟩
  simp only [ha, Option.map_some] at hfind
  let mapped : Builder :=
    { mb with refmap := some (mb.refmap.getD (mapNew cmpRef (some dupRef))) }
  obtain ⟨hlast, hrefmap, -, -⟩ :=
    lcPushreference_frame (mem mb.last) mapped (BitVec.ofNat 32 j)
  let pushed := (lcPushreference (some (mem mb.last)) mapped (BitVec.ofNat 32 j)).2
  refine ⟨{ pushed with refs := pushed.refs + 1 }, by simp only [refCheck, hfind]; rfl,
    hlast.trans (congrArg (· + 1) h.last), ?_⟩
  change Records (pushed.refmap.getD _) seen
  rw [hrefmap]
  exact h.records

theorem Remembers.unmet (h : Remembers mb seen i) (mem : ℕ → Block) {a : Address}
    (ha : seen a = none) :
    ∃ mb', refCheck mem mb a = some (false, mb') ∧
      Remembers (lcCreatetable (some (mem mb'.last)) mb').2 (Function.update seen a (some i))
        (i + 1) := by
  obtain ⟨map, hcheck, hrecords⟩ := refCheck_unmet h mem ha
  have hmapped : Remembers { mb with refmap := some map } (Function.update seen a (some i)) i :=
    ⟨h.last, hrecords⟩
  exact ⟨_, hcheck, hmapped.push _ _ _⟩

theorem Remembers.leaf (h : Remembers mb seen i) (lib : LuaLibrary) (mem : ℕ → Block) {L : LuaState}
    {idx : ℤ} {v : LuaValue} (hv : L.value idx = some v) (hleaf : v.isLeaf = true) (fuel : ℕ)
    (es : List Handing) :
    ∃ rc mb', (Recorded.writeValue lib mem (fuel + 1) mb L idx).run es = some ((rc, L, mb'), es) ∧
      Remembers mb' seen (i + [v.scalar].reduceOption.length) := by
  cases v with
  | table | function | userdata => cases hleaf
  | lightuserdata | thread =>
    simp only [Recorded.writeValue, hv]
    exact ⟨_, _, rfl, h⟩
  | _ =>
    simp only [Recorded.writeValue, hv]
    exact ⟨_, _, rfl, h.push _ _ _⟩

end Memory

/-! ## Where a value can be walked -/

/-- With this fuel, a writer goes through what can be walked: it returns with the stack as it was,
and hands on only what it is pointed at. -/
def Completes (lib : LuaLibrary) (h : LuaHeap) (write : RecordingWriter) (fuel : ℕ) : Prop :=
  ∀ (mb : Builder) (L : LuaState) (idx : ℤ) (v : LuaValue) (seen seen' : Visited) (i : ℕ)
    (calls : List (Option Content)) (metas : ℕ) (es : List Handing), L.heap = h →
    L.value idx = some v → Remembers mb seen i →
    Walks h lib.objlen seen i v calls seen' metas → calls.length < fuel →
    (∀ p ∈ es, p.Faithful) →
    ∃ rc mb' es', (write mb L idx).run es = some ((rc, L, mb'), es') ∧
      Remembers mb' seen' (i + calls.reduceOption.length) ∧ ∀ p ∈ es', p.Faithful

theorem faithful_append {es : List Handing} (hes : ∀ p ∈ es, p.Faithful) (receiver : Receiver)
    (v : Option LuaValue) : ∀ p ∈ es ++ [⟨receiver, v, v⟩], p.Faithful := by
  intro p hp
  rcases List.mem_append.mp hp with hp | hp
  · exact hes p hp
  · rw [List.mem_singleton.mp hp]
    rfl

section Completes

variable {h : LuaHeap} {lib : LuaLibrary} {write : RecordingWriter} {fuel : ℕ} {mb : Builder}
  {seen seen' : Visited} {i : ℕ} {calls : List (Option Content)} {metas : ℕ}
  {es : List Handing}

theorem Completes.entries (hcompletes : Completes lib h write fuel) {bottom : LuaState} {idx : ℤ}
    {a : Address} {t : LuaTable} (hidx : 0 < idx) (hheap : bottom.heap = h)
    (hbottom : bottom.value idx = some (.table a)) (ht : h.tables a = some t)
    {before after : List LuaEntry} (hentries : t.entries = before ++ after) {k : LuaValue}
    (hk : t.next k = some after.head?) {n : ℕ} (slots : Word) (hmemory : Remembers mb seen i)
    (hall : WalksAll h lib.objlen seen i (after.flatMap fun e => [e.1, e.2]) calls seen' metas)
    (hfuel : calls.length < fuel) (hn : after.length < n) (hes : ∀ p ∈ es, p.Faithful) :
    ∃ slots' mb' es',
      (Recorded.writeEntries write (some (.table a)) idx n slots mb (bottom.push k)).run es =
        some ((slots', bottom, mb'), es') ∧
      Remembers mb' seen' (i + calls.reduceOption.length) ∧ ∀ p ∈ es', p.Faithful := by
  have htable := tableAt_push hidx hbottom (hheap ▸ ht)
  have hvalue : (bottom.push k).value idx = some (.table a) :=
    LuaState.value_of_bottom hidx ⟨[k], rfl⟩ hbottom
  have hes₁ := faithful_append hes .next (some (.table a))
  induction after generalizing before k n slots mb seen i calls metas es with
  | nil =>
    obtain ⟨n, rfl⟩ := Nat.exists_eq_succ_of_ne_zero (Nat.ne_of_gt hn)
    cases hall
    rw [Recorded.writeEntries, run_bind_record, hvalue, luaNext_end (htable k) hk, run_bind_value]
    exact ⟨slots, mb, _, rfl, hmemory, hes₁⟩
  | cons e after ih =>
    obtain ⟨n, rfl⟩ := Nat.exists_eq_succ_of_ne_zero (Nat.ne_of_gt (Nat.zero_lt_of_lt hn))
    rw [List.flatMap_cons] at hall
    cases hall with
    | cons hkey hrest =>
      rename_i seenk callsk callsv metask metasv
      cases hrest with
      | cons hvalue' hrest =>
        rename_i seenv callsv callsr metasv metasr
        rw [List.length_append, List.length_append] at hfuel
        obtain ⟨rck, mbk, esk, hkeys, hmemoryk, hesk⟩ :=
          hcompletes mb ((bottom.push e.1).push e.2) (-2) e.1 _ _ _ _ _ _ hheap
            (LuaState.value_second ⟨bottom.stack, rfl⟩) hmemory hkey (by omega) hes₁
        obtain ⟨rcv, mbv, esv, hvalues, hmemoryv, hesv⟩ :=
          hcompletes mbk ((bottom.push e.1).push e.2) (-1) e.2 _ _ _ _ _ _ hheap
            (LuaState.value_top ⟨_, rfl⟩) hmemoryk hvalue' (by omega) hesk
        have hentries' : t.entries = (before ++ [e]) ++ after :=
          hentries.trans (List.append_cons before e after)
        obtain ⟨slots', mb', es', hloop, hmemory', hes'⟩ := ih hentries'
          (LuaTable.next_key hentries) (slots + 1) hmemoryv hrest (by omega)
          (Nat.lt_of_succ_lt_succ hn) hesv
          (LuaState.value_of_bottom hidx ⟨[e.1], rfl⟩ hbottom)
          (faithful_append hesv .next (some (.table a)))
        refine ⟨slots', mb', es', ?_, hmemory'.append.append, hes'⟩
        rw [Recorded.writeEntries, run_bind_record, hvalue, luaNext_entry (htable k) hk,
          run_bind_value]
        exact (run_bind_of hkeys).trans ((run_bind_of hvalues).trans hloop)

theorem Completes.upvalues (hcompletes : Completes lib h write fuel) {L : LuaState} {idx : ℤ}
    {a : Address} {c : Closure} (hheap : L.heap = h) (hv : L.value idx = some (.function a))
    (hc : h.closures a = some c) {before after : List LuaValue}
    (hupvalues : c.upvalues = before ++ after) (hmemory : Remembers mb seen i)
    (hall : WalksAll h lib.objlen seen i after calls seen' metas) (hfuel : calls.length < fuel)
    (hes : ∀ p ∈ es, p.Faithful) :
    ∃ mb' es',
      (Recorded.writeUpvalues write idx after.length before.length mb L).run es =
        some ((L, mb'), es') ∧
      Remembers mb' seen' (i + calls.reduceOption.length) ∧ ∀ p ∈ es', p.Faithful := by
  induction after generalizing before mb seen i calls metas es with
  | nil =>
    cases hall
    exact ⟨mb, es, rfl, hmemory, hes⟩
  | cons v after ih =>
    cases hall with
    | cons hvalue hrest =>
      rw [List.length_append] at hfuel
      obtain ⟨rcv, mbv, esv, hvalues, hmemoryv, hesv⟩ := hcompletes mb (L.push v) (-1) v _ _ _ _ _ _
        hheap (LuaState.value_top ⟨L.stack, rfl⟩) hmemory hvalue (by omega) hes
      have hupvalues' : c.upvalues = (before ++ [v]) ++ after :=
        hupvalues.trans (List.append_cons before v after)
      obtain ⟨mb', es', hloop, hmemory', hes'⟩ := ih hupvalues' hmemoryv hrest (by omega) hesv
      rw [List.length_append, List.length_singleton] at hloop
      refine ⟨mb', es', ?_, hmemory'.append, hes'⟩
      rw [List.length_cons, Recorded.writeUpvalues, luaGetupvalue_mem hv (hheap ▸ hc) hupvalues]
      exact (run_bind_of hvalues).trans hloop

theorem Completes.metatable (hcompletes : Completes lib h write fuel) {L : LuaState} {idx : ℤ}
    {a : Address} {t : LuaTable} (hheap : L.heap = h) (hv : L.value idx = some (.table a))
    (ht : h.tables a = some t) (hmemory : Remembers mb seen i)
    (hall : WalksAll h lib.objlen seen i (t.metatable.map LuaValue.table).toList calls seen' metas)
    (hfuel : calls.length < fuel) (hes : ∀ p ∈ es, p.Faithful) :
    ∃ rc mb' es', (Recorded.writeMetatable write idx mb L).run es = some ((rc, L, mb'), es') ∧
      Remembers mb' seen' (i + calls.reduceOption.length) ∧ ∀ p ∈ es', p.Faithful := by
  rw [Recorded.writeMetatable, luaGetmetatable_table hv (hheap ▸ ht)]
  cases hmeta : t.metatable with
  | none =>
    rw [hmeta] at hall
    cases hall
    exact ⟨_, mb, es, rfl, hmemory, hes⟩
  | some m =>
    rw [hmeta] at hall
    cases hall with
    | cons hvalue hrest =>
      cases hrest
      rw [List.append_nil] at hfuel ⊢
      obtain ⟨rc, mb', es', hvalues, hmemory', hes'⟩ := hcompletes mb (L.push (.table m)) (-1)
        (.table m) _ _ _ _ _ _ hheap (LuaState.value_top ⟨L.stack, rfl⟩) hmemory hvalue hfuel hes
      refine ⟨ReturnCode.success.toInt, lcSetmeta mb' rc, es', ?_, hmemory'.setmeta rc, hes'⟩
      rw [run_bind_value]
      exact run_bind_of hvalues

theorem writeValue_completes (lib : LuaLibrary) [lib.StackGrows] (mem : ℕ → Block) (h : LuaHeap)
    (fuel : ℕ) :
    Completes lib h (Recorded.writeValue lib mem fuel) fuel := by
  induction fuel with
  | zero => exact fun _ _ _ _ _ _ _ _ _ _ _ _ _ _ hfuel => (Nat.not_lt_zero _ hfuel).elim
  | succ fuel ih =>
    intro mb L idx v seen seen' i calls metas es hheap hv hmemory hwalk hfuel hes
    cases hwalk with
    | leaf hleaf =>
      obtain ⟨rc, mb', hrun, hmemory'⟩ := hmemory.leaf lib mem hv hleaf fuel es
      exact ⟨rc, mb', es, hrun, hmemory', hes⟩
    | met ha =>
      obtain ⟨mb', hcheck, hmemory'⟩ := hmemory.met mem ha
      simp only [Recorded.writeValue, hv, hcheck]
      exact ⟨_, mb', es, rfl, hmemory', hes⟩
    | @table _ _ _ a t calls metas hnew ht hall =>
      obtain ⟨calls₁, calls₂, seen₁, metas₁, metas₂, rfl, rfl, hentries, hmeta⟩ := hall.split
      rw [List.length_cons, List.length_append] at hfuel
      obtain ⟨hidx, habs⟩ := value_lcAbsindex hv
      have hle := hentries.length_le
      rw [LuaTable.length_elements] at hle
      obtain ⟨mb₁, hcheck, hmemory₁⟩ := hmemory.unmet mem hnew
      obtain ⟨slots, mb₂, es₂, hloop, hmemory₂, hes₂⟩ := ih.entries hidx hheap habs ht
        (List.nil_append _).symm t.next_nil 0 hmemory₁ hentries (by omega)
        (by omega : t.entries.length < fuel) hes
      obtain ⟨rc, mb', es', hend, hmemory', hes'⟩ :=
        ih.metatable hheap habs ht (hmemory₂.settable _ _ _) hmeta (by omega) hes₂
      refine ⟨rc, mb', es', ?_, hmemory'.append.under, hes'⟩
      simp only [Recorded.writeValue, hv, hcheck, luaCheckstack_of_grows]
      rw [run_bind_value, if_neg Bool.false_ne_true, run_bind_value]
      exact (run_bind_of hloop).trans hend
    | @function _ _ _ a c calls metas hc hall =>
      rw [List.length_cons] at hfuel
      rw [Recorded.run_function hv (hheap ▸ hc)]
      obtain ⟨mb₁, es₁, hloop, hmemory₁, hes₁⟩ := ih.upvalues hheap hv hc (List.nil_append _).symm
        (hmemory.push _ _ _) hall (by omega)
        (faithful_append hes .dump (some (.function a)))
      exact ⟨_, _, es₁, Option.map_eq_some_iff.mpr ⟨_, hloop, rfl⟩,
        (hmemory₁.setfunction _ _).under, hes₁⟩

end Completes

/-! ## Where the stack is left as it was -/

/-- A writer that leaves the stack no higher than it was, and that handed on only what it was
pointed at, has gone through a value that can be walked. -/
def Retraces (lib : LuaLibrary) (h : LuaHeap) (write : RecordingWriter) : Prop :=
  ∀ (mb mb' : Builder) (L L' : LuaState) (idx rc : ℤ) (v : LuaValue) (seen : Visited) (i : ℕ)
    (es es' : List Handing), L.heap = h → L.value idx = some v → h.Savable lib v →
    Remembers mb seen i →
    (write mb L idx).run es = some ((rc, L', mb'), es') → L'.stack.length ≤ L.stack.length →
    (∀ p ∈ es', p.Faithful) →
    L' = L ∧ ∃ calls seen' metas, Walks h lib.objlen seen i v calls seen' metas ∧
      Remembers mb' seen' (i + calls.reduceOption.length)

section Retraces

variable {h : LuaHeap} {lib : LuaLibrary} {write : RecordingWriter} {mb mb' : Builder}
  {L' : LuaState} {seen : Visited} {i : ℕ} {es es' : List Handing}

theorem Retraces.entries (hretraces : Retraces lib h write) (hrises : Rises write)
    {bottom : LuaState} {entry : Option LuaValue} {idx : ℤ} {a : Address} {t : LuaTable}
    (hidx : 0 < idx) (hheap : bottom.heap = h) (hbottom : bottom.value idx = some (.table a))
    (ht : h.tables a = some t) {before after : List LuaEntry}
    (hentries : t.entries = before ++ after) {k : LuaValue} (hk : t.next k = some after.head?)
    {n : ℕ} {slots slots' : Word}
    (hsaves : ∀ v ∈ after.flatMap fun e => [e.1, e.2], h.Savable lib v)
    (hmemory : Remembers mb seen i)
    (hwrite : (Recorded.writeEntries write entry idx n slots mb (bottom.push k)).run es =
      some ((slots', L', mb'), es')) (hheight : L'.stack.length ≤ bottom.stack.length)
    (hes' : ∀ p ∈ es', p.Faithful) :
    L' = bottom ∧ ∃ calls seen' metas,
      WalksAll h lib.objlen seen i (after.flatMap fun e => [e.1, e.2]) calls seen' metas ∧
      Remembers mb' seen' (i + calls.reduceOption.length) := by
  have htable := tableAt_push hidx hbottom (hheap ▸ ht)
  induction after generalizing before k n slots mb seen i es with
  | nil =>
    cases n with
    | zero => cases hwrite
    | succ n =>
      rw [Recorded.writeEntries, run_bind_record, luaNext_end (htable k) hk,
        run_bind_value] at hwrite
      cases hwrite
      exact ⟨rfl, [], seen, 0, .nil, hmemory⟩
  | cons e after ih =>
    cases n with
    | zero => cases hwrite
    | succ n =>
      rw [Recorded.writeEntries, run_bind_record, luaNext_entry (htable k) hk,
        run_bind_value] at hwrite
      obtain ⟨⟨rck, Lk, mbk⟩, esk, hkey, hwrite⟩ := run_bind_eq_some.mp hwrite
      obtain ⟨⟨rcv, Lv, mbv⟩, esv, hvalue, hwrite⟩ := run_bind_eq_some.mp hwrite
      dsimp only at hwrite
      -- all that was pushed must be gone in the end, so neither write has left anything
      obtain ⟨hlek, hesk⟩ := hrises _ _ _ _ _ _ _ _ hkey
      obtain ⟨hlev, hesv⟩ := hrises _ _ _ _ _ _ _ _ hvalue
      obtain ⟨hle, hes⟩ := hrises.entries hwrite
      rw [length_luaPop] at hle
      have htwo : ((bottom.push e.1).push e.2).stack.length = bottom.stack.length + 2 := rfl
      rw [List.flatMap_cons] at hsaves ⊢
      obtain ⟨rfl, callsk, seenk, metask, hwalkk, hmemoryk⟩ := hretraces _ _
        ((bottom.push e.1).push e.2) _ _ _ e.1 _ _ _ _ hheap
        (LuaState.value_second ⟨bottom.stack, rfl⟩) (hsaves e.1 (by simp)) hmemory hkey (by omega)
        fun p hp => hes' p (hes (hesv hp))
      obtain ⟨rfl, callsv, seenv, metasv, hwalkv, hmemoryv⟩ := hretraces _ _
        ((bottom.push e.1).push e.2) _ _ _ e.2 _ _ _ _ hheap (LuaState.value_top ⟨_, rfl⟩)
        (hsaves e.2 (by simp)) hmemoryk hvalue (by omega) fun p hp => hes' p (hes hp)
      have hentries' : t.entries = (before ++ [e]) ++ after :=
        hentries.trans (List.append_cons before e after)
      obtain ⟨hstate, calls, seen', metas, hall, hmemory'⟩ := ih hentries'
        (LuaTable.next_key hentries) (fun v hv => hsaves v (List.mem_append_right _ hv)) hmemoryv
        hwrite
      exact ⟨hstate, _, _, _, .cons hwalkk (.cons hwalkv hall), hmemory'.append.append⟩

theorem Retraces.upvalues (hretraces : Retraces lib h write) (hrises : Rises write)
    {L : LuaState} {idx : ℤ} {a : Address} {c : Closure} (hheap : L.heap = h)
    (hv : L.value idx = some (.function a)) (hc : h.closures a = some c)
    {before after : List LuaValue} (hupvalues : c.upvalues = before ++ after)
    (hsaves : ∀ v ∈ after, h.Savable lib v) (hmemory : Remembers mb seen i)
    (hwrite : (Recorded.writeUpvalues write idx after.length before.length mb L).run es =
      some ((L', mb'), es')) (hheight : L'.stack.length ≤ L.stack.length)
    (hes' : ∀ p ∈ es', p.Faithful) :
    L' = L ∧ ∃ calls seen' metas, WalksAll h lib.objlen seen i after calls seen' metas ∧
      Remembers mb' seen' (i + calls.reduceOption.length) := by
  induction after generalizing before mb seen i es with
  | nil =>
    cases hwrite
    exact ⟨rfl, [], seen, 0, .nil, hmemory⟩
  | cons v after ih =>
    rw [List.length_cons, Recorded.writeUpvalues, luaGetupvalue_mem hv (hheap ▸ hc) hupvalues]
      at hwrite
    obtain ⟨⟨rcv, Lv, mbv⟩, esv, hvalue, hwrite⟩ := run_bind_eq_some.mp hwrite
    dsimp only at hwrite
    obtain ⟨hlev, hesv⟩ := hrises _ _ _ _ _ _ _ _ hvalue
    obtain ⟨hle, hes⟩ := hrises.upvalues hwrite
    rw [length_luaPop] at hle
    have hone : (L.push v).stack.length = L.stack.length + 1 := rfl
    obtain ⟨rfl, callsv, seenv, metasv, hwalkv, hmemoryv⟩ := hretraces _ _ (L.push v) _ _ _ v _ _
      _ _ hheap (LuaState.value_top ⟨L.stack, rfl⟩) (hsaves v List.mem_cons_self) hmemory hvalue
      (by omega) fun p hp => hes' p (hes hp)
    have hupvalues' : c.upvalues = (before ++ [v]) ++ after :=
      hupvalues.trans (List.append_cons before v after)
    obtain ⟨hstate, calls, seen', metas, hall, hmemory'⟩ := ih hupvalues'
      (fun u hu => hsaves u (List.mem_cons_of_mem v hu)) hmemoryv (by
        rw [List.length_append, List.length_singleton]
        exact hwrite)
    exact ⟨hstate, _, _, _, .cons hwalkv hall, hmemory'.append⟩

theorem Retraces.metatable (hretraces : Retraces lib h write) {L : LuaState} {idx rc : ℤ}
    {a : Address} {t : LuaTable} (hheap : L.heap = h) (hv : L.value idx = some (.table a))
    (ht : h.tables a = some t)
    (hsaves : ∀ v ∈ (t.metatable.map LuaValue.table).toList, h.Savable lib v)
    (hmemory : Remembers mb seen i)
    (hwrite : (Recorded.writeMetatable write idx mb L).run es = some ((rc, L', mb'), es'))
    (hheight : L'.stack.length ≤ L.stack.length) (hes' : ∀ p ∈ es', p.Faithful) :
    L' = L ∧ ∃ calls seen' metas,
      WalksAll h lib.objlen seen i (t.metatable.map LuaValue.table).toList calls seen' metas ∧
      Remembers mb' seen' (i + calls.reduceOption.length) := by
  rw [Recorded.writeMetatable, luaGetmetatable_table hv (hheap ▸ ht)] at hwrite
  cases hmeta : t.metatable with
  | none =>
    rw [hmeta] at hwrite
    cases hwrite
    exact ⟨rfl, [], seen, 0, .nil, hmemory⟩
  | some m =>
    rw [hmeta] at hwrite hsaves
    rw [run_bind_value] at hwrite
    obtain ⟨⟨rcm, Lm, mbm⟩, esm, hvalue, hwrite⟩ := run_bind_eq_some.mp hwrite
    cases hwrite
    rw [length_luaPop] at hheight
    have hone : (L.push (.table m)).stack.length = L.stack.length + 1 := rfl
    obtain ⟨rfl, calls, seen', metas, hwalk, hmemory'⟩ := hretraces _ _ (L.push (.table m)) _ _ _
      (.table m) _ _ _ _ hheap (LuaState.value_top ⟨L.stack, rfl⟩) (hsaves _ List.mem_cons_self)
      hmemory hvalue (by omega) hes'
    refine ⟨rfl, _, _, _, .cons hwalk .nil, ?_⟩
    rw [List.append_nil]
    exact hmemory'.setmeta rcm

theorem exists_table_of_recorded {L : LuaState} {entry : Option LuaValue} {idx : ℤ} {a : Address}
    (hidx : 0 < idx) (hv : L.value idx = some (.table a)) {n : ℕ} {slots : Word} {k : LuaValue}
    {r : (Word × LuaState × Builder) × List Handing}
    (hwrite : (Recorded.writeEntries write entry idx n slots mb (L.push k)).run es = some r) :
    ∃ t, L.heap.tables a = some t := by
  cases n with
  | zero => cases hwrite
  | succ n =>
    rw [Recorded.writeEntries, run_bind_record] at hwrite
    obtain ⟨_, _, hstep, -⟩ := run_bind_eq_some.mp hwrite
    obtain ⟨hnext, -⟩ := run_ofOption_eq_some.mp hstep
    exact exists_table_of_luaNext hidx hv hnext

theorem writeValue_retraces (lib : LuaLibrary) (mem : ℕ → Block) (h : LuaHeap) (fuel : ℕ) :
    Retraces lib h (Recorded.writeValue lib mem fuel) := by
  induction fuel with
  | zero =>
    intro mb mb' L L' idx rc v seen i es es' _ _ _ _ hwrite
    cases hwrite
  | succ fuel ih =>
    intro mb mb' L L' idx rc v seen i es es' hheap hv hsaves hmemory hwrite hheight hes'
    have hrises := writeValue_rises lib mem fuel
    cases v with
    | table a =>
      simp only [Recorded.writeValue, hv] at hwrite
      obtain ⟨⟨found, mb₁⟩, es₁, hstep, hwrite⟩ := run_bind_eq_some.mp hwrite
      obtain ⟨hcheck, rfl⟩ := run_ofOption_eq_some.mp hstep
      cases ha : seen a with
      | some j =>
        obtain ⟨mb₂, hmet, hmemory'⟩ := hmemory.met mem ha
        rw [hmet] at hcheck
        cases hcheck
        cases hwrite
        exact ⟨rfl, _, _, _, .met ha, hmemory'⟩
      | none =>
        obtain ⟨mb₂, hunmet, hmemory₁⟩ := hmemory.unmet mem ha
        rw [hunmet] at hcheck
        cases hcheck
        obtain ⟨L₁, es₁, hstep, hwrite⟩ := run_bind_eq_some.mp hwrite
        obtain ⟨hroom, rfl⟩ := run_ofOption_eq_some.mp hstep
        obtain ⟨-, rfl⟩ := luaCheckstack_eq_some.mp hroom
        obtain ⟨⟨slots, L₂, mb₃⟩, es₂, hentries, hwrite⟩ := run_bind_eq_some.mp hwrite
        obtain ⟨hidx, habs⟩ := value_lcAbsindex hv
        obtain ⟨t, ht⟩ := exists_table_of_recorded hidx habs hentries
        rw [hheap] at ht
        have hinside : ∀ u ∈ t.children, h.Savable lib u :=
          fun u hu => hsaves.inside (.table ht hu)
        obtain ⟨hle, hes⟩ := hrises.metatable hwrite
        obtain ⟨rfl, calls₁, seen₁, metas₁, hall₁, hmemory₂⟩ := ih.entries hrises hidx hheap habs
          ht (List.nil_append _).symm t.next_nil
          (fun u hu => hinside u (List.mem_append_left _ hu)) hmemory₁ hentries
          (hle.trans hheight) fun p hp => hes' p (hes hp)
        obtain ⟨rfl, calls₂, seen₂, metas₂, hall₂, hmemory'⟩ := ih.metatable hheap habs ht
          (fun u hu => hinside u (List.mem_append_right _ hu)) (hmemory₂.settable _ _ _) hwrite
          hheight hes'
        exact ⟨rfl, _, _, _, .table ha ht (hall₁.join hall₂), hmemory'.append.under⟩
    | function a =>
      cases hc : L.heap.closures a with
      | none =>
        rw [Recorded.run_function_none hv hc] at hwrite
        cases hwrite
      | some c =>
        rw [Recorded.run_function hv hc] at hwrite
        obtain ⟨⟨⟨L₁, mb₁⟩, es₁⟩, hupvalues, heq⟩ := Option.map_eq_some_iff.mp hwrite
        cases heq
        rw [hheap] at hc
        obtain ⟨rfl, calls, seen', metas, hall, hmemory'⟩ := ih.upvalues hrises hheap hv hc
          (List.nil_append _).symm
          (fun u hu => hsaves.inside (.upvalue hc hu)) (hmemory.push _ _ _) hupvalues hheight hes'
        exact ⟨rfl, _, _, _, .function hc hall, (hmemory'.setfunction _ _).under⟩
    | userdata a =>
      obtain ⟨save, name, saved, hsaver, hcall⟩ := hsaves a .refl
      obtain ⟨arg, results, L₁, _, _, _, _, hresults, habove, hrest⟩ :=
        Recorded.run_userdata hv hsaver hwrite
      -- a `__save` that was given its userdata has left at least a name
      obtain ⟨hle, hes⟩ := hrises.saved hrest
      have harg : some arg = some (.userdata a) :=
        hes' _ (hes (List.mem_append_right _ (List.mem_singleton_self _)))
      cases harg
      rw [hcall] at hresults
      cases hresults
      rw [List.length_cons] at habove
      omega
    | _ =>
      obtain ⟨rc', mb₁, hrun, hmemory'⟩ := hmemory.leaf lib mem hv rfl fuel es
      rw [hrun] at hwrite
      cases hwrite
      exact ⟨rfl, _, _, _, .leaf rfl, hmemory'⟩

end Retraces

/-! ## Calls that leave the stack as it was -/

/-- `write_value` returns, leaves the stack as it was, and hands to `lua_next`, `lua_dump` and
`__save`, at any depth, only what it was pointed at. -/
def StackNeutral (lib : LuaLibrary) (mem : ℕ → Block) (mb : Builder) (L : LuaState) (idx : ℤ) :
    Prop :=
  ∃ N, ∀ fuel, N ≤ fuel → ∃ rc L' mb' handings,
    (Recorded.writeValue lib mem fuel mb L idx).run [] = some ((rc, L', mb'), handings) ∧
      L'.stack = L.stack ∧ ∀ p ∈ handings, p.Faithful

section Neutral

variable {lib : LuaLibrary} {mem : ℕ → Block} {mb : Builder} {L : LuaState} {idx : ℤ}
  {v : LuaValue} {seen : Visited}

theorem stackNeutral_iff_walks [lib.StackGrows] (hv : L.value idx = some v)
    (hmemory : Remembers mb seen mb.last)
    (hsaves : ∀ a, L.heap.Contains [v] (.userdata a) → lib.Saves a) :
    StackNeutral lib mem mb L idx ↔
      ∃ calls seen' metas, Walks L.heap lib.objlen seen mb.last v calls seen' metas := by
  constructor
  · intro ⟨N, hneutral⟩
    obtain ⟨rc, L', mb', es, hrun, hstack, hes⟩ := hneutral N le_rfl
    obtain ⟨-, calls, seen', metas, hwalk, -⟩ := writeValue_retraces lib mem L.heap N mb mb' L L'
      idx rc v seen mb.last [] es rfl hv
      (fun a hpath => hsaves a ⟨v, List.mem_singleton_self v, hpath⟩) hmemory hrun
      (Nat.le_of_eq (congrArg List.length hstack)) hes
    exact ⟨calls, seen', metas, hwalk⟩
  · intro ⟨calls, seen', metas, hwalk⟩
    refine ⟨calls.length + 1, fun fuel hfuel => ?_⟩
    obtain ⟨rc, mb', es, hrun, -, hes⟩ := writeValue_completes lib mem L.heap fuel mb L idx v seen
      seen' mb.last calls metas [] rfl hv hmemory hwalk hfuel fun _ hp => nomatch hp
    exact ⟨rc, L, mb', es, hrun, rfl, hes⟩

end Neutral

/-- `write_value` leaves the stack as it was exactly if it comes to no userdata, and to no function
that is found again through nothing but upvalues; it does not look into the tables that the
builder knows already. -/
theorem stackNeutral_iff (lib : LuaLibrary) [lib.StackGrows] (mem : ℕ → Block) (mb : Builder)
    (L : LuaState) (idx : ℤ) (v : LuaValue) (seen : Visited) (hv : L.value idx = some v)
    (hrecords : Records (mb.refmap.getD (mapNew cmpRef (some dupRef))) seen)
    (hgraph : L.heap.IsSavable lib [v]) :
    StackNeutral lib mem mb L idx ↔
      ∀ a, ¬ (L.heap.without seen).Contains [v] (.userdata a) ∧
        ((L.heap.without seen).Contains [v] (.function a) →
          ¬ TransGen L.heap.Captures a a) := by
  rw [stackNeutral_iff_walks hv ⟨rfl, hrecords⟩ hgraph.saves]
  exact hgraph.walks_iff seen mb.last

theorem LuaHeap.IsGraph.isSavable {h : LuaHeap} {vs : List LuaValue} (hgraph : h.IsGraph vs)
    (lib : LuaLibrary) : h.IsSavable lib vs where
  finite := hgraph.finite
  tables := hgraph.tables
  closures := hgraph.closures
  saves := fun a ha => (hgraph.plain a ha).elim

/-- A table that holds itself, from the top of the stack. -/
theorem stackNeutral_loop :
    StackNeutral loopLibrary (fun _ _ => blankValue) (msgBuilderInit fun _ => blankValue)
      (loopState [.table 0]) (-1) := by
  refine (stackNeutral_iff _ _ _ (loopState [.table 0]) _ (.table 0) (fun _ => none) rfl
    (along_msgBuilderInit _).records (isGraph_loopHeap.isSavable _)).mpr ?_
  intro a
  refine ⟨fun ha => ?_, fun ha => ?_⟩
  · rcases contains_loopHeap ha.of_without with heq | heq <;> cases heq
  · rcases contains_loopHeap ha.of_without with heq | heq <;> cases heq

/-! ### A userdata -/

/-- A library in which the `__save` of every userdata returns nothing but a name. -/
def namingLibrary : LuaLibrary :=
  { loopLibrary with
    saver := fun _ => some (.function 0)
    call := fun _ _ => some [.string [110]] }

def userdataState : LuaState := { emptyState with stack := [.userdata 0] }

theorem isSavable_userdata : userdataState.heap.IsSavable namingLibrary [.userdata 0] := by
  have hcontains : ∀ v, userdataState.heap.Contains [.userdata 0] v → v = .userdata 0 := by
    intro v ⟨r, hr, hpath⟩
    induction hpath with
    | refl => exact List.mem_singleton.mp hr
    | tail _ hinside ih =>
      subst ih
      cases hinside
  constructor
  · apply Set.Finite.subset (Set.toFinite {.userdata 0})
    exact fun v hv => hcontains v hv
  · intro a ha
    cases hcontains _ ha
  · intro a ha
    cases hcontains _ ha
  · exact fun _ _ => ⟨.function 0, [110], [], rfl, rfl⟩

/-- From the top of the stack, the `__save` of a userdata is handed itself; from the bottom, its
userdata.  Either way the name that it returned stays on the stack. -/
theorem run_userdataState (fuel : ℕ) {idx : ℤ} {arg : LuaValue}
    (hidx : idx = -1 ∧ arg = .function 0 ∨ idx = 1 ∧ arg = .userdata 0) :
    ∃ mb, (Recorded.writeValue namingLibrary (fun _ _ => blankValue) (fuel + 1)
        (msgBuilderInit fun _ => blankValue) userdataState idx).run [] =
      some ((ReturnCode.success.toInt, userdataState.push (.string [110]), mb),
        [⟨.save, some (.userdata 0), some arg⟩]) := by
  rcases hidx with ⟨rfl, rfl⟩ | ⟨rfl, rfl⟩
  · exact ⟨_, rfl⟩
  · exact ⟨_, rfl⟩

/-- A userdata whose `__save` returns a name leaves the stack higher, whichever way it is pointed
at, and from the top of the stack its `__save` is handed itself. -/
theorem stackNeutral_fails :
    userdataState.heap.IsSavable namingLibrary [.userdata 0] ∧
      (∀ idx, idx = -1 ∨ idx = 1 → userdataState.value idx = some (.userdata 0) ∧
        ¬ StackNeutral namingLibrary (fun _ _ => blankValue) (msgBuilderInit fun _ => blankValue)
          userdataState idx) ∧
      ∃ mb, (Recorded.writeValue namingLibrary (fun _ _ => blankValue) 1
          (msgBuilderInit fun _ => blankValue) userdataState (-1)).run [] =
        some ((ReturnCode.success.toInt, userdataState.push (.string [110]), mb),
          [⟨.save, some (.userdata 0), some (.function 0)⟩]) := by
  have hhigher : ∀ {idx : ℤ} {arg : LuaValue},
      (idx = -1 ∧ arg = .function 0 ∨ idx = 1 ∧ arg = .userdata 0) →
      ¬ StackNeutral namingLibrary (fun _ _ => blankValue) (msgBuilderInit fun _ => blankValue)
        userdataState idx := by
    intro idx arg hidx ⟨N, hneutral⟩
    obtain ⟨mb, hrun⟩ := run_userdataState N hidx
    obtain ⟨rc, L', mb', es, hrun', hstack, -⟩ := hneutral (N + 1) (Nat.le_succ N)
    rw [hrun] at hrun'
    cases hrun'
    cases hstack
  refine ⟨isSavable_userdata, ?_, run_userdataState 0 (.inl ⟨rfl, rfl⟩)⟩
  intro idx hidx
  rcases hidx with rfl | rfl
  · exact ⟨rfl, hhigher (.inl ⟨rfl, rfl⟩)⟩
  · exact ⟨rfl, hhigher (.inr ⟨rfl, rfl⟩)⟩

end Casting
