import Casting.Map.Counted
import Casting.Runtime.State

/-!
# The task table

Runs of `task_new`, `task_ref` and `task_free`, beside the number of references to each task that
have not been given back.
-/

namespace Casting

open RefCount Transition Casting.Runtime

/-- The fields of a `task_t` besides its id and its reference count that `task_new` sets. -/
structure TaskBody where
  sid : SessionId
  status : Status
  deriving DecidableEq, Repr

instance : Inhabited TaskBody := ⟨⟨0, .ready⟩⟩

abbrev Tasks := Table TaskBody

def taskNew (s : Tasks) (alloc : Bool) (sid : SessionId) : Option (Tasks × TaskId) :=
  s.create alloc ⟨sid, .ready⟩

def taskRef (s : Tasks) (tid : TaskId) : Tasks × Option (Counted TaskBody) := s.ref tid

def taskFree (s : Tasks) (tid : TaskId) : Option (Tasks × Bool) := s.free tid

/-- A call; `alloc` tells whether a node can be allocated. -/
inductive TaskCall
  | new (alloc : Bool) (sid : SessionId)
  | ref (tid : TaskId)
  | free (tid : TaskId)
  deriving DecidableEq, Repr

inductive TaskReply
  | created (tid : TaskId)
  | found (t : Option (Counted TaskBody))
  | freed

namespace Tasks

def call (s : Tasks) : TaskCall → Option (Tasks × TaskReply)
  | .new alloc sid => (taskNew s alloc sid).map fun (s, tid) => (s, .created tid)
  | .ref tid => some ((taskRef s tid).1, .found (taskRef s tid).2)
  | .free tid => (taskFree s tid).map fun (s, _) => (s, .freed)

def step (s : Tasks) (c : TaskCall) : Option Tasks := (s.call c).map Prod.fst

def target (s : Tasks) : TaskCall → TaskId
  | .new _ _ => s.next + 1
  | .ref tid | .free tid => tid

/-- Ids stay within an `int`, the reference count does not overflow, and there is memory. -/
def InRange (s : Tasks) : TaskCall → Prop
  | .new alloc _ => alloc = true ∧ s.next < maxCount
  | .ref tid => tid ≤ maxCount ∧ ∀ t ∈ s.find tid, t.refCount < maxCount
  | .free tid => tid ≤ maxCount

instance (s : Tasks) (c : TaskCall) : Decidable (InRange s c) := by
  cases c <;> unfold InRange <;> infer_instance

end Tasks

/-- What a call answers and does to the references that have not been given back. -/
def TaskServes (refs refs' : TaskId → ℕ) : TaskCall → TaskReply → Prop
  | .new _ _, .created tid => refs tid = 0 ∧ refs' = Function.update refs tid 1
  | .ref tid, .found none => refs tid = 0 ∧ refs' = refs
  | .ref tid, .found (some t) =>
      0 < refs tid ∧ t.id = tid ∧ refs' = Function.update refs tid (refs tid + 1)
  | .free tid, .freed => refs' = Function.update refs tid (refs tid - 1)
  | _, _ => False

/-- The call is answered rightly, every task gets an id of its own, the records of other tasks
stay as they are, and the ids issued so far are compared as they are. -/
structure TaskStep (s s' : Tasks) (refs refs' : TaskId → ℕ) (c : TaskCall) (reply : TaskReply) :
    Prop where
  serves : TaskServes refs refs' c reply
  fresh : ∀ tid, reply = .created tid → s.next < tid ∧ tid = s'.next
  others : ∀ t ∈ s.map.root.toList, t.id ≠ Tasks.target s c → t ∈ s'.map.root.toList
  ordered : ∀ a b : Counted TaskBody, a.id ≤ s'.next → b.id ≤ s'.next →
    (s'.map.cmp a b < 0 ↔ a.id < b.id) ∧ (s'.map.cmp a b = 0 ↔ a.id = b.id)

def Tasks.Unaliased : Tasks → (TaskId → ℕ) → List TaskCall → Prop
  | _, _, [] => True
  | s, refs, c :: calls =>
      ∃ s' reply refs', Tasks.call s c = some (s', reply) ∧ TaskStep s s' refs refs' c reply ∧
        Tasks.Unaliased s' refs' calls

namespace Tasks

variable {narrow : ℕ → ℤ} {s : Tasks} {refs : TaskId → ℕ}

/-- The table holds the tasks with references outstanding, and counts these. -/
def Kept (narrow : ℕ → ℤ) (s : Tasks) (refs : TaskId → ℕ) : Prop :=
  ∃ g, Table.Holds narrow s g ∧ Counts (counts g) refs

theorem start_kept (narrow : ℕ → ℤ) : Kept narrow (Table.start narrow) fun _ => 0 :=
  ⟨fun _ => none, Table.start_holds narrow, counts_empty⟩

theorem refs_of_none {g : ℕ → Option (Counted TaskBody)} {tid : TaskId}
    (hcounts : Counts (counts g) refs) (hg : g tid = none) : refs tid = 0 := by
  have hcount := (hcounts tid).1
  rw [counts, hg] at hcount
  exact count_eq_none.mp hcount.symm

theorem refs_of_some {g : ℕ → Option (Counted TaskBody)} {tid : TaskId} {t : Counted TaskBody}
    (hcounts : Counts (counts g) refs) (hg : g tid = some t) :
    0 < refs tid ∧ t.refCount = refs tid := by
  have hcount := (hcounts tid).1
  rw [counts, hg] at hcount
  have hpos : 0 < refs tid := by
    rcases Nat.eq_zero_or_pos (refs tid) with hzero | hpos
    · rw [hzero] at hcount
      cases hcount
    · exact hpos
  rw [count_of_pos hpos] at hcount
  exact ⟨hpos, Option.some.inj hcount⟩

theorem taskStep_of_holds (hnarrow : Narrows narrow) {s' : Tasks} {refs' : TaskId → ℕ}
    {c : TaskCall} {reply : TaskReply} {g : ℕ → Option (Counted TaskBody)}
    {v : Option (Counted TaskBody)} (h : Table.Holds narrow s g)
    (h' : Table.Holds narrow s' (Function.update g (target s c) v))
    (hserves : TaskServes refs refs' c reply)
    (hfresh : ∀ tid, reply = .created tid → s.next < tid ∧ tid = s'.next) :
    TaskStep s s' refs refs' c reply where
  serves := hserves
  fresh := hfresh
  others t ht hne := by
    rw [h.mem_iff hnarrow] at ht
    rw [h'.mem_iff hnarrow, Function.update_of_ne hne, ht]
  ordered a b ha hb := h'.compares hnarrow ha hb

theorem Kept.new (h : Kept narrow s refs) (hnarrow : Narrows narrow) (sid : SessionId)
    (hnext : s.next < maxCount) :
    ∃ s' reply refs', Tasks.call s (.new true sid) = some (s', reply) ∧
      TaskStep s s' refs refs' (.new true sid) reply ∧ Kept narrow s' refs' := by
  obtain ⟨g, hholds, hcounts⟩ := h
  obtain ⟨s', hcreate, hs', hholds'⟩ := hholds.create hnarrow true ⟨sid, .ready⟩ hnext
  rw [if_pos rfl] at hholds'
  have hzero : refs (s.next + 1) = 0 :=
    refs_of_none hcounts (hholds.none_of_lt (Nat.lt_succ_self _))
  refine ⟨s', .created (s.next + 1), Function.update refs (s.next + 1) 1, ?_, ?_, _, hholds', ?_⟩
  · rw [call, taskNew, hcreate]
    rfl
  · apply taskStep_of_holds hnarrow hholds hholds'
    · exact ⟨hzero, rfl⟩
    · rintro tid ⟨⟩
      exact ⟨Nat.lt_succ_self _, hs'.symm⟩
  · rw [counts_update]
    exact hcounts.add

theorem Kept.ref (h : Kept narrow s refs) (hnarrow : Narrows narrow) {tid : TaskId}
    (htid : tid ≤ maxCount) (hmax : ∀ t ∈ s.find tid, t.refCount < maxCount) :
    ∃ s' reply refs', Tasks.call s (.ref tid) = some (s', reply) ∧
      TaskStep s s' refs refs' (.ref tid) reply ∧ Kept narrow s' refs' := by
  obtain ⟨g, hholds, hcounts⟩ := h
  rcases hholds.ref hnarrow htid with ⟨hg, href⟩ | ⟨t, s', hg, href, hs', hholds'⟩
  · have hzero := refs_of_none hcounts hg
    have hsame : Function.update g tid none = g := by rw [← hg, Function.update_eq_self]
    have hholds' : Table.Holds narrow s (Function.update g tid none) := by
      rw [hsame]
      exact hholds
    refine ⟨s, .found none, refs, ?_, ?_, g, hholds, hcounts⟩
    · simp only [call, taskRef, href]
    · apply taskStep_of_holds hnarrow hholds hholds'
      · exact ⟨hzero, rfl⟩
      · rintro tid' ⟨⟩
  · obtain ⟨hpos, hcount⟩ := refs_of_some hcounts hg
    have hlt : refs tid < maxCount := by
      have h := hmax t (by rw [hholds.find hnarrow htid]; exact hg)
      rw [hcount] at h
      exact_mod_cast h
    refine ⟨s', .found (some { t with refCount := inc t.refCount }),
      Function.update refs tid (refs tid + 1), ?_, ?_, _, hholds', ?_⟩
    · simp only [call, taskRef, href]
    · apply taskStep_of_holds hnarrow hholds hholds'
      · exact ⟨hpos, (hholds.ids tid t hg).1, rfl⟩
      · rintro tid' ⟨⟩
    · have hnext := hcounts.ref hpos hlt
      simp only [RefCount.ref, counts, hg, Option.map_some] at hnext
      rw [counts_update]
      exact hnext

theorem Kept.free (h : Kept narrow s refs) (hnarrow : Narrows narrow) {tid : TaskId}
    (htid : tid ≤ maxCount) :
    ∃ s' reply refs', Tasks.call s (.free tid) = some (s', reply) ∧
      TaskStep s s' refs refs' (.free tid) reply ∧ Kept narrow s' refs' := by
  obtain ⟨g, hholds, hcounts⟩ := h
  have hnext := hcounts.free (k := tid)
  have hanswer : TaskServes refs (Function.update refs tid (refs tid - 1)) (.free tid) .freed :=
    rfl
  rcases hholds.free hnarrow htid with ⟨hg, hfree⟩ | ⟨t, s', hg, hfree, hs', hholds'⟩
  · have hsame : Function.update g tid none = g := by rw [← hg, Function.update_eq_self]
    have hholds' : Table.Holds narrow s (Function.update g tid none) := by
      rw [hsame]
      exact hholds
    refine ⟨s, .freed, Function.update refs tid (refs tid - 1), ?_, ?_, g, hholds, ?_⟩
    · simp only [call, taskFree, hfree, Option.map_some]
    · apply taskStep_of_holds hnarrow hholds hholds' hanswer
      rintro tid' ⟨⟩
    · simp only [RefCount.free, counts, hg, Option.map_none] at hnext
      exact hnext
  · refine ⟨s', .freed, Function.update refs tid (refs tid - 1), ?_, ?_, _, hholds', ?_⟩
    · simp only [call, taskFree, hfree, Option.map_some]
    · apply taskStep_of_holds hnarrow hholds hholds' hanswer
      rintro tid' ⟨⟩
    · simp only [RefCount.free, counts, hg, Option.map_some] at hnext
      rw [counts_update, refCount_afterFree]
      exact hnext

theorem Kept.call (h : Kept narrow s refs) (hnarrow : Narrows narrow) {c : TaskCall}
    (hrange : InRange s c) :
    ∃ s' reply refs', Tasks.call s c = some (s', reply) ∧ TaskStep s s' refs refs' c reply ∧
      Kept narrow s' refs' := by
  cases c with
  | new alloc sid =>
      obtain ⟨rfl, hnext⟩ := hrange
      exact h.new hnarrow sid hnext
  | ref tid => exact h.ref hnarrow hrange.1 hrange.2
  | free tid => exact h.free hnarrow hrange

theorem Kept.unaliased (h : Kept narrow s refs) (hnarrow : Narrows narrow) {calls : List TaskCall}
    (hrange : Before step InRange s calls) : Unaliased s refs calls := by
  induction calls generalizing s refs with
  | nil => trivial
  | cons c calls ih =>
      obtain ⟨hfirst, hrest⟩ := hrange
      obtain ⟨s', reply, refs', hcall, hstep, hkept⟩ := h.call hnarrow hfirst
      have hnext : step s c = some s' := by rw [step, hcall]; rfl
      exact ⟨s', reply, refs', hcall, hstep, ih hkept (hrest s' hnext)⟩

/-- Task ids do not alias in any sequence of calls in which ids stay within an `int`, no
reference count overflows and memory is not exhausted. -/
theorem unaliased_of_inRange (hnarrow : Narrows narrow) (calls : List TaskCall)
    (hrange : Before step InRange (Table.start narrow) calls) :
    Unaliased (Table.start narrow) (fun _ => 0) calls :=
  (start_kept narrow).unaliased hnarrow hrange

/-- Two tasks in the table at the same time; one of them is removed, and then a third one comes. -/
theorem unaliased_two_tasks :
    Unaliased (Table.start fun n => n) (fun _ => 0)
      [.new true 7, .new true 8, .ref 1, .ref 2, .free 1, .free 1, .ref 1, .new true 7, .ref 3,
        .free 2, .free 3, .ref 2] :=
  unaliased_of_inRange (fun _ _ => rfl) _ (by decide)

/-- A conversion that takes everything out of range to the smallest `int`. -/
def narrowToMin (n : ℕ) : ℤ := if n ≤ maxCount then n else -2147483648

/-- The empty table after `n` ids were issued. -/
def emptyTable (narrow : ℕ → ℤ) (n : ℕ) : Tasks := ⟨mapNew (cmpIds narrow) (some .ok), n⟩

def oneTask (narrow : ℕ → ℤ) (n : ℕ) : Tasks :=
  ⟨⟨.node 1 .nil ⟨n, 1, ⟨0, .ready⟩⟩ .nil, cmpIds narrow, some .ok, 1⟩, n⟩

theorem call_new_empty (narrow : ℕ → ℤ) (n : ℕ) :
    Tasks.call (emptyTable narrow n) (.new true 0) =
      some (oneTask narrow (n + 1), .created (n + 1)) := rfl

theorem call_free_one (narrow : ℕ → ℤ) (n : ℕ) :
    Tasks.call (oneTask narrow n) (.free n) = some (emptyTable narrow n, .freed) := by
  have hfind : Table.find (oneTask narrow n) n = some ⟨n, 1, ⟨0, .ready⟩⟩ := by
    simp [Table.find, oneTask, mapFind, MapNode.find, cmpIds]
  have hdec : ¬ 0 < dec 1 := by decide
  simp only [Tasks.call, taskFree, Table.free, hfind, if_neg hdec]
  simp [oneTask, emptyTable, mapNew, Map.call, mapRemove, MapNode.isNil, MapNode.removePath,
    MapNode.removeTop, MapNode.find, cmpIds, heightLimit]

/-- `k` tasks created and released one after another, and then other calls. -/
def churn (rest : List TaskCall) : ℕ → ℕ → List TaskCall
  | _, 0 => rest
  | n, k + 1 => .new true 0 :: .free (n + 1) :: churn rest (n + 1) k

theorem unaliased_churn {narrow : ℕ → ℤ} {rest : List TaskCall} {n k : ℕ} {refs : TaskId → ℕ}
    (h : Unaliased (emptyTable narrow n) refs (churn rest n k)) :
    ∃ refs', Unaliased (emptyTable narrow (n + k)) refs' rest := by
  induction k generalizing n refs with
  | zero => exact ⟨refs, h⟩
  | succ k ih =>
      obtain ⟨s₁, _, _, hnew, _, s₂, _, refs₂, hfree, _, hrest⟩ := h
      rw [call_new_empty] at hnew
      cases hnew
      rw [call_free_one] at hfree
      cases hfree
      have hsum : n + (k + 1) = n + 1 + k := by omega
      rw [hsum]
      exact ih hrest

/-- Two ids beyond the largest `int` are the same to the table. -/
theorem unaliased_fails :
    ¬ ∀ (narrow : ℕ → ℤ) (calls : List TaskCall), Narrows narrow →
      Unaliased (Table.start narrow) (fun _ => 0) calls := by
  intro hall
  have hnarrow : Narrows narrowToMin := fun n hn => if_pos hn
  obtain ⟨refs, h⟩ := unaliased_churn (n := 0) (k := maxCount)
    (hall narrowToMin (churn [.new true 0, .ref (maxCount + 2)] 0 maxCount) hnarrow)
  obtain ⟨s₁, _, refs₁, hnew, _, s₂, reply, refs₂, href, hstep, _⟩ := h
  rw [call_new_empty] at hnew
  cases hnew
  have hfind : Table.find (oneTask narrowToMin (0 + maxCount + 1)) (maxCount + 2) =
      some ⟨0 + maxCount + 1, 1, ⟨0, .ready⟩⟩ := by
    simp [Table.find, oneTask, mapFind, MapNode.find, cmpIds, narrowToMin]
  simp only [Tasks.call, taskRef, Table.ref, hfind, Option.some.injEq, Prod.mk.injEq] at href
  obtain ⟨_, rfl⟩ := href
  have hid : 0 + maxCount + 1 = maxCount + 2 := hstep.serves.2.1
  omega

end Tasks

end Casting
