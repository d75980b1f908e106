import Casting.Lua.State
import Casting.Map.Counted
import Casting.Runtime.State

/-!
# The lifetime of a session

Runs of the calls that take and give back references to sessions, in any interleaving.  The
reference that `session_new` counts is the one of the handle, and both `close` and `__gc` give it
back.
-/

namespace Casting

open RefCount Transition Casting.Runtime

abbrev Sessions := Table Unit

def sessionNew (s : Sessions) (alloc : Bool) : Option (Sessions × SessionId) := s.create alloc ()

def sessionRef (s : Sessions) (sid : SessionId) : Sessions × Option (Counted Unit) := s.ref sid

/-- The flag tells whether the session was destroyed. -/
def sessionFree (s : Sessions) (sid : SessionId) : Option (Sessions × Bool) := s.free sid

/-- `session_free` returns `SUCCESS`, that is no session, so there is nothing more to close. -/
def sessionClose (s : Sessions) (sid : SessionId) : Option (Sessions × Bool) := sessionFree s sid

/-- The functions that work on a session between `session_ref` and `session_free`. -/
inductive SessionFunction
  | sessionRun
  | sessionQueueTask
  | sessionWait
  deriving DecidableEq, Repr

structure SessionUse where
  function : SessionFunction
  sid : SessionId
  deriving DecidableEq, Repr

/-- The table, the sessions whose creator has no handle to them yet, the live handles and the
calls in progress.  `holding` has the sessions whose first reference has not been given back, and
`destroyed`, for each time the last reference was, the calls then in progress. -/
structure SessionLog where
  sessions : Sessions
  creating : List SessionId
  handles : List SessionId
  uses : List SessionUse
  holding : List SessionId
  destroyed : List (SessionId × List SessionUse)

inductive SessionLabel
  | new (alloc : Bool)
  | push (sid : SessionId) (result : NewUserdata)
  | close (sid : SessionId)
  | gc (sid : SessionId)
  | enter (use : SessionUse)
  | leave (use : SessionUse)
  deriving DecidableEq, Repr

namespace SessionLog

def start (narrow : ℕ → ℤ) : SessionLog := ⟨Table.start narrow, [], [], [], [], []⟩

def usesOf (l : SessionLog) (sid : SessionId) : List SessionUse :=
  l.uses.filter fun use => use.sid = sid

def destroy (l : SessionLog) (sid : SessionId) (removed : Bool) :
    List (SessionId × List SessionUse) :=
  if removed then l.destroyed ++ [(sid, l.usesOf sid)] else l.destroyed

def freed (l : SessionLog) (sid : SessionId) : Option SessionLog :=
  (sessionFree l.sessions sid).map fun (sessions, removed) =>
    { l with sessions := sessions, destroyed := l.destroy sid removed }

def closed (l : SessionLog) (sid : SessionId) : Option SessionLog :=
  (sessionClose l.sessions sid).map fun (sessions, removed) =>
    { l with sessions := sessions, destroyed := l.destroy sid removed }

/-- Only ids of sessions are passed to the functions, and `session_wait` fails without one. -/
def entered (l : SessionLog) (use : SessionUse) : Option SessionLog :=
  if use.sid ≤ l.sessions.next then
    match sessionRef l.sessions use.sid, use.function with
    | (sessions, some _), _ => some { l with sessions := sessions, uses := use :: l.uses }
    | (_, none), .sessionWait => none
    | (_, none), _ => some l
  else none

def step (l : SessionLog) : SessionLabel → Option SessionLog
  | .new alloc => (sessionNew l.sessions alloc).map fun (sessions, sid) =>
      { l with
        sessions := sessions
        creating := sid :: l.creating
        holding := if alloc then sid :: l.holding else l.holding }
  | .push sid result =>
      if sid ∈ l.creating then
        let l := { l with creating := l.creating.erase sid }
        match result with
        | .pushed => some { l with handles := sid :: l.handles }
        | .null => closed { l with holding := l.holding.erase sid } sid
        | .raised => some l
      else none
  | .close sid =>
      if sid ∈ l.handles then closed { l with holding := l.holding.erase sid } sid else none
  | .gc sid =>
      if sid ∈ l.handles then
        freed { l with handles := l.handles.erase sid, holding := l.holding.erase sid } sid
      else none
  | .enter use => entered l use
  | .leave use =>
      if use ∈ l.uses then freed { l with uses := l.uses.erase use } use.sid else none

/-- No session was destroyed with a call on it in progress. -/
def Unused (l : SessionLog) : Prop := ∀ d ∈ l.destroyed, d.2 = []

instance : DecidablePred Unused := fun l =>
  inferInstanceAs (Decidable (∀ d ∈ l.destroyed, d.2 = []))

/-- The first reference to a session that is still there has not been given back. -/
def HandleHolds (l : SessionLog) (sid : SessionId) : Prop :=
  l.sessions.find sid ≠ none → sid ∈ l.holding

/-- `close` and `__gc` give the reference of a handle back once, ids stay within an `int`, and
the reference count does not overflow. -/
def GivesOnce (l : SessionLog) : SessionLabel → Prop
  | .new _ => l.sessions.next < maxCount
  | .close sid | .gc sid => l.HandleHolds sid
  | .enter use => ∀ t ∈ l.sessions.find use.sid, t.refCount < maxCount
  | .push _ _ | .leave _ => True

instance (l : SessionLog) (a : SessionLabel) : Decidable (GivesOnce l a) := by
  cases a <;> unfold GivesOnce <;> try unfold HandleHolds
  all_goals infer_instance

/-- The table counts a reference for each session that holds its first one and for each call in
progress, and one for each of `owed`, which is about to be given back. -/
structure Tracks (narrow : ℕ → ℤ) (l : SessionLog) (owed : List SessionId)
    (g : ℕ → Option (Counted Unit)) : Prop where
  holds : l.sessions.Holds narrow g
  refs : Refs (counts g) (owed ++ (l.holding ++ l.uses.map SessionUse.sid))
  apart : (l.creating ++ l.handles).Nodup
  issued : ∀ sid ∈ l.creating ++ l.handles, sid ≤ l.sessions.next
  created : ∀ sid ∈ l.creating, g sid ≠ none → sid ∈ l.holding
  unused : l.Unused

/-- A session about to be freed is not there, or has a reference to give back. -/
def Frees (narrow : ℕ → ℤ) (l : SessionLog) (sid : SessionId) : Prop :=
  ∃ g, (g sid = none ∧ Tracks narrow l [] g) ∨ Tracks narrow l [sid] g

variable {narrow : ℕ → ℤ} {l l' : SessionLog} {g : ℕ → Option (Counted Unit)}
  {sid : SessionId} {owed : List SessionId}

theorem start_tracks (narrow : ℕ → ℤ) : Tracks narrow (start narrow) [] fun _ => none where
  holds := Table.start_holds narrow
  refs := refs_nil
  apart := List.nodup_nil
  issued := by simp [start]
  created := by simp [start]
  unused := by simp [start, Unused]

theorem Tracks.not_mem (h : Tracks narrow l owed g) (hg : g sid = none) :
    sid ∉ owed ++ (l.holding ++ l.uses.map SessionUse.sid) := by
  apply h.refs.eq_none
  rw [counts, hg]
  rfl

theorem Tracks.le_next (h : Tracks narrow l owed g)
    (hmem : sid ∈ owed ++ (l.holding ++ l.uses.map SessionUse.sid)) : sid ≤ l.sessions.next := by
  cases hg : g sid with
  | none => exact absurd hmem (h.not_mem hg)
  | some t => exact (h.holds.ids sid t hg).2.2

theorem Tracks.le_maxCount (h : Tracks narrow l owed g) (hle : sid ≤ l.sessions.next) :
    sid ≤ maxCount := Nat.le_trans hle h.holds.next

theorem freed_none (hnarrow : Narrows narrow) (h : Tracks narrow l [] g) (hg : g sid = none)
    (hid : sid ≤ maxCount) : l.freed sid = some l := by
  rcases h.holds.free hnarrow hid with ⟨_, hfree⟩ | ⟨t, _, hsome, _⟩
  · simp [freed, sessionFree, hfree, destroy]
  · rw [hg] at hsome
    cases hsome

theorem Tracks.usesOf_nil (h : Tracks narrow l [sid] g) {t : Counted Unit} (hg : g sid = some t)
    (hlast : dec t.refCount ≤ 0) : l.usesOf sid = [] := by
  have hcount : counts g sid = some t.refCount := by rw [counts, hg]; rfl
  have hout : sid ∉ l.holding ++ l.uses.map SessionUse.sid := Refs.last h.refs hcount hlast
  apply List.filter_eq_nil_iff.mpr
  intro use huse hsid
  apply hout
  apply List.mem_append_right
  rw [← of_decide_eq_true hsid]
  exact List.mem_map_of_mem huse

theorem Tracks.freed (hnarrow : Narrows narrow) (h : Tracks narrow l [sid] g) :
    ∃ l' g', l.freed sid = some l' ∧ Tracks narrow l' [] g' := by
  have hid := h.le_maxCount (h.le_next List.mem_cons_self)
  rcases h.holds.free hnarrow hid with ⟨hnone, _⟩ | ⟨t, sessions, hg, hfree, hnext, hholds⟩
  · exact absurd List.mem_cons_self (h.not_mem hnone)
  · refine ⟨{ l with
        sessions := sessions
        destroyed := l.destroy sid (decide (dec t.refCount ≤ 0)) },
      Function.update g sid (afterFree t), ?_, ?_⟩
    · rw [SessionLog.freed, sessionFree, hfree]
      rfl
    · exact {
        holds := hholds
        refs := refs_free h.refs hg
        apart := h.apart
        issued := by
          rw [hnext]
          exact h.issued
        created := by
          intro other hother hreg
          apply h.created other hother
          by_cases hsid : other = sid
          · rw [hsid, hg]
            exact Option.some_ne_none _
          · rw [Function.update_of_ne hsid] at hreg
            exact hreg
        unused := by
          intro d hd
          simp only [destroy, decide_eq_true_eq] at hd
          split at hd
          · rename_i hlast
            rcases List.mem_append.mp hd with hold | hnew
            · exact h.unused d hold
            · rw [List.mem_singleton.mp hnew]
              exact h.usesOf_nil hg hlast
          · exact h.unused d hd }

theorem Frees.freed (hnarrow : Narrows narrow) (h : Frees narrow l sid) (hid : sid ≤ maxCount)
    (hstep : l.freed sid = some l') : ∃ g', Tracks narrow l' [] g' := by
  obtain ⟨g, ⟨hg, h⟩ | h⟩ := h
  · rw [freed_none hnarrow h hg hid] at hstep
    cases hstep
    exact ⟨g, h⟩
  · obtain ⟨next, g', hfreed, htracks⟩ := h.freed hnarrow
    rw [hfreed] at hstep
    cases hstep
    exact ⟨g', htracks⟩

theorem Tracks.giveUp (h : Tracks narrow l [] g) (hheld : g sid ≠ none → sid ∈ l.holding)
    (hcreating : sid ∉ l.creating) :
    Frees narrow { l with holding := l.holding.erase sid } sid := by
  have hcreated : ∀ other ∈ l.creating, g other ≠ none → other ∈ l.holding.erase sid := by
    intro other hother hreg
    have hne : other ≠ sid := by
      intro heq
      exact hcreating (heq ▸ hother)
    exact (List.mem_erase_of_ne hne).mpr (h.created other hother hreg)
  by_cases hg : g sid = none
  · have hout : sid ∉ l.holding := fun hmem =>
      h.not_mem hg (List.mem_append_right _ (List.mem_append_left _ hmem))
    have hsame : l.holding.erase sid = l.holding := List.erase_of_not_mem hout
    refine ⟨g, .inl ⟨hg, ?_⟩⟩
    rw [hsame]
    exact h
  · refine ⟨g, .inr ?_⟩
    exact {
      holds := h.holds
      refs := h.refs.perm ((List.perm_cons_erase (hheld hg)).append_right _)
      apart := h.apart
      issued := h.issued
      created := hcreated
      unused := h.unused }

/-! ### Runs -/

theorem Tracks.new (hnarrow : Narrows narrow) (h : Tracks narrow l [] g) {alloc : Bool}
    (hnext : l.sessions.next < maxCount) (hstep : step l (.new alloc) = some l') :
    ∃ g', Tracks narrow l' [] g' := by
  have hnone : g (l.sessions.next + 1) = none := h.holds.none_of_lt (Nat.lt_succ_self _)
  have hfresh := h.not_mem hnone
  have hcreating : l.sessions.next + 1 ∉ l.creating ++ l.handles := fun hmem =>
    absurd (h.issued _ hmem) (Nat.not_succ_le_self _)
  have hissued : ∀ sid ∈ (l.sessions.next + 1) :: (l.creating ++ l.handles),
      sid ≤ l.sessions.next + 1 := by
    intro sid hsid
    rcases List.mem_cons.mp hsid with rfl | hold
    · exact Nat.le_refl _
    · exact Nat.le_succ_of_le (h.issued sid hold)
  obtain ⟨sessions, hcreate, hsessions, hholds⟩ := h.holds.create hnarrow alloc () hnext
  simp only [step, sessionNew, hcreate, Option.map_some, Option.some.injEq] at hstep
  subst hstep
  refine ⟨_, hholds, ?_, List.nodup_cons.mpr ⟨hcreating, h.apart⟩, ?_, ?_, h.unused⟩
  · cases alloc with
    | true =>
        rw [if_pos rfl, counts_update]
        exact h.refs.add hfresh
    | false => exact h.refs
  · rw [hsessions]
    exact hissued
  · intro sid hsid hreg
    by_cases hnew : sid = l.sessions.next + 1
    · cases alloc with
      | true =>
          rw [hnew]
          exact List.mem_cons_self
      | false =>
          rw [hnew] at hreg
          exact absurd hnone hreg
    · have hold := (List.mem_cons.mp hsid).resolve_left hnew
      cases alloc with
      | true =>
          rw [if_pos rfl, Function.update_of_ne hnew] at hreg
          exact List.mem_cons_of_mem _ (h.created sid hold hreg)
      | false => exact h.created sid hold hreg

theorem Tracks.push (hnarrow : Narrows narrow) (h : Tracks narrow l [] g)
    {result : NewUserdata} (hstep : step l (.push sid result) = some l') :
    ∃ g', Tracks narrow l' [] g' := by
  simp only [step] at hstep
  split at hstep
  · rename_i hmem
    have hperm := List.perm_cons_erase hmem
    have happart : (sid :: (l.creating.erase sid ++ l.handles)).Nodup :=
      (hperm.append_right l.handles).nodup_iff.mp h.apart
    have hissued : ∀ other ∈ sid :: (l.creating.erase sid ++ l.handles),
        other ≤ l.sessions.next := by
      intro other hother
      exact h.issued other ((hperm.append_right l.handles).mem_iff.mpr hother)
    have hraised : Tracks narrow { l with creating := l.creating.erase sid } [] g :=
      { holds := h.holds
        refs := h.refs
        apart := (List.nodup_cons.mp happart).2
        issued := fun other hother => hissued other (List.mem_cons_of_mem _ hother)
        created := fun other hother => h.created other (List.mem_of_mem_erase hother)
        unused := h.unused }
    cases result with
    | pushed =>
        cases hstep
        exact ⟨g, {
          holds := h.holds
          refs := h.refs
          apart := List.perm_middle.nodup_iff.mpr happart
          issued := fun other hother => hissued other (List.perm_middle.mem_iff.mp hother)
          created := hraised.created
          unused := h.unused }⟩
    | null =>
        have hout : sid ∉ l.creating.erase sid := fun hsid =>
          (List.nodup_cons.mp happart).1 (List.mem_append_left _ hsid)
        have hfrees := hraised.giveUp (h.created sid hmem) hout
        have hid := h.le_maxCount (h.issued sid (List.mem_append_left _ hmem))
        exact hfrees.freed hnarrow hid hstep
    | raised =>
        cases hstep
        exact ⟨g, hraised⟩
  · cases hstep

theorem Tracks.enter (hnarrow : Narrows narrow) (h : Tracks narrow l [] g) {use : SessionUse}
    (hmax : ∀ t ∈ l.sessions.find use.sid, t.refCount < maxCount)
    (hstep : step l (.enter use) = some l') : ∃ g', Tracks narrow l' [] g' := by
  simp only [step, entered] at hstep
  split at hstep
  · rename_i hle
    have hid := h.le_maxCount hle
    rcases h.holds.ref hnarrow hid with ⟨hg, href⟩ | ⟨t, sessions, hg, href, hnext, hholds⟩
    · rw [sessionRef, href] at hstep
      cases hfunction : use.function <;> rw [hfunction] at hstep <;> cases hstep
      · exact ⟨g, h⟩
      · exact ⟨g, h⟩
    · rw [sessionRef, href] at hstep
      cases hstep
      have hfew := hmax t (by rw [h.holds.find hnarrow hid]; exact hg)
      refine ⟨_, hholds, ?_, h.apart, ?_, ?_, h.unused⟩
      · have hperm : (use.sid :: (l.holding ++ l.uses.map SessionUse.sid)).Perm
            (l.holding ++ use.sid :: l.uses.map SessionUse.sid) := List.perm_middle.symm
        exact (refs_ref h.refs hg hfew).perm hperm
      · rw [hnext]
        exact h.issued
      · intro other hother hreg
        apply h.created other hother
        by_cases hsid : other = use.sid
        · rw [hsid, hg]
          exact Option.some_ne_none _
        · rw [Function.update_of_ne hsid] at hreg
          exact hreg
  · cases hstep

theorem Tracks.leave (hnarrow : Narrows narrow) (h : Tracks narrow l [] g) {use : SessionUse}
    (hstep : step l (.leave use) = some l') : ∃ g', Tracks narrow l' [] g' := by
  simp only [step] at hstep
  split at hstep
  · rename_i hmem
    have hperm := ((List.perm_cons_erase hmem).map SessionUse.sid).append_left l.holding
    have htracks : Tracks narrow { l with uses := l.uses.erase use } [use.sid] g :=
      { holds := h.holds
        refs := h.refs.perm (hperm.trans List.perm_middle)
        apart := h.apart
        issued := h.issued
        created := h.created
        unused := h.unused }
    have hfrees : Frees narrow { l with uses := l.uses.erase use } use.sid := ⟨g, .inr htracks⟩
    have hsid : use.sid ∈ [] ++ (l.holding ++ l.uses.map SessionUse.sid) :=
      List.mem_append_right l.holding (List.mem_map_of_mem hmem)
    exact hfrees.freed hnarrow (h.le_maxCount (h.le_next hsid)) hstep
  · cases hstep

theorem Tracks.not_creating (h : Tracks narrow l owed g) (hmem : sid ∈ l.handles) :
    sid ∉ l.creating := fun hcreating =>
  (List.nodup_append.mp h.apart).2.2 sid hcreating sid hmem rfl

theorem Tracks.handleHolds (hnarrow : Narrows narrow) (h : Tracks narrow l owed g)
    (hheld : l.HandleHolds sid) (hid : sid ≤ maxCount) : g sid ≠ none → sid ∈ l.holding := by
  intro hg
  apply hheld
  rw [h.holds.find hnarrow hid]
  exact hg

theorem Tracks.close (hnarrow : Narrows narrow) (h : Tracks narrow l [] g)
    (hheld : l.HandleHolds sid) (hstep : step l (.close sid) = some l') :
    ∃ g', Tracks narrow l' [] g' := by
  simp only [step] at hstep
  split at hstep
  · rename_i hmem
    have hid := h.le_maxCount (h.issued sid (List.mem_append_right _ hmem))
    have hfrees := h.giveUp (h.handleHolds hnarrow hheld hid) (h.not_creating hmem)
    exact hfrees.freed hnarrow hid hstep
  · cases hstep

theorem Tracks.gc (hnarrow : Narrows narrow) (h : Tracks narrow l [] g)
    (hheld : l.HandleHolds sid) (hstep : step l (.gc sid) = some l') :
    ∃ g', Tracks narrow l' [] g' := by
  simp only [step] at hstep
  split at hstep
  · rename_i hmem
    have hid := h.le_maxCount (h.issued sid (List.mem_append_right _ hmem))
    have hsub : (l.creating ++ l.handles.erase sid).Sublist (l.creating ++ l.handles) :=
      (List.erase_sublist).append_left l.creating
    have hgone : Tracks narrow { l with handles := l.handles.erase sid } [] g :=
      { holds := h.holds
        refs := h.refs
        apart := h.apart.sublist hsub
        issued := fun other hother => h.issued other (hsub.subset hother)
        created := h.created
        unused := h.unused }
    have hheld' := h.handleHolds hnarrow hheld hid
    have hfrees := hgone.giveUp hheld' (h.not_creating hmem)
    exact hfrees.freed hnarrow hid hstep
  · cases hstep

theorem count_usesOf (l : SessionLog) (sid : SessionId) :
    (l.uses.map SessionUse.sid).count sid = (l.usesOf sid).length := by
  rw [List.count_eq_countP, List.countP_map, List.countP_eq_length_filter, usesOf]
  congr 2

/-- A handle that is closed again while one call has the only other reference destroys the session
under that call. -/
theorem Tracks.destroyed_in_use (hnarrow : Narrows narrow) (h : Tracks narrow l [] g)
    (hhandle : sid ∈ l.handles) (hspent : sid ∉ l.holding) {use : SessionUse}
    (huse : l.usesOf sid = [use]) :
    ∃ next, SessionLog.step l (.close sid) = some next ∧ ¬ Unused next := by
  have hid := h.le_maxCount (h.issued sid (List.mem_append_right _ hhandle))
  have hone : (l.holding ++ l.uses.map SessionUse.sid).count sid = 1 := by
    rw [List.count_append, List.count_eq_zero.mpr hspent, count_usesOf, huse]
    rfl
  have hcount := h.refs.eq_some (List.count_pos_iff.mp (by rw [List.nil_append, hone]; decide))
  rw [List.nil_append, hone] at hcount
  rcases h.holds.free hnarrow hid with ⟨hnone, _⟩ | ⟨t, sessions, hg, hfree, _, _⟩
  · rw [counts, hnone] at hcount
    cases hcount
  · have hrefCount : t.refCount = 1 := by
      rw [counts, hg] at hcount
      exact Option.some.inj hcount
    have hlast : decide (dec t.refCount ≤ 0) = true := by
      rw [hrefCount]
      decide
    rw [hlast] at hfree
    refine ⟨{ l with
        sessions := sessions
        holding := l.holding.erase sid
        destroyed := l.destroyed ++ [(sid, l.usesOf sid)] }, ?_, ?_⟩
    · simp only [SessionLog.step, if_pos hhandle, closed, sessionClose, sessionFree, hfree]
      rfl
    · intro hunused
      have hnil := hunused (sid, l.usesOf sid) (List.mem_append_right _ List.mem_cons_self)
      rw [huse] at hnil
      cases hnil

theorem Tracks.step (hnarrow : Narrows narrow) {a : SessionLabel}
    (h : ∃ g, Tracks narrow l [] g) (hguard : GivesOnce l a)
    (hstep : SessionLog.step l a = some l') : ∃ g, Tracks narrow l' [] g := by
  obtain ⟨g, h⟩ := h
  cases a with
  | new alloc => exact h.new hnarrow hguard hstep
  | push sid result => exact h.push hnarrow hstep
  | close sid => exact h.close hnarrow hguard hstep
  | gc sid => exact h.gc hnarrow hguard hstep
  | enter use => exact h.enter hnarrow hguard hstep
  | leave use => exact h.leave hnarrow hstep

/-- No session is destroyed while in use in a run in which the reference of each handle is given
back once, ids stay within an `int` and no reference count overflows. -/
theorem unused_throughout (hnarrow : Narrows narrow) (as : List SessionLabel)
    (h : Respects SessionLog.step GivesOnce (start narrow) as) :
    Throughout SessionLog.step Unused (start narrow) as := by
  apply throughout_of_respects (I := fun l => ∃ g, Tracks narrow l [] g)
    (fun l a next hinv hguard hstep => Tracks.step hnarrow hinv hguard hstep)
  · intro l ⟨g, hinv⟩
    exact hinv.unused
  · exact ⟨_, start_tracks narrow⟩
  · exact h

/-- A session that is closed while `session_run` works on it, and collected after that. -/
theorem unused_closed_running :
    Throughout SessionLog.step Unused (start fun n => n)
      [.new true, .push 1 .pushed, .enter ⟨.sessionRun, 1⟩, .close 1, .leave ⟨.sessionRun, 1⟩,
        .gc 1] :=
  unused_throughout (fun _ _ => rfl) _ (by decide)

/-- The handle of a session on which `session_run` works is closed, and collected after that. -/
theorem unused_fails :
    ¬ ∀ (narrow : ℕ → ℤ) (as : List SessionLabel), Narrows narrow →
      Throughout SessionLog.step Unused (start narrow) as := by
  intro hall
  have hrun := hall (fun n => n)
    [.new true, .push 1 .pushed, .enter ⟨.sessionRun, 1⟩, .close 1, .gc 1] fun _ _ => rfl
  revert hrun
  decide

end SessionLog

end Casting
