import Casting.Lua.State
import Casting.Map.Counted
import Casting.Runtime.State

/-!
# The channel table

Runs of the functions that take and give back references to channels, in any interleaving of the
Lua states that call them; each locked section is one step.  A channel handle that is sent in a
message leaves only the id of its channel there.
-/

namespace Casting

open RefCount Transition Casting.Runtime

/-- The largest `double` up to which all integers can be held. -/
def maxDouble : ℕ := 9007199254740992

/-- `++next_id` for a `double`: beyond the exact integers the sum is rounded back. -/
def doubleSucc (n : ℕ) : ℕ := if n < maxDouble then n + 1 else n

abbrev Channels := Table Unit

namespace Channels

/-- `cmp_channel` compares the ids as they are. -/
def initChannel : Channels := Table.start fun n => n

/-- The insertion of `channel_new`. -/
def channelNew (s : Channels) (alloc : Bool) : Option (Channels × ChannelId) :=
  (s.map.call (.insert alloc ⟨doubleSucc s.next, 1, ()⟩)).map fun (map, _) =>
    (⟨map, doubleSucc s.next⟩, doubleSucc s.next)

def channelFind (s : Channels) (cid : ChannelId) : Option (Counted Unit) := s.find cid

def channelRef (s : Channels) (cid : ChannelId) : Channels × Option (Counted Unit) := s.ref cid

/-- The argument is the id of the channel pointed to; the flag tells whether it was destroyed. -/
def channelFree (s : Channels) : Option ChannelId → Option (Channels × Bool)
  | none => some (s, false)
  | some cid => s.free cid

end Channels

/-- A function that has a pointer to a channel, between the locked sections where it gets and
gives back the reference to it: `channelNew` is before the `channel_find` at its end. -/
inductive ChannelFunction
  | channelNew
  | new
  | connect
  | load (cid : ChannelId)
  | close
  | status
  | count
  | write
  | read
  | destroy
  deriving DecidableEq, Repr

namespace ChannelFunction

def Pushes : ChannelFunction → Bool
  | new | connect | load _ => true
  | _ => false

/-- The functions that end with `channel_free`. -/
def Frees : ChannelFunction → Bool
  | close | status | count | write | read | destroy => true
  | _ => false

/-- The functions that begin with `channel_ref` on the channel of a handle. -/
def OnHandle : ChannelFunction → Bool
  | close | status | count | write | read => true
  | _ => false

/-- The functions in which Lua may raise an error before `channel_free`: in `lua_newmessage`, in
a callback that decodes, and in `lua_pushstring`. -/
def Raises : ChannelFunction → Bool
  | status | write | read => true
  | _ => false

end ChannelFunction

structure ChannelUse where
  function : ChannelFunction
  cid : ChannelId
  deriving DecidableEq, Repr

/-- The table, the live handles, the functions that have a reference, and the ids that messages
carry which are not decoded yet.  `issued` has all ids, `failed` those that could not be inserted,
`removed` the channels destroyed with their last reference counts, and `loaded` what `luac_load`
pushed: a handle or nil. -/
structure ChannelLog where
  channels : Channels
  handles : List ChannelId
  uses : List ChannelUse
  carried : List ChannelId
  issued : List ChannelId
  failed : List ChannelId
  removed : List (ChannelId × ℤ)
  loaded : List (ChannelId × Option ChannelId)

inductive ChannelLabel
  | new (alloc : Bool)
  | find (cid : ChannelId)
  | connect (cid : ChannelId)
  | load (cid : ChannelId)
  | enter (use : ChannelUse)
  | gc (cid : ChannelId)
  | push (use : ChannelUse) (result : NewUserdata)
  | free (use : ChannelUse)
  | raise (use : ChannelUse)
  | save (cid : ChannelId)
  | discard (cid : ChannelId)
  deriving DecidableEq, Repr

namespace ChannelLog

def start : ChannelLog := ⟨Channels.initChannel, [], [], [], [], [], [], []⟩

/-- The references that handles and functions have. -/
def refs (l : ChannelLog) : List ChannelId := l.handles ++ l.uses.map ChannelUse.cid

def find (l : ChannelLog) (cid : ChannelId) : Option (Counted Unit) :=
  Channels.channelFind l.channels cid

/-- The channel with the reference count at which it is removed, if `channel_free` removes it. -/
def last (l : ChannelLog) (cid : ChannelId) (removed : Bool) : List (ChannelId × ℤ) :=
  if removed then (l.find cid).toList.map fun t => (cid, dec t.refCount) else []

def freed (l : ChannelLog) (cid : ChannelId) : Option ChannelLog :=
  (Channels.channelFree l.channels (some cid)).map fun (channels, removed) =>
    { l with channels := channels, removed := l.removed ++ l.last cid removed }

/-- `channel_ref`, and the function goes on with the channel found. -/
def took (l : ChannelLog) (function : ChannelFunction) (cid : ChannelId) : ChannelLog :=
  match Channels.channelRef l.channels cid with
  | (channels, some t) => { l with channels := channels, uses := ⟨function, t.id⟩ :: l.uses }
  | (_, none) => l

/-- What `luac_load` returns. -/
def answered (l : ChannelLog) (function : ChannelFunction) (answer : Option ChannelId) :
    List (ChannelId × Option ChannelId) :=
  match function with
  | .load cid => l.loaded ++ [(cid, answer)]
  | _ => l.loaded

/-- `lua_pushchannel`, and the function it returns to. -/
def pushed (l : ChannelLog) (use : ChannelUse) : NewUserdata → Option ChannelLog
  | .pushed => some { l with
      handles := use.cid :: l.handles
      loaded := l.answered use.function (some use.cid) }
  | .null =>
      match use.function with
      | .new => l.freed use.cid
      | _ => some { l with loaded := l.answered use.function none }
  | .raised => some l

def step (l : ChannelLog) : ChannelLabel → Option ChannelLog
  | .new alloc => (Channels.channelNew l.channels alloc).map fun (channels, cid) =>
      -- a channel that was not inserted is not found either
      { l with
        channels := channels
        uses := if alloc then ⟨.channelNew, cid⟩ :: l.uses else l.uses
        issued := cid :: l.issued
        failed := if alloc then l.failed else cid :: l.failed }
  | .find cid =>
      if ⟨.channelNew, cid⟩ ∈ l.uses then
        match l.find cid with
        | some t => some { l with uses := ⟨.new, t.id⟩ :: l.uses.erase ⟨.channelNew, cid⟩ }
        | none => some { l with uses := l.uses.erase ⟨.channelNew, cid⟩ }
      else none
  | .connect cid => some (l.took .connect cid)
  | .load cid =>
      if cid ∈ l.carried then
        let l := { l with carried := l.carried.erase cid }
        if (l.find cid).isSome then some (l.took (.load cid) cid)
        else some { l with loaded := l.answered (.load cid) none }
      else none
  | .enter use =>
      if use.function.OnHandle ∧ use.cid ∈ l.handles then some (l.took use.function use.cid)
      else none
  | .gc cid =>
      if cid ∈ l.handles then
        let l := { l with handles := l.handles.erase cid }
        match l.find cid with
        | some t => some { l with uses := ⟨.destroy, t.id⟩ :: l.uses }
        | none => some l
      else none
  | .push use result =>
      if use.function.Pushes ∧ use ∈ l.uses then
        pushed { l with uses := l.uses.erase use } use result
      else none
  | .free use =>
      if use.function.Frees ∧ use ∈ l.uses then
        freed { l with uses := l.uses.erase use } use.cid
      else none
  | .raise use =>
      if use.function.Raises ∧ use ∈ l.uses then some { l with uses := l.uses.erase use } else none
  | .save cid => if cid ∈ l.handles then some { l with carried := cid :: l.carried } else none
  | .discard cid =>
      if cid ∈ l.carried then some { l with carried := l.carried.erase cid } else none

/-! ### What the locked sections do -/

/-- The table holds the channels `g`, and the ids are those issued. -/
structure Sound (l : ChannelLog) (g : ℕ → Option (Counted Unit)) : Prop where
  stores : l.channels.Stores g
  issued : ∀ cid ∈ l.issued, cid ≤ l.channels.next
  last : 0 < l.channels.next → l.channels.next ∈ l.issued
  next : l.channels.next ≤ maxDouble

variable {l l' : ChannelLog} {cid : ChannelId} {g : ℕ → Option (Counted Unit)}
  {t : Counted Unit} {alloc : Bool}

theorem start_sound : Sound start fun _ => none where
  stores := Table.start_stores
  issued := by simp [start]
  last := by simp [start, Channels.initChannel, Table.start]
  next := Nat.zero_le _

theorem Sound.find (h : Sound l g) (cid : ChannelId) : l.find cid = g cid := h.stores.find

theorem Sound.frame (h : Sound l g) (hchannels : l'.channels = l.channels)
    (hissued : l'.issued = l.issued) : Sound l' g where
  stores := by
    rw [hchannels]
    exact h.stores
  issued := by
    rw [hissued, hchannels]
    exact h.issued
  last := by
    rw [hissued, hchannels]
    exact h.last
  next := by
    rw [hchannels]
    exact h.next

theorem Sound.change (h : Sound l g) {g' : ℕ → Option (Counted Unit)}
    (hstores : l'.channels.Stores g') (hnext : l'.channels.next = l.channels.next)
    (hissued : l'.issued = l.issued) : Sound l' g' where
  stores := hstores
  issued := by
    rw [hissued, hnext]
    exact h.issued
  last := by
    rw [hissued, hnext]
    exact h.last
  next := by
    rw [hnext]
    exact h.next

theorem Sound.new (h : Sound l g) (hnext : l.channels.next < maxDouble)
    (hstep : step l (.new alloc) = some l') :
    ∃ channels cid, cid = l.channels.next + 1 ∧ g cid = none ∧ cid ∉ l.issued ∧
      l' = { l with
        channels := channels
        uses := if alloc then ⟨.channelNew, cid⟩ :: l.uses else l.uses
        issued := cid :: l.issued
        failed := if alloc then l.failed else cid :: l.failed } ∧
      Sound l' (if alloc then Function.update g cid (some ⟨cid, 1, ()⟩) else g) := by
  obtain ⟨⟨channels, cid⟩, hnew, heq⟩ := Option.map_eq_some_iff.mp hstep
  obtain ⟨⟨map, reply⟩, hcall, hpair⟩ := Option.map_eq_some_iff.mp hnew
  have hsucc : doubleSucc l.channels.next = l.channels.next + 1 := if_pos hnext
  rw [hsucc] at hcall hpair
  cases hpair
  obtain ⟨hnone, hstores⟩ := h.stores.insert hcall (l.channels.next + 1)
  refine ⟨⟨map, l.channels.next + 1⟩, l.channels.next + 1, rfl, hnone, ?_, heq.symm, ?_⟩
  · intro hmem
    exact absurd (h.issued _ hmem) (Nat.not_succ_le_self _)
  · rw [← heq]
    exact {
      stores := hstores
      issued := by
        intro cid hcid
        rcases List.mem_cons.mp hcid with rfl | hold
        · exact Nat.le_refl _
        · exact Nat.le_succ_of_le (h.issued cid hold)
      last := fun _ => List.mem_cons_self
      next := hnext }

theorem Sound.not_nodup_new (h : Sound l g) (hnext : ¬ l.channels.next < maxDouble)
    (hstep : step l (.new alloc) = some l') : ¬ l'.issued.Nodup := by
  intro hdistinct
  obtain ⟨⟨channels, cid⟩, hnew, rfl⟩ := Option.map_eq_some_iff.mp hstep
  obtain ⟨⟨map, reply⟩, _, heq⟩ := Option.map_eq_some_iff.mp hnew
  have hsame : doubleSucc l.channels.next = l.channels.next := if_neg hnext
  rw [hsame] at heq
  cases heq
  have hpos : 0 < l.channels.next := by
    simp only [maxDouble] at hnext
    omega
  exact (List.nodup_cons.mp hdistinct).1 (h.last hpos)

theorem Sound.took_none (h : Sound l g) (hg : g cid = none) (function : ChannelFunction) :
    l.took function cid = l := by
  rw [ChannelLog.took, Channels.channelRef, h.stores.ref_none hg]

theorem Sound.took_some (h : Sound l g) (hg : g cid = some t) (function : ChannelFunction) :
    ∃ channels, l.took function cid =
        { l with channels := channels, uses := ⟨function, cid⟩ :: l.uses } ∧
      Sound { l with channels := channels, uses := ⟨function, cid⟩ :: l.uses }
        (Function.update g cid (some { t with refCount := inc t.refCount })) := by
  obtain rfl : t.id = cid := h.stores.id_eq hg
  obtain ⟨channels, href, hnext, hstores⟩ := h.stores.ref_some hg
  refine ⟨channels, ?_, h.change hstores hnext rfl⟩
  rw [ChannelLog.took, Channels.channelRef, href]

theorem Sound.freed_none (h : Sound l g) (hg : g cid = none) : l.freed cid = some l := by
  simp [freed, Channels.channelFree, h.stores.free_none hg, ChannelLog.last]

theorem Sound.freed_some (h : Sound l g) (hg : g cid = some t) (hstep : l.freed cid = some l') :
    ∃ channels, l' = { l with
        channels := channels
        removed := l.removed ++ if dec t.refCount ≤ 0 then [(cid, dec t.refCount)] else [] } ∧
      Sound l' (Function.update g cid (afterFree t)) := by
  obtain ⟨⟨channels, removed⟩, hfree, heq⟩ := Option.map_eq_some_iff.mp hstep
  obtain ⟨hremoved, hnext, hstores⟩ := h.stores.free_some hg hfree
  have hlast : l.last cid removed =
      if dec t.refCount ≤ 0 then [(cid, dec t.refCount)] else [] := by
    simp only [ChannelLog.last, h.find, hg, hremoved, decide_eq_true_eq]
    rfl
  simp only [hlast] at heq
  refine ⟨channels, heq.symm, ?_⟩
  rw [← heq]
  exact h.change hstores hnext rfl

end ChannelLog

end Casting
