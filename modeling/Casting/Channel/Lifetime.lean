import Casting.Channel.Registry

/-!
# The lifetime of a channel

The table counts at least the references that handles and functions have, and no id is issued
twice, up to the largest reference count and the largest id.
-/

namespace Casting

open RefCount Transition Casting.Runtime

namespace ChannelLog

/-- A channel is in the table exactly while its reference count is positive, which is at least the
number of references to it; ids are distinct; and what is referred to is there. -/
structure Lifetime (l : ChannelLog) : Prop where
  counted : ∀ cid t, l.find cid = some t → (l.refs.count cid : ℤ) ≤ t.refCount
  positive : ∀ cid t, l.find cid = some t → 0 < t.refCount
  removed : ∀ d ∈ l.removed, d.2 ≤ 0
  there : ∀ cid ∈ l.issued,
    l.find cid ≠ none ∨ cid ∈ l.failed ∨ cid ∈ l.removed.map Prod.fst
  distinct : l.issued.Nodup
  alive : ∀ cid ∈ l.refs, l.find cid ≠ none

/-- `channel_ref` does not overflow the reference count. -/
def RefInRange (l : ChannelLog) (cid : ChannelId) : Prop :=
  ∀ t ∈ l.find cid, t.refCount < maxCount

/-- Ids stay exact, and no reference count overflows. -/
def InRange (l : ChannelLog) : ChannelLabel → Prop
  | .new _ => l.channels.next < maxDouble
  | .connect cid | .load cid => l.RefInRange cid
  | .enter use => l.RefInRange use.cid
  | _ => True

/-- The table counts the references of handles and functions, and those of `leaked`, which nobody
gives back. -/
structure Tracks (l : ChannelLog) (leaked : List ChannelId) (g : ℕ → Option (Counted Unit)) :
    Prop where
  sound : Sound l g
  refs : Refs (counts g) (leaked ++ l.refs)
  distinct : l.issued.Nodup
  there : ∀ cid ∈ l.issued, g cid ≠ none ∨ cid ∈ l.failed ∨ cid ∈ l.removed.map Prod.fst
  removed : ∀ d ∈ l.removed, d.2 ≤ 0

variable {l l' : ChannelLog} {leaked leaked' : List ChannelId} {cid : ChannelId}
  {g : ℕ → Option (Counted Unit)} {t : Counted Unit} {use : ChannelUse}

theorem start_tracks : Tracks start [] fun _ => none where
  sound := start_sound
  refs := refs_nil
  distinct := List.nodup_nil
  there := by simp [start]
  removed := by simp [start]

theorem Tracks.find (h : Tracks l leaked g) (cid : ChannelId) : l.find cid = g cid :=
  h.sound.find cid

theorem Tracks.not_mem (h : Tracks l leaked g) (hg : g cid = none) : cid ∉ leaked ++ l.refs := by
  apply h.refs.eq_none
  rw [counts, hg]
  rfl

theorem Tracks.refCount (h : Tracks l leaked g) (hg : g cid = some t) :
    cid ∈ leaked ++ l.refs ∧ t.refCount = (leaked ++ l.refs).count cid := by
  have hcount : counts g cid = some t.refCount := by rw [counts, hg]; rfl
  have hmem := h.refs.mem hcount
  exact ⟨hmem, Option.some.inj (hcount.symm.trans (h.refs.eq_some hmem))⟩

theorem Tracks.lifetime (h : Tracks l leaked g) : Lifetime l where
  counted cid t ht := by
    rw [h.find] at ht
    rw [(h.refCount ht).2, List.count_append]
    omega
  positive cid t ht := by
    rw [h.find] at ht
    obtain ⟨hmem, hcount⟩ := h.refCount ht
    rw [hcount]
    exact_mod_cast List.count_pos_iff.mpr hmem
  removed := h.removed
  there cid hcid := by
    rw [h.find]
    exact h.there cid hcid
  distinct := h.distinct
  alive cid hcid := by
    rw [h.find]
    intro hg
    exact h.not_mem hg (List.mem_append_right _ hcid)

theorem Tracks.handOver (h : Tracks l leaked g) (hchannels : l'.channels = l.channels)
    (hrefs : (leaked ++ l.refs).Perm (leaked' ++ l'.refs)) (hissued : l'.issued = l.issued)
    (hfailed : l'.failed = l.failed) (hremoved : l'.removed = l.removed) :
    Tracks l' leaked' g where
  sound := h.sound.frame hchannels hissued
  refs := h.refs.perm hrefs
  distinct := by
    rw [hissued]
    exact h.distinct
  there := by
    rw [hissued, hfailed, hremoved]
    exact h.there
  removed := by
    rw [hremoved]
    exact h.removed

/-! ### The locked sections -/

theorem perm_refs_cons (l : ChannelLog) (leaked : List ChannelId) (cid : ChannelId) :
    (cid :: (leaked ++ l.refs)).Perm
      (leaked ++ (l.handles ++ cid :: l.uses.map ChannelUse.cid)) :=
  List.perm_middle.symm.trans (List.perm_middle.symm.append_left leaked)

theorem Tracks.new (h : Tracks l leaked g) {alloc : Bool} (hnext : l.channels.next < maxDouble)
    (hstep : step l (.new alloc) = some l') : ∃ g', Tracks l' leaked g' := by
  obtain ⟨channels, cid, _, hnone, hfresh, rfl, hsound⟩ := h.sound.new hnext hstep
  refine ⟨_, hsound, ?_, List.nodup_cons.mpr ⟨hfresh, h.distinct⟩, ?_, h.removed⟩
  · cases alloc with
    | true =>
        rw [if_pos rfl, counts_update]
        exact (h.refs.add (h.not_mem hnone)).perm (l.perm_refs_cons leaked cid)
    | false => exact h.refs
  · intro other hother
    rcases List.mem_cons.mp hother with rfl | hold
    · cases alloc with
      | true =>
          left
          rw [if_pos rfl, Function.update_self]
          exact Option.some_ne_none _
      | false => exact .inr (.inl List.mem_cons_self)
    · have hne : other ≠ cid := fun heq => hfresh (heq ▸ hold)
      cases alloc with
      | true =>
          rw [if_pos rfl, Function.update_of_ne hne]
          exact h.there other hold
      | false =>
          rcases h.there other hold with hreg | hfailed | hremoved
          · exact .inl hreg
          · exact .inr (.inl (List.mem_cons_of_mem _ hfailed))
          · exact .inr (.inr hremoved)

theorem Tracks.took (h : Tracks l leaked g) (hrange : l.RefInRange cid)
    (function : ChannelFunction) : ∃ g', Tracks (l.took function cid) leaked g' := by
  cases hg : g cid with
  | none =>
      rw [h.sound.took_none hg]
      exact ⟨g, h⟩
  | some t =>
      obtain ⟨channels, htook, hsound⟩ := h.sound.took_some hg function
      have hmax : t.refCount < maxCount := hrange t (by rw [h.find, hg]; rfl)
      rw [htook]
      refine ⟨_, hsound, ?_, h.distinct, ?_, h.removed⟩
      · exact (refs_ref h.refs hg hmax).perm (l.perm_refs_cons leaked cid)
      · intro other hother
        by_cases hcid : other = cid
        · left
          rw [hcid, Function.update_self]
          exact Option.some_ne_none _
        · rw [Function.update_of_ne hcid]
          exact h.there other hother

theorem Tracks.freed (h : Tracks l (cid :: leaked) g) (hstep : l.freed cid = some l') :
    ∃ g', Tracks l' leaked g' := by
  cases hg : g cid with
  | none => exact absurd List.mem_cons_self (h.not_mem hg)
  | some t =>
      obtain ⟨channels, rfl, hsound⟩ := h.sound.freed_some hg hstep
      refine ⟨_, hsound, refs_free h.refs hg, h.distinct, ?_, ?_⟩
      · intro other hother
        by_cases hcid : other = cid
        · rw [hcid, Function.update_self]
          by_cases hpos : 0 < dec t.refCount
          · left
            rw [afterFree, if_pos hpos]
            exact Option.some_ne_none _
          · right
            right
            rw [if_pos (Int.not_lt.mp hpos)]
            simp
        · rw [Function.update_of_ne hcid]
          rcases h.there other hother with hreg | hfailed | hold
          · exact .inl hreg
          · exact .inr (.inl hfailed)
          · right
            right
            rw [List.map_append]
            exact List.mem_append_left _ hold
      · intro d hd
        rcases List.mem_append.mp hd with hold | hnew
        · exact h.removed d hold
        · split at hnew
          · rename_i hdec
            rw [List.mem_singleton.mp hnew]
            exact hdec
          · cases hnew

/-! ### References that are handed over -/

theorem refs_perm_erase (l : ChannelLog) (huse : use ∈ l.uses) :
    l.refs.Perm (use.cid :: (l.handles ++ (l.uses.erase use).map ChannelUse.cid)) :=
  (((List.perm_cons_erase huse).map ChannelUse.cid).append_left l.handles).trans
    List.perm_middle

theorem Tracks.leak (h : Tracks l leaked g) (huse : use ∈ l.uses) :
    Tracks { l with uses := l.uses.erase use } (use.cid :: leaked) g := by
  have hperm := ((l.refs_perm_erase huse).append_left leaked).trans List.perm_middle
  exact h.handOver rfl hperm rfl rfl rfl

theorem Tracks.find_step (h : Tracks l leaked g) (hstep : step l (.find cid) = some l') :
    ∃ leaked' g', Tracks l' leaked' g' := by
  simp only [step] at hstep
  split at hstep
  · rename_i huse
    cases hfind : l.find cid with
    | none =>
        rw [hfind] at hstep
        cases hstep
        exact ⟨_, g, h.leak huse⟩
    | some t =>
        rw [hfind] at hstep
        cases hstep
        rw [h.find] at hfind
        have hid : t.id = cid := h.sound.stores.id_eq hfind
        refine ⟨leaked, g, h.handOver rfl (List.Perm.append_left leaked ?_) rfl rfl rfl⟩
        simp only [hid]
        exact (l.refs_perm_erase huse).trans List.perm_middle.symm
  · cases hstep

theorem Tracks.gc (h : Tracks l leaked g) (hstep : step l (.gc cid) = some l') :
    ∃ leaked' g', Tracks l' leaked' g' := by
  simp only [step] at hstep
  split at hstep
  · rename_i hmem
    have hperm := (List.perm_cons_erase hmem).append_right (l.uses.map ChannelUse.cid)
    have hfound : ({ l with handles := l.handles.erase cid } : ChannelLog).find cid = g cid :=
      h.find cid
    cases hg : g cid with
    | none =>
        have hmem' : cid ∈ l.refs := List.mem_append_left _ hmem
        exact absurd (List.mem_append_right leaked hmem') (h.not_mem hg)
    | some t =>
        rw [hfound, hg] at hstep
        cases hstep
        have hid : t.id = cid := h.sound.stores.id_eq hg
        refine ⟨leaked, g, h.handOver rfl (List.Perm.append_left leaked ?_) rfl rfl rfl⟩
        simp only [hid]
        exact hperm.trans List.perm_middle.symm
  · cases hstep

theorem Tracks.push (h : Tracks l leaked g) {result : NewUserdata}
    (hstep : step l (.push use result) = some l') : ∃ leaked' g', Tracks l' leaked' g' := by
  simp only [step] at hstep
  split at hstep
  · rename_i hpush
    have hlost := h.leak hpush.2
    cases result with
    | pushed =>
        cases hstep
        refine ⟨leaked, g, h.handOver rfl (List.Perm.append_left leaked ?_) rfl rfl rfl⟩
        exact l.refs_perm_erase hpush.2
    | null =>
        simp only [pushed] at hstep
        split at hstep
        · exact ⟨leaked, hlost.freed hstep⟩
        · cases hstep
          exact ⟨_, g, hlost.handOver rfl (List.Perm.refl _) rfl rfl rfl⟩
    | raised =>
        cases hstep
        exact ⟨_, g, hlost⟩
  · cases hstep

theorem Tracks.sent (h : Tracks l leaked g) :
    Tracks { l with carried := l.carried.erase cid } leaked g :=
  h.handOver rfl (List.Perm.refl _) rfl rfl rfl

theorem Tracks.step (h : ∃ leaked g, Tracks l leaked g) {a : ChannelLabel}
    (hguard : InRange l a) (hstep : ChannelLog.step l a = some l') :
    ∃ leaked g, Tracks l' leaked g := by
  obtain ⟨leaked, g, h⟩ := h
  cases a with
  | new alloc => exact ⟨leaked, h.new hguard hstep⟩
  | find cid => exact h.find_step hstep
  | connect cid =>
      cases hstep
      exact ⟨leaked, h.took hguard .connect⟩
  | load cid =>
      simp only [ChannelLog.step] at hstep
      split at hstep
      · split at hstep <;> cases hstep
        · exact ⟨leaked, h.sent.took hguard (.load cid)⟩
        · exact ⟨leaked, g, h.handOver rfl (List.Perm.refl _) rfl rfl rfl⟩
      · cases hstep
  | enter use =>
      simp only [ChannelLog.step] at hstep
      split at hstep <;> cases hstep
      exact ⟨leaked, h.took hguard use.function⟩
  | gc cid => exact h.gc hstep
  | push use result => exact h.push hstep
  | free use =>
      simp only [ChannelLog.step] at hstep
      split at hstep
      · rename_i hfree
        exact ⟨leaked, (h.leak hfree.2).freed hstep⟩
      · cases hstep
  | raise use =>
      simp only [ChannelLog.step] at hstep
      split at hstep
      · rename_i hraise
        cases hstep
        exact ⟨_, g, h.leak hraise.2⟩
      · cases hstep
  | save cid | discard cid =>
      simp only [ChannelLog.step] at hstep
      split at hstep <;> cases hstep
      exact ⟨leaked, g, h.handOver rfl (List.Perm.refl _) rfl rfl rfl⟩

/-! ### Runs -/

theorem Tracks.refCount_le (h : Tracks l leaked g) (hg : g cid = some t) :
    t.refCount ≤ maxCount := by
  rw [(h.refCount hg).2]
  exact_mod_cast (h.refs cid).2

theorem Tracks.not_lifetime_took (h : Tracks l leaked g) (hrange : ¬ l.RefInRange cid)
    (function : ChannelFunction) : ¬ Lifetime (l.took function cid) := by
  intro hlife
  simp only [RefInRange, not_forall, not_lt, h.find] at hrange
  obtain ⟨t, hg, hmax⟩ := hrange
  have hcount : t.refCount = maxCount := le_antisymm (h.refCount_le hg) hmax
  obtain ⟨channels, htook, hsound⟩ := h.sound.took_some hg function
  have hfind := hsound.find cid
  rw [Function.update_self] at hfind
  rw [htook] at hlife
  have hpos : 0 < inc t.refCount := hlife.positive cid _ hfind
  rw [hcount, inc_max] at hpos
  omega

theorem Tracks.lifetime_iff_inRange (h : Tracks l leaked g) {a : ChannelLabel}
    (hstep : ChannelLog.step l a = some l') : Lifetime l' ↔ InRange l a := by
  constructor
  · intro hlife
    by_contra hrange
    cases a with
    | new alloc => exact h.sound.not_nodup_new hrange hstep hlife.distinct
    | connect cid =>
        cases hstep
        exact h.not_lifetime_took hrange .connect hlife
    | load cid =>
        simp only [ChannelLog.step] at hstep
        split at hstep
        · split at hstep <;> cases hstep
          · exact h.sent.not_lifetime_took hrange (.load cid) hlife
          · rename_i hnone
            apply hrange
            intro t ht
            exact absurd (Option.isSome_of_mem ht) hnone
        · cases hstep
    | enter use =>
        simp only [ChannelLog.step] at hstep
        split at hstep <;> cases hstep
        exact h.not_lifetime_took hrange use.function hlife
    | _ => exact hrange trivial
  · intro hrange
    obtain ⟨_, _, h'⟩ := Tracks.step ⟨leaked, g, h⟩ hrange hstep
    exact h'.lifetime

/-- Channels live as long as they are referred to, exactly in the runs in which ids stay exact and
no reference count overflows. -/
theorem lifetime_throughout_iff (as : List ChannelLabel) :
    Throughout ChannelLog.step Lifetime start as ↔ Respects ChannelLog.step InRange start as := by
  apply throughout_iff_respects (I := fun l _ => ∃ leaked g, Tracks l leaked g)
  · intro l a as next h hguard hstep
    exact Tracks.step h hguard hstep
  · intro l a as next ⟨leaked, g, h⟩ _ hstep
    exact h.lifetime_iff_inRange hstep
  · exact ⟨_, _, start_tracks⟩
  · exact start_tracks.lifetime

/-- Writes that get the channel and then raise an error. -/
def failedWrites (cid : ChannelId) : ℕ → List ChannelLabel
  | 0 => []
  | n + 1 => .enter ⟨.write, cid⟩ :: .raise ⟨.write, cid⟩ :: failedWrites cid n

/-- Each of them leaves a reference behind. -/
theorem Tracks.failedWrites_le (h : Tracks l leaked g) (hhandle : cid ∈ l.handles)
    (hg : g cid = some t) {n : ℕ}
    (hrange : Respects ChannelLog.step InRange l (failedWrites cid n)) :
    t.refCount + n ≤ maxCount := by
  induction n generalizing l leaked g t with
  | zero =>
      rw [Nat.cast_zero, add_zero]
      exact h.refCount_le hg
  | succ n ih =>
      obtain ⟨channels, htook, hsound⟩ := h.sound.took_some hg .write
      have hfind := hsound.find cid
      rw [Function.update_self] at hfind
      have henter : ChannelLog.step l (.enter ⟨.write, cid⟩) = some (l.took .write cid) :=
        if_pos ⟨rfl, hhandle⟩
      obtain ⟨hmax, hrest⟩ := hrange _ henter
      obtain ⟨leaked₁, g₁, h₁⟩ := Tracks.step ⟨leaked, g, h⟩ hmax henter
      have hlt : t.refCount < maxCount := hmax t (by rw [h.find, hg]; rfl)
      rw [htook] at h₁ hrest
      have hraise : ChannelLog.step
          { l with channels := channels, uses := ⟨.write, cid⟩ :: l.uses }
          (.raise ⟨.write, cid⟩) = some { l with channels := channels } := by
        simp [ChannelLog.step, ChannelFunction.Raises]
      obtain ⟨_, hrest⟩ := hrest _ hraise
      obtain ⟨leaked₂, g₂, h₂⟩ := Tracks.step (a := .raise ⟨.write, cid⟩)
        ⟨leaked₁, g₁, h₁⟩ trivial hraise
      have hg₂ : g₂ cid = some { t with refCount := inc t.refCount } := by
        rw [← h₂.find]
        exact hfind
      have hle := ih h₂ hhandle hg₂ hrest
      have hinc : inc t.refCount = t.refCount + 1 := by
        rw [(h.refCount hg).2] at hlt ⊢
        rw [inc_of_lt (by exact_mod_cast hlt)]
        push_cast
        rfl
      simp only [hinc] at hle
      push_cast
      omega

def oneHandle : ChannelLog :=
  { start with
    channels := ⟨⟨.node 1 .nil ⟨1, 1, ()⟩ .nil, cmpIds fun n => n, some .ok, 1⟩, 1⟩
    handles := [1]
    issued := [1] }

theorem run_oneHandle :
    run ChannelLog.step start [.new true, .find 1, .push ⟨.new, 1⟩ .pushed] = some oneHandle := rfl

/-- After enough writes that raise an error the reference count overflows. -/
theorem lifetime_fails : ¬ ∀ as, Throughout ChannelLog.step Lifetime start as := by
  intro hall
  have hrespects := (lifetime_throughout_iff _).mp
    (hall ([.new true, .find 1, .push ⟨.new, 1⟩ .pushed] ++ failedWrites 1 maxCount))
  obtain ⟨hfirst, hwrites⟩ := hrespects.append run_oneHandle
  obtain ⟨leaked, g, h⟩ := hfirst.run_invariant
    (fun _ _ _ h hguard hstep => Tracks.step h hguard hstep) ⟨_, _, start_tracks⟩ run_oneHandle
  have hg : g 1 = some ⟨1, 1, ()⟩ := by
    rw [← h.find]
    rfl
  have hle := h.failedWrites_le List.mem_cons_self hg hwrites
  simp only [maxCount] at hle
  omega

end ChannelLog

end Casting
