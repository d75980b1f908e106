import Casting.Channel.Registry

/-!
# Channel handles in messages

A message keeps the id of a channel but no reference to it, so that the channel lives on only while
somebody else has one.
-/

namespace Casting

open RefCount Transition Casting.Runtime

namespace ChannelLog

/-- The channels that messages carry are in the table, every `luac_load` that has returned pushed a
handle of the channel that was saved, and no other channel has its id. -/
structure Survives (l : ChannelLog) : Prop where
  there : ∀ cid ∈ l.carried, l.find cid ≠ none
  loaded : ∀ a ∈ l.loaded, a.2 = some a.1
  distinct : l.issued.Nodup

instance : DecidablePred Survives := fun l =>
  decidable_of_iff ((∀ cid ∈ l.carried, l.find cid ≠ none) ∧ (∀ a ∈ l.loaded, a.2 = some a.1) ∧
      l.issued.Nodup)
    ⟨fun h => ⟨h.1, h.2.1, h.2.2⟩, fun h => ⟨h.there, h.loaded, h.distinct⟩⟩

/-- `channel_free` does not give back the last reference to a channel that a message carries. -/
def KeepsCarried (l : ChannelLog) (cid : ChannelId) : Prop :=
  cid ∈ l.carried → ∀ t ∈ l.find cid, 0 < dec t.refCount

/-- What `lua_pushchannel` may do when it gets no userdata. -/
def KeepsUnpushed (l : ChannelLog) (use : ChannelUse) : Prop :=
  match use.function with
  | .new => l.KeepsCarried use.cid
  | .load _ => False
  | _ => True

/-- Handles that are saved have their channel in the table, the channels of messages are not
destroyed, `luac_load` can allocate a handle, and ids stay exact. -/
def KeepsSent (l : ChannelLog) : ChannelLabel → Prop
  | .new _ => l.channels.next < maxDouble
  | .push use .null => l.KeepsUnpushed use
  | .free use => l.KeepsCarried use.cid
  | .save cid => l.find cid ≠ none
  | _ => True

/-- A function that loads a channel has found the one it was asked for. -/
def LoadsRight (l : ChannelLog) : Prop :=
  ∀ use ∈ l.uses, ∀ cid, use.function = .load cid → use.cid = cid

variable {l l' : ChannelLog} {cid : ChannelId} {g : ℕ → Option (Counted Unit)}
  {use : ChannelUse}

theorem start_survives : Survives start := by decide

/-! ### The functions that load -/

/-- The table is sound, and so are the functions that load. -/
def Loading (l : ChannelLog) : Prop := (∃ g, Sound l g) ∧ LoadsRight l

theorem Loading.frame (h : Loading l) (hchannels : l'.channels = l.channels)
    (hissued : l'.issued = l.issued)
    (huses : ∀ use ∈ l'.uses, use ∈ l.uses ∨ ∀ cid, use.function ≠ .load cid) : Loading l' := by
  obtain ⟨⟨g, hsound⟩, hload⟩ := h
  refine ⟨⟨g, hsound.frame hchannels hissued⟩, fun use huse cid hfunction => ?_⟩
  rcases huses use huse with hold | hnew
  · exact hload use hold cid hfunction
  · exact absurd hfunction (hnew cid)

theorem Loading.erase (h : Loading l) (use : ChannelUse) :
    Loading { l with uses := l.uses.erase use } :=
  h.frame rfl rfl fun _ hother => .inl (List.mem_of_mem_erase hother)

theorem Loading.took (h : Loading l) {function : ChannelFunction}
    (hfunction : ∀ asked, function = .load asked → cid = asked) :
    Loading (l.took function cid) := by
  obtain ⟨⟨g, hsound⟩, hload⟩ := h
  cases hg : g cid with
  | none =>
      rw [hsound.took_none hg]
      exact ⟨⟨g, hsound⟩, hload⟩
  | some t =>
      obtain ⟨channels, htook, hnext⟩ := hsound.took_some hg function
      rw [htook]
      refine ⟨⟨_, hnext⟩, fun use huse => ?_⟩
      rcases List.mem_cons.mp huse with rfl | hold
      · exact hfunction
      · exact hload use hold

theorem Loading.freed (h : Loading l) (hstep : l.freed cid = some l') : Loading l' := by
  obtain ⟨⟨g, hsound⟩, hload⟩ := h
  cases hg : g cid with
  | none =>
      rw [hsound.freed_none hg] at hstep
      cases hstep
      exact ⟨⟨g, hsound⟩, hload⟩
  | some t =>
      obtain ⟨channels, rfl, hnext⟩ := hsound.freed_some hg hstep
      exact ⟨⟨_, hnext⟩, hload⟩

theorem Loading.new (h : Loading l) {alloc : Bool} (hnext : l.channels.next < maxDouble)
    (hstep : step l (.new alloc) = some l') : Loading l' := by
  obtain ⟨⟨g, hsound⟩, hload⟩ := h
  obtain ⟨channels, cid, _, _, _, rfl, hsound'⟩ := hsound.new hnext hstep
  refine ⟨⟨_, hsound'⟩, ?_⟩
  cases alloc with
  | true =>
      intro use huse
      rcases List.mem_cons.mp huse with rfl | hold
      · rintro asked ⟨⟩
      · exact hload use hold
  | false => exact hload

theorem Loading.cons (h : Loading l) (huse : ∀ cid, use.function ≠ .load cid) :
    Loading { l with uses := use :: l.uses } := by
  refine h.frame rfl rfl fun other hother => ?_
  rcases List.mem_cons.mp hother with rfl | hold
  · exact .inr huse
  · exact .inl hold

/-! ### What becomes of the channels that messages carry -/

theorem Survives.keep (h : Survives l) (hcarried : l'.carried ⊆ l.carried)
    (hthere : ∀ cid ∈ l'.carried, l.find cid ≠ none → l'.find cid ≠ none)
    (hloaded : l'.loaded = l.loaded) (hissued : l'.issued = l.issued) : Survives l' where
  there cid hcid := hthere cid hcid (h.there cid (hcarried hcid))
  loaded := by
    rw [hloaded]
    exact h.loaded
  distinct := by
    rw [hissued]
    exact h.distinct

theorem Survives.frame (h : Survives l) (hchannels : l'.channels = l.channels)
    (hcarried : l'.carried ⊆ l.carried) (hloaded : l'.loaded = l.loaded)
    (hissued : l'.issued = l.issued) : Survives l' := by
  refine h.keep hcarried (fun cid _ hthere => ?_) hloaded hissued
  rw [find, hchannels]
  exact hthere

theorem Survives.took (h : Survives l) (hsound : Sound l g) (function : ChannelFunction) :
    Survives (l.took function cid) := by
  cases hg : g cid with
  | none =>
      rw [hsound.took_none hg]
      exact h
  | some t =>
      obtain ⟨channels, htook, hnext⟩ := hsound.took_some hg function
      rw [htook]
      refine h.keep (List.Subset.refl _) (fun other _ hthere => ?_) rfl rfl
      rw [hnext.find]
      rw [hsound.find] at hthere
      by_cases hother : other = cid
      · rw [hother, Function.update_self]
        exact Option.some_ne_none _
      · rw [Function.update_of_ne hother]
        exact hthere

/-- `channel_free` keeps the channels of messages exactly if it keeps this one. -/
theorem Survives.freed_iff (h : Survives l) (hsound : Sound l g)
    (hstep : l.freed cid = some l') : Survives l' ↔ l.KeepsCarried cid := by
  cases hg : g cid with
  | none =>
      rw [hsound.freed_none hg] at hstep
      cases hstep
      apply iff_of_true h
      intro _ t ht
      rw [hsound.find, hg] at ht
      cases ht
  | some t =>
      obtain ⟨channels, rfl, hnext⟩ := hsound.freed_some hg hstep
      constructor
      · intro hsurvives hcarried t' ht
        rw [hsound.find, hg] at ht
        cases ht
        have hthere := hsurvives.there cid hcarried
        rw [hnext.find, Function.update_self, afterFree] at hthere
        by_contra hlast
        exact hthere (if_neg hlast)
      · intro hkeeps
        refine h.keep (List.Subset.refl _) (fun other hcarried hthere => ?_) rfl rfl
        rw [hnext.find]
        by_cases hother : other = cid
        · subst hother
          have hpos := hkeeps hcarried t (by rw [hsound.find, hg]; rfl)
          rw [Function.update_self, afterFree, if_pos hpos]
          exact Option.some_ne_none _
        · rw [Function.update_of_ne hother]
          rw [hsound.find] at hthere
          exact hthere

theorem Survives.new (h : Survives l) (hsound : Sound l g) {alloc : Bool}
    (hnext : l.channels.next < maxDouble) (hstep : step l (.new alloc) = some l') :
    Survives l' := by
  obtain ⟨channels, cid, _, hnone, hfresh, rfl, hsound'⟩ := hsound.new hnext hstep
  have hdistinct := List.nodup_cons.mpr ⟨hfresh, h.distinct⟩
  refine ⟨fun other hother => ?_, h.loaded, hdistinct⟩
  have hthere := h.there other hother
  rw [hsound.find] at hthere
  rw [hsound'.find]
  cases alloc with
  | true =>
      have hne : other ≠ cid := fun heq => hthere (heq ▸ hnone)
      rw [if_pos rfl, Function.update_of_ne hne]
      exact hthere
  | false => exact hthere

theorem Survives.load (h : Survives l) (hsound : Sound l g)
    (hstep : step l (.load cid) = some l') : Survives l' := by
  simp only [step] at hstep
  split at hstep
  · rename_i hmem
    have hsent : Survives { l with carried := l.carried.erase cid } :=
      h.frame rfl List.erase_subset rfl rfl
    have hsound' : Sound { l with carried := l.carried.erase cid } g := hsound.frame rfl rfl
    split at hstep <;> cases hstep
    · exact hsent.took hsound' (.load cid)
    · rename_i hnone
      exact absurd (Option.isSome_iff_ne_none.mpr (h.there cid hmem)) hnone
  · cases hstep

theorem Survives.pushed_iff (h : Survives l) (hsound : Sound l g) (hload : LoadsRight l)
    {result : NewUserdata} (hstep : step l (.push use result) = some l') :
    Survives l' ↔ KeepsSent l (.push use result) := by
  simp only [step] at hstep
  split at hstep
  · rename_i hpush
    have hwithout : Survives { l with uses := l.uses.erase use } :=
      h.frame rfl (List.Subset.refl _) rfl rfl
    have hanswer : ∀ answer, Survives { l with
        uses := l.uses.erase use
        loaded := l.answered use.function answer } ↔
          ∀ asked, use.function = .load asked → answer = some asked := by
      intro answer
      constructor
      · intro hsurvives asked hasked
        apply hsurvives.loaded (asked, answer)
        simp only [answered, hasked]
        exact List.mem_append_right _ List.mem_cons_self
      · intro hright
        refine ⟨hwithout.there, fun a ha => ?_, h.distinct⟩
        cases hfunction : use.function with
        | load asked =>
            simp only [answered, hfunction] at ha
            rcases List.mem_append.mp ha with hold | hnew
            · exact h.loaded a hold
            · rw [List.mem_singleton.mp hnew]
              exact hright asked hfunction
        | _ =>
            simp only [answered, hfunction] at ha
            exact h.loaded a ha
    cases result with
    | pushed =>
        cases hstep
        refine iff_of_true ?_ trivial
        have hright := (hanswer (some use.cid)).mpr fun asked hasked =>
          congrArg some (hload use hpush.2 asked hasked)
        exact ⟨hright.there, hright.loaded, hright.distinct⟩
    | null =>
        have hkeeps : KeepsSent l (.push use .null) ↔ l.KeepsUnpushed use := Iff.rfl
        rw [hkeeps, KeepsUnpushed]
        simp only [pushed] at hstep
        cases hfunction : use.function with
        | new =>
            rw [hfunction] at hstep
            exact hwithout.freed_iff (hsound.frame rfl rfl) hstep
        | load asked =>
            simp only [hfunction] at hstep
            cases hstep
            apply iff_of_false _ not_false
            intro hsurvives
            rw [← hfunction] at hsurvives
            have hnone := (hanswer none).mp hsurvives asked hfunction
            cases hnone
        | _ =>
            simp only [hfunction] at hstep
            cases hstep
            exact iff_of_true hwithout trivial
    | raised =>
        cases hstep
        exact iff_of_true hwithout trivial
  · cases hstep

/-! ### Runs -/

theorem Loading.step (h : Loading l) {a : ChannelLabel} (hkeeps : KeepsSent l a)
    (hstep : ChannelLog.step l a = some l') : Loading l' := by
  cases a with
  | new alloc => exact h.new hkeeps hstep
  | find cid =>
      simp only [ChannelLog.step] at hstep
      split at hstep
      · split at hstep <;> cases hstep
        · exact (h.erase _).cons fun cid => nofun
        · exact h.erase _
      · cases hstep
  | connect cid =>
      cases hstep
      exact h.took fun asked => nofun
  | load cid =>
      have hsent : Loading { l with carried := l.carried.erase cid } :=
        h.frame rfl rfl fun _ hold => .inl hold
      simp only [ChannelLog.step] at hstep
      split at hstep
      · split at hstep <;> cases hstep
        · apply hsent.took
          rintro asked ⟨⟩
          rfl
        · exact h.frame rfl rfl fun _ hold => .inl hold
      · cases hstep
  | enter use =>
      simp only [ChannelLog.step] at hstep
      split at hstep <;> cases hstep
      rename_i honHandle
      apply h.took
      intro asked hasked
      rw [hasked] at honHandle
      cases honHandle.1
  | gc cid =>
      have hgone : Loading { l with handles := l.handles.erase cid } :=
        h.frame rfl rfl fun _ hold => .inl hold
      simp only [ChannelLog.step] at hstep
      split at hstep
      · split at hstep <;> cases hstep
        · exact hgone.cons fun cid => nofun
        · exact hgone
      · cases hstep
  | push use result =>
      simp only [ChannelLog.step] at hstep
      split at hstep
      · cases result with
        | pushed =>
            cases hstep
            exact (h.erase use).frame rfl rfl fun _ hold => .inl hold
        | null =>
            simp only [pushed] at hstep
            split at hstep
            · exact (h.erase use).freed hstep
            · cases hstep
              exact (h.erase use).frame rfl rfl fun _ hold => .inl hold
        | raised =>
            cases hstep
            exact h.erase use
      · cases hstep
  | free use =>
      simp only [ChannelLog.step] at hstep
      split at hstep
      · exact (h.erase use).freed hstep
      · cases hstep
  | raise use =>
      simp only [ChannelLog.step] at hstep
      split at hstep <;> cases hstep
      exact h.erase use
  | save cid | discard cid =>
      simp only [ChannelLog.step] at hstep
      split at hstep <;> cases hstep
      exact h.frame rfl rfl fun _ hold => .inl hold

theorem Survives.step_iff (h : Survives l) (hsound : Sound l g) (hload : LoadsRight l)
    {a : ChannelLabel} (hstep : step l a = some l') : Survives l' ↔ KeepsSent l a := by
  cases a with
  | new alloc =>
      constructor
      · intro hsurvives
        by_contra hnext
        exact hsound.not_nodup_new hnext hstep hsurvives.distinct
      · intro hnext
        exact h.new hsound hnext hstep
  | find cid =>
      simp only [step] at hstep
      split at hstep
      · split at hstep <;> cases hstep <;>
          exact iff_of_true (h.frame rfl (List.Subset.refl _) rfl rfl) trivial
      · cases hstep
  | connect cid =>
      cases hstep
      exact iff_of_true (h.took hsound .connect) trivial
  | load cid => exact iff_of_true (h.load hsound hstep) trivial
  | enter use =>
      simp only [step] at hstep
      split at hstep <;> cases hstep
      exact iff_of_true (h.took hsound use.function) trivial
  | gc cid =>
      simp only [step] at hstep
      split at hstep
      · split at hstep <;> cases hstep <;>
          exact iff_of_true (h.frame rfl (List.Subset.refl _) rfl rfl) trivial
      · cases hstep
  | push use result => exact h.pushed_iff hsound hload hstep
  | free use =>
      simp only [step] at hstep
      split at hstep
      · have hwithout : Survives { l with uses := l.uses.erase use } :=
          h.frame rfl (List.Subset.refl _) rfl rfl
        exact hwithout.freed_iff (hsound.frame rfl rfl) hstep
      · cases hstep
  | raise use =>
      simp only [step] at hstep
      split at hstep <;> cases hstep
      exact iff_of_true (h.frame rfl (List.Subset.refl _) rfl rfl) trivial
  | save cid =>
      simp only [step] at hstep
      split at hstep <;> cases hstep
      constructor
      · intro hsurvives
        exact hsurvives.there cid List.mem_cons_self
      · intro hthere
        refine ⟨fun other hother => ?_, h.loaded, h.distinct⟩
        rcases List.mem_cons.mp hother with rfl | hold
        · exact hthere
        · exact h.there other hold
  | discard cid =>
      simp only [step] at hstep
      split at hstep <;> cases hstep
      exact iff_of_true (h.frame rfl List.erase_subset rfl rfl) trivial

/-- A channel handle survives being sent, exactly in the runs in which nobody gives back the last
reference to a channel that a message carries, channels that are saved are there, `luac_load` can
allocate a handle, and ids stay exact. -/
theorem survives_throughout_iff (as : List ChannelLabel) :
    Throughout ChannelLog.step Survives start as ↔
      Respects ChannelLog.step KeepsSent start as := by
  apply throughout_iff_respects (I := fun l _ => Loading l)
  · intro l a as next h hkeeps hstep
    exact h.step hkeeps hstep
  · intro l a as next ⟨⟨g, hsound⟩, hload⟩ hsurvives hstep
    exact hsurvives.step_iff hsound hload hstep
  · exact ⟨⟨_, start_sound⟩, by simp [start, LoadsRight]⟩
  · exact start_survives

/-- The handle of the sender is collected before the message is decoded. -/
theorem survives_fails : ¬ ∀ as, Throughout ChannelLog.step Survives start as := by
  intro hall
  have hrun := hall [.new true, .find 1, .push ⟨.new, 1⟩ .pushed, .save 1, .gc 1,
    .free ⟨.destroy, 1⟩, .load 1]
  revert hrun
  decide

end ChannelLog

end Casting
