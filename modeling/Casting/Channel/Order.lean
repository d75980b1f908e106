import Casting.Channel.History
import Mathlib.Data.List.Sublists
import Mathlib.Data.List.Nodup

/-!
# First in, first out

Order is spread over two queues: reads drain `messages` and, in the same calls, `writers`.  What
reads alone would still hand over from a state is `deliverable`: the buffer, followed by the
parked messages that outlast it.  A write enters the buffer ahead of a parked message that will
be handed over later exactly when the buffer has room and more than one writer outlasts it.
-/

namespace Casting

open Transition

variable {κ μ : Type*}

/-- `a` occurs in `l` before `b`. -/
def Precedes (l : List μ) (a b : μ) : Prop := List.Sublist [a, b] l

theorem precedes_or_precedes {l : List μ} {a b : μ} (ha : a ∈ l) (hb : b ∈ l) (hne : a ≠ b) :
    Precedes l a b ∨ Precedes l b a := by
  induction l with
  | nil => simp at ha
  | cons x l ih =>
      rcases List.mem_cons.mp ha with rfl | ha'
      · have hbl : b ∈ l := (List.mem_cons.mp hb).resolve_left (Ne.symm hne)
        exact .inl (List.Sublist.cons_cons a (List.singleton_sublist.mpr hbl))
      · rcases List.mem_cons.mp hb with rfl | hb
        · exact .inr (List.Sublist.cons_cons b (List.singleton_sublist.mpr ha'))
        · exact (ih ha' hb).imp (List.Sublist.cons x) (List.Sublist.cons x)

theorem precedes_asymm {l : List μ} (hl : l.Nodup) {a b : μ} (hab : Precedes l a b) :
    ¬ Precedes l b a := by
  intro hba
  induction l with
  | nil => simp [Precedes] at hab
  | cons x l ih =>
      have hx : x ∉ l := (List.nodup_cons.mp hl).1
      cases hab with
      | cons _ hab =>
          cases hba with
          | cons _ hba => exact ih (List.nodup_cons.mp hl).2 hab hba
          | cons_cons _ hba => exact hx (hab.subset (by simp))
      | cons_cons _ hb =>
          cases hba with
          | cons _ hba => exact hx (hba.subset (by simp))
          | cons_cons _ _ => exact hx (hb.subset (by simp))

theorem precedes_append {l₁ l₂ : List μ} {a b : μ} (ha : a ∈ l₁) (hb : b ∈ l₂) :
    Precedes (l₁ ++ l₂) a b :=
  (List.singleton_sublist.mpr ha).append (List.singleton_sublist.mpr hb)

namespace History

/-- If `a` was written before `b` and both have been handed over, `a` was handed over first. -/
def FirstInFirstOut (h : History κ μ) : Prop :=
  ∀ a b, Precedes h.written a b → a ∈ h.handed → b ∈ h.handed → Precedes h.handed a b

/-- The order holds now and will still hold however many reads follow. -/
def DrainsInOrder (h : History κ μ) : Prop :=
  ∀ cbs : List κ, ∀ final, run call h (cbs.map .read) = some final → final.FirstInFirstOut

/-- The call is not a `channel_write` that finds room in the buffer while more than one of the
parked writers outlasts the buffered messages. -/
def WriteKeepsOrder (h : History κ μ) : Call κ μ → Prop
  | .write _ _ => h.channel.messages.length < h.channel.bufSize →
      h.channel.writers.length ≤ h.channel.messages.length + 1
  | .read _ => True

instance (h : History κ μ) (c : Call κ μ) : Decidable (h.WriteKeepsOrder c) :=
  match c with
  | .write _ _ => inferInstanceAs (Decidable (h.channel.messages.length < h.channel.bufSize →
      h.channel.writers.length ≤ h.channel.messages.length + 1))
  | .read _ => .isTrue trivial

/-- What reads alone would hand over from here on. -/
def deliverable (h : History κ μ) : List μ := h.buffered ++ h.parked.drop h.buffered.length

theorem call_read_deliverable {h next : History κ μ} (hk : Kept h) {cb : κ}
    (hcall : h.call (.read cb) = some next) :
    next.handed ++ next.deliverable = h.handed ++ h.deliverable := by
  obtain ⟨_, hnext, _, _, _, hb, hp, hh⟩ := call_read hk cb
  obtain rfl := Option.some.inj (hcall.symm.trans hnext)
  rw [deliverable, deliverable, hh, hb, hp]
  cases hbuf : h.buffered with
  | nil => cases h.parked <;> simp
  | cons b bs => simp [List.drop_tail]

theorem drain_hands_over {h : History κ μ} (hk : Kept h) (cb : κ) (n : Nat)
    (hn : h.deliverable.length ≤ n) :
    ∃ final, run call h ((List.replicate n cb).map .read) = some final ∧
      final.written = h.written ∧ final.handed = h.handed ++ h.deliverable := by
  induction n generalizing h with
  | zero =>
      have hnone : h.deliverable = [] := List.length_eq_zero_iff.mp (Nat.le_zero.mp hn)
      exact ⟨h, rfl, rfl, by simp [hnone]⟩
  | succ n ih =>
      obtain ⟨next, hnext, hkept, _, hwritten, hb, hp, hh⟩ := call_read hk cb
      have hsame := call_read_deliverable hk hnext
      have hless : next.deliverable.length ≤ n := by
        have hlen := congrArg List.length hsame
        simp only [List.length_append, hh] at hlen
        have hhead : h.deliverable ≠ [] → (h.buffered ++ h.parked).head?.toList.length = 1 := by
          unfold deliverable
          cases h.buffered <;> cases h.parked <;> simp
        by_cases hd : h.deliverable = []
        · simp only [hd, List.length_nil] at hlen
          omega
        · have := hhead hd
          omega
      obtain ⟨final, hrun, hw, hfinal⟩ := ih hkept hless
      refine ⟨final, ?_, hw.trans hwritten, hfinal.trans hsame⟩
      exact run_cons_eq_some.mpr ⟨next, hnext, hrun⟩

/-- What the order argument carries along. -/
structure Ordered (h : History κ μ) (calls : List (Call κ μ)) : Prop where
  kept : Kept h
  distinct : (h.written ++ messagesOf calls).Nodup
  wrote : ∀ m, m ∈ h.buffered ∨ m ∈ h.parked → m ∈ h.written
  due : List.Sublist (h.handed ++ h.deliverable) h.written

theorem ordered_fifo {h : History κ μ} {calls : List (Call κ μ)} (ho : Ordered h calls) :
    h.FirstInFirstOut := by
  intro a b hab ha hb
  have hnd : h.written.Nodup := (List.nodup_append.mp ho.distinct).1
  have hne : a ≠ b := by
    intro heq
    have htwo := hab.nodup hnd
    simp [heq] at htwo
  rcases precedes_or_precedes ha hb hne with h₁ | h₂
  · exact h₁
  · have hsub : List.Sublist h.handed h.written := (List.sublist_append_left _ _).trans ho.due
    exact absurd (h₂.trans hsub) (precedes_asymm hnd hab)

theorem ordered_read {h next : History κ μ} {cb : κ} {calls : List (Call κ μ)}
    (ho : Ordered h (.read cb :: calls)) (hcall : h.call (.read cb) = some next) :
    Ordered next calls := by
  have hsame := call_read_deliverable ho.kept hcall
  obtain ⟨_, hnext, hkept, _, hwritten, hb, hp, _⟩ := call_read ho.kept cb
  obtain rfl := Option.some.inj (hcall.symm.trans hnext)
  refine ⟨hkept, ?_, ?_, ?_⟩
  · rw [hwritten]
    exact ho.distinct
  · rw [hwritten, hb, hp]
    intro m hm
    exact ho.wrote m (hm.imp List.mem_of_mem_tail List.mem_of_mem_tail)
  · rw [hsame, hwritten]
    exact ho.due

theorem ordered_drains {h : History κ μ} {calls : List (Call κ μ)} (ho : Ordered h calls) :
    h.DrainsInOrder := by
  have hnd : (h.written ++ messagesOf ([] : List (Call κ μ))).Nodup := by
    simpa [messagesOf] using (List.nodup_append.mp ho.distinct).1
  have ho' : Ordered h [] := ⟨ho.kept, hnd, ho.wrote, ho.due⟩
  intro cbs final hrun
  clear ho hnd
  induction cbs generalizing h with
  | nil =>
      cases hrun
      exact ordered_fifo ho'
  | cons cb cbs ih =>
      obtain ⟨next, hnext, hrest⟩ := run_cons_eq_some.mp hrun
      have hread : Ordered h [Call.read cb] := ⟨ho'.kept, ho'.distinct, ho'.wrote, ho'.due⟩
      exact ih (ordered_read hread hnext) hrest

theorem ordered_write {h next : History κ μ} {message : μ} {cb : κ} {calls : List (Call κ μ)}
    (ho : Ordered h (.write message cb :: calls)) (hguard : h.WriteKeepsOrder (.write message cb))
    (hcall : h.call (.write message cb) = some next) : Ordered next calls := by
  obtain ⟨_, hnext, hkept, _, hwritten, hcases⟩ := call_write ho.kept message cb
  obtain rfl := Option.some.inj (hcall.symm.trans hnext)
  have hsub := ho.due
  refine ⟨hkept, ?_, ?_, ?_⟩
  · have hdistinct := ho.distinct
    simpa [hwritten, messagesOf, Call.message?] using hdistinct
  · intro m hm
    rw [hwritten, List.mem_append, List.mem_singleton]
    rcases hcases with ⟨_, _, hb, hp⟩ | ⟨_, _, hb, hp⟩ | ⟨_, _, _, hb, hp⟩
    all_goals
      rw [hb, hp] at hm
      have hold := ho.wrote m
      simp only [List.mem_append, List.mem_singleton, List.not_mem_nil] at hm
      tauto
  · rw [hwritten, deliverable]
    rcases hcases with ⟨hroom, hh, hb, hp⟩ | ⟨hfull, hh, hb, hp⟩ | ⟨hb₀, hp₀, hh, hb, hp⟩
    · have hshort : h.parked.length ≤ h.buffered.length + 1 := by
        simpa [parked, buffered] using hguard hroom
      rw [hh, hb, hp, List.drop_eq_nil_of_le (by simpa using hshort), List.append_nil,
        ← List.append_assoc]
      have hbuffered : List.Sublist (h.handed ++ h.buffered) h.written := by
        refine List.Sublist.trans ?_ hsub
        exact (List.Sublist.refl h.handed).append (List.sublist_append_left _ _)
      exact hbuffered.append (List.Sublist.refl _)
    · rw [hh, hb, hp]
      have hlater : List.Sublist ((h.parked ++ [message]).drop h.buffered.length)
          (h.parked.drop h.buffered.length ++ [message]) := by
        rw [List.drop_append]
        exact (List.Sublist.refl _).append (List.drop_sublist _ _)
      rw [deliverable] at hsub
      have hall := hsub.append (List.Sublist.refl [message])
      rw [List.append_assoc, List.append_assoc] at hall
      exact (((List.Sublist.refl h.handed).append
        ((List.Sublist.refl h.buffered).append hlater)).trans hall)
    · rw [hh, hb, hp]
      have hhanded : List.Sublist h.handed h.written := (List.sublist_append_left _ _).trans hsub
      simpa using hhanded.append (List.Sublist.refl [message])

/-- A write into the buffer ahead of two parked messages is followed, after enough reads, by an
older message. -/
theorem overtaking_breaks_order {h next : History κ μ} {message : μ} {cb : κ}
    {calls : List (Call κ μ)} (ho : Ordered h (.write message cb :: calls))
    (hcall : h.call (.write message cb) = some next)
    (hguard : ¬ h.WriteKeepsOrder (.write message cb)) : ¬ next.DrainsInOrder := by
  simp only [WriteKeepsOrder, not_forall, Nat.not_le] at hguard
  obtain ⟨hroom, hlong⟩ := hguard
  obtain ⟨_, hnext, hkept, _, hwritten, hcases⟩ := call_write ho.kept message cb
  obtain rfl := Option.some.inj (hcall.symm.trans hnext)
  have hlong' : h.buffered.length + 1 < h.parked.length := by simpa [parked, buffered] using hlong
  rcases hcases with ⟨_, hh, hb, hp⟩ | ⟨hfull, _⟩ | ⟨_, hp₀, _⟩
  · -- the message that outlasts the buffer is older than `message` but is handed over after it
    let late := h.parked[h.buffered.length + 1]
    have hlate : late ∈ h.parked := List.getElem_mem hlong'
    have hdue : next.deliverable =
        (h.buffered ++ [message]) ++ h.parked.drop (h.buffered.length + 1) := by
      rw [deliverable, hb, hp]
      simp
    have hlateDue : late ∈ h.parked.drop (h.buffered.length + 1) := by
      rw [List.drop_eq_getElem_cons hlong']
      exact List.mem_cons_self
    intro hdrain
    obtain ⟨final, hrun, hw, hfinal⟩ :=
      drain_hands_over hkept cb next.deliverable.length (Nat.le_refl _)
    have hfifo := hdrain _ final hrun
    have holder : Precedes final.written late message := by
      rw [hw, hwritten]
      exact precedes_append (ho.wrote late (.inr hlate)) (by simp)
    have hlast : Precedes final.handed message late := by
      rw [hfinal, hdue, ← List.append_assoc]
      exact precedes_append (by simp) hlateDue
    have hfirst : Precedes final.handed late message :=
      hfifo late message holder (hlast.subset (by simp)) (hlast.subset (by simp))
    have hnd : final.handed.Nodup := by
      rw [hfinal, hdue, hh, List.append_assoc, List.singleton_append, ← List.append_assoc,
        List.nodup_middle, List.nodup_cons, ← List.drop_drop, List.append_assoc]
      have hold : List.Sublist
          (h.handed ++ (h.buffered ++ (h.parked.drop h.buffered.length).drop 1)) h.written := by
        refine List.Sublist.trans ?_ ho.due
        exact (List.Sublist.refl _).append ((List.Sublist.refl _).append (List.drop_sublist _ _))
      have hdistinct := List.nodup_append.mp ho.distinct
      refine ⟨fun hmem => ?_, hdistinct.1.sublist hold⟩
      exact hdistinct.2.2 message (hold.subset hmem) message
        (by simp [messagesOf, Call.message?]) rfl
    exact precedes_asymm hnd hfirst hlast
  · exact absurd hroom (by rw [buffered] at hfull; omega)
  · simp [hp₀] at hlong'

/-- First in, first out along a sequence of calls, with pairwise distinct messages, on a channel
of any size: the order holds in every state reached and is kept by all further reads exactly if
every `channel_write` that finds room leaves no two parked writers behind the buffer. -/
theorem fifo_throughout_iff (size : Int) (calls : List (Call κ μ))
    (hdistinct : (messagesOf calls).Nodup) :
    (∃ final, run call (start size) calls = some final) ∧
      (Throughout call DrainsInOrder (start size) calls ↔
        Respects call WriteKeepsOrder (start size) calls) := by
  refine ⟨run_call_total (start_kept size) calls, ?_⟩
  have hstart : Ordered (start size) calls :=
    ⟨start_kept size, hdistinct, by simp [buffered, parked, start, channelNew, queueNew],
      List.nil_sublist _⟩
  refine throughout_iff_respects (I := Ordered) ?_ ?_ hstart (ordered_drains hstart)
  · intro h c rest next ho hguard hcall
    cases c with
    | write message cb => exact ordered_write ho hguard hcall
    | read cb => exact ordered_read ho hcall
  · intro h c rest next ho _ hcall
    cases c with
    | write message cb =>
        by_cases hguard : h.WriteKeepsOrder (.write message cb)
        · exact iff_of_true (ordered_drains (ordered_write ho hguard hcall)) hguard
        · exact iff_of_false (overtaking_breaks_order ho hcall hguard) hguard
    | read cb => exact iff_of_true (ordered_drains (ordered_read ho hcall)) trivial

/-- Buffer size 1: the first read makes room for the fifth message ahead of the fourth. -/
theorem fifo_fails :
    ¬ ∀ (size : Int) (calls : List (Call Nat Nat)), (messagesOf calls).Nodup →
      ∀ final, run call (start size) calls = some final → final.FirstInFirstOut := by
  intro hall
  have horder := hall 1 [.write 1 0, .write 2 0, .write 3 0, .write 4 0, .read 9, .write 5 0,
    .read 9, .read 9] (by decide) _ rfl 4 5
  have hhanded := horder (show List.Sublist [4, 5] [1, 2, 3, 4, 5] by decide) (by decide)
    (by decide)
  exact absurd hhanded (show ¬ List.Sublist [4, 5] [1, 5, 4] by decide)

/-- Buffer size 1 with one parked writer: the read drops its message, and order is kept. -/
theorem fifo_throughout_one_parked :
    Throughout call DrainsInOrder (start 1 : History Nat Nat)
      [.write 1 0, .write 2 0, .read 9, .write 3 0, .read 9] :=
  (fifo_throughout_iff 1 [.write 1 0, .write 2 0, .read 9, .write 3 0, .read 9]
    (by decide)).2.mpr (by decide)

end History

end Casting
