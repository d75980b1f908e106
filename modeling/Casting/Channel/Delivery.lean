import Casting.Channel.History
import Mathlib.Data.List.Perm.Basic
import Mathlib.Data.List.Nodup
import Mathlib.Data.List.Count

/-!
# No message is lost or duplicated

A written message should be in exactly one of three places.  `channel_read` takes the head of
the buffer and the head of `writers` in the same call but hands over only one of them, so the
accounting holds exactly as long as no read finds both queues non-empty.
-/

namespace Casting

open Transition

variable {κ μ : Type*} [DecidableEq μ]

namespace History

/-- Every message written so far has been handed over once, or is buffered, or is parked. -/
def Accounted (h : History κ μ) : Prop :=
  ∀ m ∈ h.written, h.handed.count m + h.buffered.count m + h.parked.count m = 1

/-- The call is not a `channel_read` that finds both a buffered message and a parked writer. -/
def ReadKeepsWriter (h : History κ μ) : Call κ μ → Prop
  | .write _ _ => True
  | .read _ => h.channel.messages = [] ∨ h.channel.writers = []

omit [DecidableEq μ] in
theorem readKeepsWriter_read {h : History κ μ} {cb : κ} :
    h.ReadKeepsWriter (.read cb) ↔ h.buffered = [] ∨ h.parked = [] := by
  simp [ReadKeepsWriter, buffered, parked]

instance (h : History κ μ) (c : Call κ μ) : Decidable (h.ReadKeepsWriter c) :=
  match c with
  | .write _ _ => .isTrue trivial
  | .read _ => decidable_of_iff (h.channel.messages.isEmpty ∨ h.channel.writers.isEmpty)
      (by simp [ReadKeepsWriter])

def places (h : History κ μ) : List μ := h.handed ++ h.buffered ++ h.parked

omit [DecidableEq μ] in
theorem call_write_places {h next : History κ μ} (hk : Kept h) {message : μ} {cb : κ}
    (hcall : h.call (.write message cb) = some next) :
    next.places.Perm (message :: h.places) := by
  obtain ⟨_, hnext, _, _, _, hcases⟩ := call_write hk message cb
  obtain rfl := Option.some.inj (hcall.symm.trans hnext)
  rcases hcases with ⟨_, hh, hb, hp⟩ | ⟨_, hh, hb, hp⟩ | ⟨hb₀, hp₀, hh, hb, hp⟩
  · rw [places, hh, hb, hp, places, ← List.append_assoc, List.append_assoc]
    exact List.perm_middle
  · rw [places, hh, hb, hp, places, ← List.append_assoc]
    exact List.perm_append_singleton _ _
  · rw [places, hh, hb, hp, places, hb₀, hp₀]
    simp

omit [DecidableEq μ] in
theorem call_read_places {h next : History κ μ} (hk : Kept h) {cb : κ}
    (hcall : h.call (.read cb) = some next) (hone : h.buffered = [] ∨ h.parked = []) :
    next.places = h.places := by
  obtain ⟨_, hnext, _, _, _, hb, hp, hh⟩ := call_read hk cb
  obtain rfl := Option.some.inj (hcall.symm.trans hnext)
  rw [places, places, hh, hb, hp]
  rcases hone with hempty | hempty
  · rw [hempty]
    cases h.parked <;> simp
  · rw [hempty]
    cases h.buffered <;> simp

omit [DecidableEq μ] in
/-- A read that finds both queues non-empty drops the message of the first parked writer. -/
theorem call_read_drops {h next : History κ μ} (hk : Kept h) {cb : κ}
    (hcall : h.call (.read cb) = some next) {b p : μ} {bs ps : List μ}
    (hbuf : h.buffered = b :: bs) (hpark : h.parked = p :: ps) :
    h.places.Perm (p :: next.places) := by
  obtain ⟨_, hnext, _, _, _, hb, hp, hh⟩ := call_read hk cb
  obtain rfl := Option.some.inj (hcall.symm.trans hnext)
  rw [places, places, hh, hb, hp, hbuf, hpark]
  have hmiddle : List.Perm ((h.handed ++ b :: bs) ++ p :: ps)
      (p :: ((h.handed ++ b :: bs) ++ ps)) := List.perm_middle
  simpa using hmiddle

theorem accounted_iff_places {h : History κ μ} :
    h.Accounted ↔ ∀ m ∈ h.written, h.places.count m = 1 := by
  simp only [Accounted, places, List.count_append]

/-- What the accounting argument carries along: nothing is in a place that was not written,
and the messages still to come are new. -/
structure Fresh (h : History κ μ) (calls : List (Call κ μ)) : Prop where
  kept : Kept h
  distinct : (h.written ++ messagesOf calls).Nodup
  wrote : ∀ m ∈ h.places, m ∈ h.written

omit [DecidableEq μ] in
theorem fresh_head {h : History κ μ} {message : μ} {cb : κ} {calls : List (Call κ μ)}
    (hf : Fresh h (.write message cb :: calls)) : message ∉ h.written := by
  have hnd := List.nodup_append.mp hf.distinct
  intro hmem
  exact hnd.2.2 message hmem message (by simp [messagesOf, Call.message?]) rfl

omit [DecidableEq μ] in
theorem fresh_step {h next : History κ μ} {c : Call κ μ} {calls : List (Call κ μ)}
    (hf : Fresh h (c :: calls)) (hguard : h.ReadKeepsWriter c) (hcall : h.call c = some next) :
    Fresh next calls := by
  cases c with
  | write message cb =>
      have hperm := call_write_places hf.kept hcall
      obtain ⟨_, hnext, hkept, _, hwritten, _⟩ := call_write hf.kept message cb
      obtain rfl := Option.some.inj (hcall.symm.trans hnext)
      refine ⟨hkept, ?_, ?_⟩
      · have hdistinct := hf.distinct
        simpa [hwritten, messagesOf, Call.message?] using hdistinct
      · intro m hm
        rw [hwritten, List.mem_append, List.mem_singleton]
        rcases List.mem_cons.mp (hperm.mem_iff.mp hm) with rfl | hold
        · exact .inr rfl
        · exact .inl (hf.wrote m hold)
  | read cb =>
      have hplaces := call_read_places hf.kept hcall (readKeepsWriter_read.mp hguard)
      obtain ⟨_, hnext, hkept, _, hwritten, _⟩ := call_read hf.kept cb
      obtain rfl := Option.some.inj (hcall.symm.trans hnext)
      refine ⟨hkept, ?_, ?_⟩
      · rw [hwritten]
        exact hf.distinct
      · rw [hwritten, hplaces]
        exact hf.wrote

theorem accounted_write {h next : History κ μ} {message : μ} {cb : κ} {calls : List (Call κ μ)}
    (hf : Fresh h (.write message cb :: calls)) (ha : h.Accounted)
    (hcall : h.call (.write message cb) = some next) : next.Accounted := by
  have hperm := call_write_places hf.kept hcall
  have hnew := fresh_head hf
  have habsent : h.places.count message = 0 :=
    List.count_eq_zero.mpr fun hm => hnew (hf.wrote message hm)
  obtain ⟨_, hnext, _, _, hwritten, _⟩ := call_write hf.kept message cb
  obtain rfl := Option.some.inj (hcall.symm.trans hnext)
  rw [accounted_iff_places] at ha ⊢
  intro m hm
  rw [hperm.count_eq m, List.count_cons]
  rw [hwritten, List.mem_append, List.mem_singleton] at hm
  rcases hm with hold | rfl
  · have hne : message ≠ m := fun heq => hnew (heq ▸ hold)
    simp [ha m hold, hne]
  · simp [habsent]

theorem accounted_read_iff {h next : History κ μ} {cb : κ} {calls : List (Call κ μ)}
    (hf : Fresh h (.read cb :: calls)) (ha : h.Accounted)
    (hcall : h.call (.read cb) = some next) :
    next.Accounted ↔ h.ReadKeepsWriter (.read cb) := by
  obtain ⟨_, hnext, _, _, hwritten, _⟩ := call_read hf.kept cb
  obtain rfl := Option.some.inj (hcall.symm.trans hnext)
  rw [accounted_iff_places] at ha ⊢
  rw [readKeepsWriter_read]
  constructor
  · intro hnextAccounted
    by_contra hboth
    obtain ⟨hbne, hpne⟩ := not_or.mp hboth
    obtain ⟨b, bs, hbuf⟩ := List.exists_cons_of_ne_nil hbne
    obtain ⟨p, ps, hpark⟩ := List.exists_cons_of_ne_nil hpne
    have hdrop := call_read_drops hf.kept hcall hbuf hpark
    have hp : p ∈ h.written := hf.wrote p (hdrop.mem_iff.mpr List.mem_cons_self)
    have hbefore := ha p hp
    have hafter := hnextAccounted p (by rw [hwritten]; exact hp)
    rw [hdrop.count_eq, List.count_cons_self] at hbefore
    omega
  · intro hone m hm
    rw [call_read_places hf.kept hcall hone]
    exact ha m (by rw [← hwritten]; exact hm)

/-- The accounting of the three places along a sequence of calls, with pairwise distinct
messages, on a channel of any size: it holds in every state reached exactly if every
`channel_read` finds the buffer or the queue of parked writers empty. -/
theorem accounted_throughout_iff (size : Int) (calls : List (Call κ μ))
    (hdistinct : (messagesOf calls).Nodup) :
    (∃ final, run History.call (start size) calls = some final) ∧
      (Throughout History.call Accounted (start size) calls ↔
        Respects History.call ReadKeepsWriter (start size) calls) := by
  refine ⟨run_call_total (start_kept size) calls, ?_⟩
  refine throughout_iff_respects (I := Fresh) ?_ ?_ ?_ ?_
  · intro h c rest next hf hguard hcall
    exact fresh_step hf hguard hcall
  · intro h c rest next hf ha hcall
    cases c with
    | write message cb => exact iff_of_true (accounted_write hf ha hcall) trivial
    | read cb => exact accounted_read_iff hf ha hcall
  · exact ⟨start_kept size, hdistinct, by simp [places, handed, buffered, parked, start,
      channelNew, queueNew]⟩
  · simp [Accounted, start]

/-- Buffer size 1, two writes and two reads: the second message is parked when the first read
drops it. -/
theorem accounted_fails :
    ¬ ∀ (size : Int) (calls : List (Call Nat Nat)), (messagesOf calls).Nodup →
      ∀ final, run History.call (start size) calls = some final → final.Accounted := by
  intro hall
  have hlost := hall 1 [.write 10 0, .write 20 1, .read 2, .read 3] (by decide) _ rfl 20
    (by decide)
  revert hlost
  decide

/-- Buffer size 1 with the read between the two writes. -/
theorem accounted_throughout_alternating :
    Throughout History.call Accounted (start 1 : History Nat Nat)
      [.write 10 0, .read 2, .write 20 1, .read 3] :=
  (accounted_throughout_iff 1 [.write 10 0, .read 2, .write 20 1, .read 3]
    (by decide)).2.mpr (by decide)

end History

end Casting
