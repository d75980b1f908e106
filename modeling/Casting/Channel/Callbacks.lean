import Casting.Channel.Operations
import Casting.Framework.Transition
import Mathlib.Data.List.Count
import Mathlib.Data.List.Perm.Basic

/-!
# The callback of every call

Calls of `channel_write`, `channel_read` and `channel_close` executed one after another.  The
callback of a call is told apart by the number of the call.  A callback is made by the call
itself, by a later call that pops its entry, or by `channel_close`.
-/

namespace Casting

open Transition

variable {κ μ : Type*}

/-- A call with its arguments; `given` tells whether the callback is not null. -/
inductive Request (μ : Type*)
  | write (message : Option μ) (given : Bool)
  | read (given : Bool)
  | close
  deriving DecidableEq, Repr

structure CallRecord (μ : Type*) where
  request : Request μ
  rc : ReturnCode
  deriving DecidableEq, Repr

/-- The call has taken its callback. -/
def CallRecord.accepted : CallRecord μ → Bool
  | ⟨.write _ _, rc⟩ => rc = .success ∨ rc = .errFull
  | ⟨.read _, rc⟩ => rc = .success ∨ rc = .errEmpty
  | ⟨.close, _⟩ => false

/-- The channel, the calls made so far and the callbacks made so far. -/
structure CallLog (μ : Type*) where
  channel : Channel Nat μ
  calls : List (CallRecord μ)
  invocations : List (Invocation Nat μ)
  deriving DecidableEq, Repr

namespace CallLog

def start (size : Int) : CallLog μ := ⟨channelNew size, [], []⟩

def record (l : CallLog μ) (request : Request μ) (res : CallResult Nat μ) : CallLog μ :=
  ⟨res.channel, l.calls ++ [⟨request, res.rc⟩], l.invocations ++ res.invocations⟩

def nextCallback (l : CallLog μ) (given : Bool) : Option Nat :=
  if given then some l.calls.length else none

def call (l : CallLog μ) : Request μ → Option (CallLog μ)
  | .write message given =>
      (channelWrite l.channel message (l.nextCallback given)).map
        (l.record (.write message given))
  | .read given => (channelRead l.channel (l.nextCallback given)).map (l.record (.read given))
  | .close =>
      let (c, _, invocations) := channelClose l.channel
      some (l.record .close ⟨c, .success, invocations⟩)

/-- How often the callback of call `i` has been made. -/
def invoked (l : CallLog μ) (i : Nat) : Nat := (l.invocations.map Invocation.cb).count i

/-- How many entries of call `i` are parked in the channel. -/
def parked (l : CallLog μ) (i : Nat) : Nat :=
  (l.channel.readers.map Reader.cb).count i + (l.channel.writers.map Writer.cb).count i

/-- Every accepted call has had its callback or is parked, exactly one of the two and once; a
call refused as closed has had none; a `write` or `closed` event of a write call is passed the
message of that call. -/
structure Exact (l : CallLog μ) : Prop where
  once : ∀ i r, l.calls[i]? = some r → r.accepted → l.invoked i + l.parked i = 1
  refused : ∀ i r, l.calls[i]? = some r → r.rc = .errClosed → l.invoked i = 0
  own : ∀ x ∈ l.invocations, x.event ≠ .read → ∀ message given rc,
    l.calls[x.cb]? = some ⟨.write (some message) given, rc⟩ → x.message = some message

/-- The call is not a read that finds a buffered message and a parked writer of another one. -/
def TellsOwnMessage (l : CallLog μ) : Request μ → Prop
  | .read true => ∀ m ∈ l.channel.messages.head?, ∀ w ∈ l.channel.writers.head?, w.message = m
  | _ => True

instance [DecidableEq μ] (l : CallLog μ) : (request : Request μ) →
    Decidable (l.TellsOwnMessage request)
  | .read true => inferInstanceAs (Decidable (∀ m ∈ l.channel.messages.head?,
      ∀ w ∈ l.channel.writers.head?, w.message = m))
  | .read false | .write _ _ | .close => .isTrue trivial

end CallLog

/-! ### What a call does with callbacks -/

/-- The callbacks of the parked readers and writers. -/
def Channel.callbacks (c : Channel κ μ) : List κ :=
  c.readers.map Reader.cb ++ c.writers.map Writer.cb

/-- The locked section of `channel_write`: the callback joins those of the channel, and every one
that is made leaves them. -/
theorem channelWriteLocked_callbacks {c : Channel κ μ} (hc : Rendezvous c) (message : μ)
    (cb : κ) :
    ∃ calls, channelWriteCallbacks message cb (channelWriteLocked c message cb).2 = some calls ∧
      (((channelWriteLocked c message cb).2.rc = .success ∧
          ⟨cb, some message, .write⟩ ∈ calls) ∨
        (channelWriteLocked c message cb).2.rc = .errFull) ∧
      (calls.map Invocation.cb ++ (channelWriteLocked c message cb).1.callbacks).Perm
        (cb :: c.callbacks) ∧
      (∀ x ∈ calls, x = ⟨cb, some message, .write⟩ ∨
        ∃ r ∈ c.readers, x = ⟨r.cb, some message, .read⟩) ∧
      (∀ r ∈ (channelWriteLocked c message cb).1.readers, r ∈ c.readers) ∧
      (∀ w ∈ (channelWriteLocked c message cb).1.writers,
        w ∈ c.writers ∨ w = ⟨cb, message⟩) := by
  rcases channelWriteLocked_cases hc message cb with
    ⟨hr, _, heq⟩ | ⟨hr, _, heq⟩ | ⟨r, rest, hr, _, hw, _, heq⟩ | ⟨r, rest, hr, _, hw, _, heq⟩
  all_goals rw [heq]
  · refine ⟨_, rfl, .inl ⟨rfl, List.mem_cons_self⟩, ?_, ?_, fun _ h => h, fun _ h => .inl h⟩
    · exact List.Perm.refl _
    · simp
  · refine ⟨_, rfl, .inr rfl, ?_, ?_, fun _ h => h, ?_⟩
    · simp only [Channel.callbacks, hr, List.map_nil, List.nil_append, List.map_append,
        List.map_cons]
      exact List.perm_append_singleton cb _
    · simp
    · intro w hw
      simpa using hw
  · refine ⟨_, rfl, .inl ⟨rfl, List.mem_cons_self⟩, ?_, ?_, ?_, fun _ h => .inl h⟩
    · simp [Channel.callbacks, hr, hw, wroteInvocation]
    · simp [wroteInvocation, hr]
    · intro x hx
      rw [hr]
      exact List.mem_cons_of_mem r hx
  · refine ⟨_, rfl, .inr rfl, ?_, ?_, ?_, fun _ h => .inl h⟩
    · simp only [Channel.callbacks, hr, hw, wroteInvocation]
      exact List.Perm.swap cb r.cb _
    · simp [wroteInvocation, hr]
    · intro x hx
      rw [hr]
      exact List.mem_cons_of_mem r hx

/-- The locked section of `channel_read` parks the callback, or serves it from one of the queues
and tells a popped writer the message that the reader was given. -/
theorem channelReadLocked_callbacks (c : Channel κ μ) (cb : κ) :
    (c.messages.head?.or (c.writers.head?.map Writer.message) = none ∧
      channelReadLocked c cb =
        ({ c with readers := c.readers ++ [⟨cb⟩] }, ⟨.errEmpty, none, none⟩) ∧
      channelReadCallbacks cb (channelReadLocked c cb).2 = some []) ∨
    ∃ m, c.messages.head?.or (c.writers.head?.map Writer.message) = some m ∧
      channelReadLocked c cb =
        ({ c with messages := c.messages.tail, writers := c.writers.tail },
          ⟨.success, c.messages.head?, c.writers.head?⟩) ∧
      channelReadCallbacks cb (channelReadLocked c cb).2 =
        some (⟨cb, some m, .read⟩ :: wroteInvocation c.writers.head? fun _ => m) := by
  rcases channelReadLocked_cases c cb with ⟨hm, hw, heq⟩ | ⟨hne, heq⟩
  · left
    rw [heq, hm, hw]
    exact ⟨rfl, rfl, rfl⟩
  · right
    have hsome : (c.messages.head?.or (c.writers.head?.map Writer.message)).isSome := by
      cases hm : c.messages with
      | cons m ms => rfl
      | nil =>
          cases hw : c.writers with
          | cons w ws => rfl
          | nil => simp [hm, hw] at hne
    obtain ⟨m, hm⟩ := Option.isSome_iff_exists.mp hsome
    refine ⟨m, hm, heq, ?_⟩
    rw [heq, channelReadCallbacks, if_pos rfl, hm]
    rfl

theorem channelRead_perm {c : Channel κ μ} (cb : κ) (m : μ) :
    (List.map Invocation.cb (⟨cb, some m, .read⟩ ::
        wroteInvocation c.writers.head? fun _ => m) ++
      Channel.callbacks { c with messages := c.messages.tail, writers := c.writers.tail }).Perm
        (cb :: c.callbacks) := by
  cases hw : c.writers with
  | nil => simp [Channel.callbacks, hw, wroteInvocation]
  | cons w ws =>
      have hmiddle : List.Perm (w.cb :: (c.readers.map Reader.cb ++ ws.map Writer.cb))
          (c.readers.map Reader.cb ++ w.cb :: ws.map Writer.cb) := List.perm_middle.symm
      simp only [Channel.callbacks, hw, wroteInvocation]
      exact hmiddle.cons cb

theorem channelWrite_callbacks {c : Channel Nat μ} (hc : Rendezvous c)
    (hopen : c.status = .channelOpen) (message : μ) (n : Nat) :
    ∃ res, channelWrite c (some message) (some n) = some res ∧ Rendezvous res.channel ∧
      res.channel.status = .channelOpen ∧ (res.rc = .success ∨ res.rc = .errFull) ∧
      (res.invocations.map Invocation.cb ++ res.channel.callbacks).Perm (n :: c.callbacks) ∧
      (∀ x ∈ res.invocations, x.event ≠ .read → x.cb = n ∧ x.message = some message) ∧
      (∀ r ∈ res.channel.readers, r ∈ c.readers) ∧
      (∀ w ∈ res.channel.writers, w ∈ c.writers ∨ w = ⟨n, message⟩) := by
  obtain ⟨calls, hcalls, hrc, hperm, htold, hreaders, hwriters⟩ :=
    channelWriteLocked_callbacks hc message n
  rw [channelWrite_of_open hopen, hcalls]
  refine ⟨_, rfl, channelWriteLocked_rendezvous hc message n, ?_, ?_, hperm, ?_, hreaders,
    hwriters⟩
  · rw [channelWriteLocked_status, hopen]
  · exact hrc.imp_left And.left
  · intro x hx hevent
    rcases htold x hx with rfl | ⟨r, _, rfl⟩
    · exact ⟨rfl, rfl⟩
    · exact absurd rfl hevent

theorem channelRead_callbacks {c : Channel Nat μ} (hc : Rendezvous c)
    (hopen : c.status = .channelOpen) (n : Nat) :
    ∃ res, channelRead c (some n) = some res ∧ Rendezvous res.channel ∧
      res.channel.status = .channelOpen ∧ (res.rc = .success ∨ res.rc = .errEmpty) ∧
      (res.invocations.map Invocation.cb ++ res.channel.callbacks).Perm (n :: c.callbacks) ∧
      (res.invocations.filter fun x => x.event ≠ .read) =
        (c.writers.head?.toList.map fun w =>
          ⟨w.cb, some (c.messages.head?.getD w.message), .write⟩) ∧
      (∀ r ∈ res.channel.readers, r ∈ c.readers ∨ r = ⟨n⟩) ∧
      (∀ w ∈ res.channel.writers, w ∈ c.writers) := by
  have hkept := channelReadLocked_rendezvous hc n
  rw [channelRead_of_open hopen]
  rcases channelReadLocked_callbacks c n with ⟨hnone, heq, hcalls⟩ | ⟨m, hm, heq, hcalls⟩
  · have hw : c.writers = [] := by
      cases hw : c.writers with
      | nil => rfl
      | cons w ws =>
          rw [hw] at hnone
          simp at hnone
    rw [hcalls]
    rw [heq] at hkept ⊢
    refine ⟨_, rfl, hkept, hopen, .inr rfl, ?_, ?_, ?_, fun _ h => h⟩
    · simp only [Channel.callbacks, hw, List.map_append, List.map_cons, List.map_nil,
        List.append_nil, List.nil_append]
      exact List.perm_append_singleton n _
    · simp [hw]
    · intro r hr
      simpa using hr
  · rw [hcalls]
    rw [heq] at hkept ⊢
    refine ⟨_, rfl, hkept, hopen, .inl rfl, channelRead_perm n m, ?_, fun _ h => .inl h,
      fun _ h => List.mem_of_mem_tail h⟩
    cases hw : c.writers with
    | nil => simp [wroteInvocation]
    | cons w ws =>
        have hgot : m = c.messages.head?.getD w.message := by
          cases hms : c.messages with
          | nil =>
              rw [hms, hw] at hm
              cases hm
              rfl
          | cons first rest =>
              rw [hms, hw] at hm
              cases hm
              rfl
        rw [hgot]
        simp [wroteInvocation]

theorem channelClose_callbacks {c : Channel κ μ} (hopen : c.status = .channelOpen) :
    (channelClose c).1.status = .channelClosed ∧ (channelClose c).1.callbacks = [] ∧
      (channelClose c).2.2.map Invocation.cb = c.callbacks ∧
      ∀ x ∈ (channelClose c).2.2, (∃ r ∈ c.readers, x = ⟨r.cb, none, .closed⟩) ∨
        ∃ w ∈ c.writers, x = ⟨w.cb, some w.message, .closed⟩ := by
  simp only [channelClose, hopen, if_true, queueClear]
  refine ⟨trivial, rfl, ?_, ?_⟩
  · simp [Channel.callbacks, Function.comp_def]
  · intro x hx
    rcases List.mem_append.mp hx with hx | hx
    · obtain ⟨r, hr, rfl⟩ := List.mem_map.mp hx
      exact .inl ⟨r, hr, rfl⟩
    · obtain ⟨w, hw, rfl⟩ := List.mem_map.mp hx
      exact .inr ⟨w, hw, rfl⟩

namespace CallLog

def places (l : CallLog μ) : List Nat :=
  l.invocations.map Invocation.cb ++ l.channel.callbacks

theorem count_places (l : CallLog μ) (i : Nat) :
    l.places.count i = l.invoked i + l.parked i := by
  simp only [places, Channel.callbacks, List.count_append, invoked, parked]

/-- Whether call `i` was made and accepted. -/
def acceptedAt (l : CallLog μ) (i : Nat) : Bool := l.calls[i]?.any CallRecord.accepted

/-- What every sequence of calls keeps, whatever the callbacks were told. -/
structure Kept (l : CallLog μ) : Prop where
  rendezvous : Rendezvous l.channel
  settled : l.channel.status = .channelClosed → l.channel.callbacks = []
  counted : ∀ i, l.places.count i = if l.acceptedAt i then 1 else 0
  readers : ∀ r ∈ l.channel.readers, ∃ given rc, l.calls[r.cb]? = some ⟨.read given, rc⟩
  writers : ∀ w ∈ l.channel.writers, ∃ given rc,
    l.calls[w.cb]? = some ⟨.write (some w.message) given, rc⟩

theorem start_kept (size : Int) : (start size : CallLog μ).Kept where
  rendezvous := channelNew_rendezvous size
  settled _ := rfl
  counted _ := rfl
  readers _ h := absurd h List.not_mem_nil
  writers _ h := absurd h List.not_mem_nil

theorem record_calls (l : CallLog μ) {request : Request μ} {res : CallResult Nat μ} {i : Nat}
    {r : CallRecord μ} (h : l.calls[i]? = some r) :
    (l.record request res).calls[i]? = some r := by
  have hlt : i < l.calls.length := (List.getElem?_eq_some_iff.mp h).1
  rw [record, List.getElem?_append_left hlt, h]

theorem acceptedAt_record (l : CallLog μ) (request : Request μ) (res : CallResult Nat μ)
    (i : Nat) :
    (l.record request res).acceptedAt i =
      (l.acceptedAt i || (i = l.calls.length && CallRecord.accepted ⟨request, res.rc⟩)) := by
  rcases Nat.lt_trichotomy i l.calls.length with hlt | heq | hgt
  · have hne : i ≠ l.calls.length := Nat.ne_of_lt hlt
    simp [acceptedAt, record, List.getElem?_append_left hlt, hne]
  · simp [acceptedAt, record, heq]
  · have hne : i ≠ l.calls.length := Nat.ne_of_gt hgt
    have hafter : (l.record request res).calls.length ≤ i := by
      simpa [record] using Nat.succ_le_of_lt hgt
    simp [acceptedAt, List.getElem?_eq_none hafter, List.getElem?_eq_none (Nat.le_of_lt hgt), hne]

theorem counted_record {l : CallLog μ} (hl : l.Kept) {request : Request μ}
    {res : CallResult Nat μ}
    (h : (res.invocations.map Invocation.cb ++ res.channel.callbacks).Perm
      ((if CallRecord.accepted ⟨request, res.rc⟩ then [l.calls.length] else []) ++
        l.channel.callbacks)) (i : Nat) :
    (l.record request res).places.count i =
      if (l.record request res).acceptedAt i then 1 else 0 := by
  have hnew : l.acceptedAt l.calls.length = false := by simp [acceptedAt]
  have hmoved := h.count_eq i
  have hbefore := hl.counted i
  rw [acceptedAt_record]
  simp only [places, record, List.map_append, List.append_assoc, List.count_append] at *
  rw [hmoved]
  by_cases hi : i = l.calls.length
  · subst hi
    cases haccepted : CallRecord.accepted ⟨request, res.rc⟩ <;> simp [hnew] at hbefore ⊢ <;> omega
  · cases haccepted : CallRecord.accepted ⟨request, res.rc⟩ <;>
      simp [hi, Ne.symm hi] at hbefore ⊢ <;> omega

theorem Kept.record {l : CallLog μ} (hl : l.Kept) {request : Request μ} {res : CallResult Nat μ}
    (hrendezvous : Rendezvous res.channel)
    (hsettled : res.channel.status = .channelClosed → res.channel.callbacks = [])
    (hperm : (res.invocations.map Invocation.cb ++ res.channel.callbacks).Perm
      ((if CallRecord.accepted ⟨request, res.rc⟩ then [l.calls.length] else []) ++
        l.channel.callbacks))
    (hreaders : ∀ r ∈ res.channel.readers, r ∈ l.channel.readers ∨
      r = ⟨l.calls.length⟩ ∧ ∃ given, request = .read given)
    (hwriters : ∀ w ∈ res.channel.writers, w ∈ l.channel.writers ∨
      ∃ message given, w = ⟨l.calls.length, message⟩ ∧ request = .write (some message) given) :
    (l.record request res).Kept where
  rendezvous := hrendezvous
  settled := hsettled
  counted := counted_record hl hperm
  readers := by
    intro r hr
    rcases hreaders r hr with hold | ⟨rfl, given, rfl⟩
    · obtain ⟨given, rc, hcall⟩ := hl.readers r hold
      exact ⟨given, rc, l.record_calls hcall⟩
    · exact ⟨given, res.rc, by simp [CallLog.record]⟩
  writers := by
    intro w hw
    rcases hwriters w hw with hold | ⟨message, given, rfl, rfl⟩
    · obtain ⟨given, rc, hcall⟩ := hl.writers w hold
      exact ⟨given, rc, l.record_calls hcall⟩
    · exact ⟨given, res.rc, by simp [CallLog.record]⟩

/-- The ways a call can go: it changes nothing, or finds the channel open. -/
theorem call_cases (l : CallLog μ) (request : Request μ) :
    (∃ rc, l.call request = some (l.record request ⟨l.channel, rc, []⟩) ∧
      CallRecord.accepted ⟨request, rc⟩ = false ∧
      (request = .read true → l.channel.status = .channelClosed)) ∨
    (l.channel.status = .channelOpen ∧
      ((∃ message, request = .write (some message) true ∧ l.call request =
          (channelWrite l.channel (some message) (some l.calls.length)).map
            (l.record request)) ∨
        (request = .read true ∧ l.call request =
          (channelRead l.channel (some l.calls.length)).map (l.record request)) ∨
        (request = .close ∧ l.call request = some (l.record request
          ⟨(channelClose l.channel).1, .success, (channelClose l.channel).2.2⟩)))) := by
  cases hstatus : l.channel.status with
  | channelClosed =>
      left
      rcases request with ⟨_ | message, _ | _⟩ | ⟨_ | _⟩ | _
      case write.none.false | write.none.true | write.some.false | read.false =>
        exact ⟨.errInval, rfl, rfl, fun _ => rfl⟩
      case write.some.true =>
        exact ⟨.errClosed, by simp [call, nextCallback, channelWrite, hstatus], rfl, fun _ => rfl⟩
      case read.true =>
        exact ⟨.errClosed, by simp [call, nextCallback, channelRead, hstatus], rfl, fun _ => rfl⟩
      case close => exact ⟨.success, by simp [call, channelClose, hstatus], rfl, fun _ => rfl⟩
  | channelOpen =>
      rcases request with ⟨_ | message, _ | _⟩ | ⟨_ | _⟩ | _
      case write.none.false | write.none.true | write.some.false | read.false =>
        exact .inl ⟨.errInval, rfl, rfl, by rintro ⟨⟩⟩
      case write.some.true => exact .inr ⟨rfl, .inl ⟨message, rfl, rfl⟩⟩
      case read.true => exact .inr ⟨rfl, .inr (.inl ⟨rfl, rfl⟩)⟩
      case close => exact .inr ⟨rfl, .inr (.inr ⟨rfl, rfl⟩)⟩

/-- What a `write` or `closed` event has to be passed, for the given callbacks. -/
def PassesOwn (l : CallLog μ) (invocations : List (Invocation Nat μ)) : Prop :=
  ∀ x ∈ invocations, x.event ≠ .read → ∀ message given rc,
    l.calls[x.cb]? = some ⟨.write (some message) given, rc⟩ → x.message = some message

theorem Kept.exact_iff {l : CallLog μ} (hl : l.Kept) :
    l.Exact ↔ l.PassesOwn l.invocations := by
  constructor
  · exact Exact.own
  · intro hown
    have hsum : ∀ i r, l.calls[i]? = some r →
        l.invoked i + l.parked i = if r.accepted then 1 else 0 := by
      intro i r hcall
      rw [← count_places, hl.counted i, acceptedAt, hcall]
      rfl
    refine ⟨?_, ?_, hown⟩
    · intro i r hcall haccepted
      rw [hsum i r hcall, if_pos haccepted]
    · rintro i ⟨request, rc⟩ hcall rfl
      have hnone : CallRecord.accepted ⟨request, .errClosed⟩ = false := by
        cases request <;> rfl
      have := hsum i _ hcall
      rw [hnone] at this
      simp only [Bool.false_eq_true, if_false] at this
      omega

theorem Kept.calls_of_invocation {l : CallLog μ} (hl : l.Kept) {x : Invocation Nat μ}
    (hx : x ∈ l.invocations) : x.cb < l.calls.length := by
  have hplace : x.cb ∈ l.places :=
    List.mem_append_left _ (List.mem_map_of_mem hx)
  have hpos : 0 < l.places.count x.cb := List.count_pos_iff.mpr hplace
  rw [hl.counted] at hpos
  by_contra hge
  simp [acceptedAt, List.getElem?_eq_none (Nat.le_of_not_lt hge)] at hpos

theorem Kept.passesOwn_record {l : CallLog μ} (hl : l.Kept) (hown : l.PassesOwn l.invocations)
    (request : Request μ) (res : CallResult Nat μ) :
    (l.record request res).PassesOwn (l.record request res).invocations ↔
      (l.record request res).PassesOwn res.invocations := by
  constructor
  · intro h x hx
    exact h x (List.mem_append_right _ hx)
  · intro h x hx
    rcases List.mem_append.mp hx with hold | hnew
    · intro hevent message given rc hcall
      have hlt := hl.calls_of_invocation hold
      rw [CallLog.record, List.getElem?_append_left hlt] at hcall
      exact hown x hold hevent message given rc hcall
    · exact h x hnew

/-! ### The steps -/

theorem Kept.exact_record {l : CallLog μ} (hl : l.Kept) (hexact : l.Exact) {request : Request μ}
    {res : CallResult Nat μ} (hnext : (l.record request res).Kept) :
    (l.record request res).Exact ↔ (l.record request res).PassesOwn res.invocations := by
  rw [hnext.exact_iff]
  exact hl.passesOwn_record hexact.own request res

theorem write_step {l : CallLog μ} (hl : l.Kept) (hopen : l.channel.status = .channelOpen)
    (message : μ) :
    ∃ res, channelWrite l.channel (some message) (some l.calls.length) = some res ∧
      (l.record (.write (some message) true) res).Kept ∧
      (l.record (.write (some message) true) res).PassesOwn res.invocations := by
  obtain ⟨res, hres, hrendezvous, hstatus, hrc, hperm, htold, hreaders, hwriters⟩ :=
    channelWrite_callbacks hl.rendezvous hopen message l.calls.length
  have haccepted : CallRecord.accepted ⟨.write (some message) true, res.rc⟩ = true :=
    decide_eq_true hrc
  refine ⟨res, hres, ?_, ?_⟩
  · apply hl.record hrendezvous
    · intro hclosed
      rw [hstatus] at hclosed
      cases hclosed
    · rw [haccepted]
      exact hperm
    · exact fun r hr => .inl (hreaders r hr)
    · intro w hw
      rcases hwriters w hw with hold | rfl
      · exact .inl hold
      · exact .inr ⟨message, true, rfl, rfl⟩
  · intro x hx hevent other given rc hcall
    obtain ⟨hcb, hmessage⟩ := htold x hx hevent
    rw [hcb] at hcall
    simp only [record, List.getElem?_concat_length, Option.some.injEq, CallRecord.mk.injEq,
      Request.write.injEq] at hcall
    rw [hmessage, hcall.1.1]

theorem read_step {l : CallLog μ} (hl : l.Kept) (hopen : l.channel.status = .channelOpen) :
    ∃ res, channelRead l.channel (some l.calls.length) = some res ∧
      (l.record (.read true) res).Kept ∧
      ((l.record (.read true) res).PassesOwn res.invocations ↔
        l.TellsOwnMessage (.read true)) := by
  obtain ⟨res, hres, hrendezvous, hstatus, hrc, hperm, htold, hreaders, hwriters⟩ :=
    channelRead_callbacks hl.rendezvous hopen l.calls.length
  have haccepted : CallRecord.accepted (⟨.read true, res.rc⟩ : CallRecord μ) = true :=
    decide_eq_true hrc
  refine ⟨res, hres, ?_, ?_⟩
  · apply hl.record hrendezvous
    · intro hclosed
      rw [hstatus] at hclosed
      cases hclosed
    · rw [haccepted]
      exact hperm
    · intro r hr
      rcases hreaders r hr with hold | rfl
      · exact .inl hold
      · exact .inr ⟨rfl, true, rfl⟩
    · exact fun w hw => .inl (hwriters w hw)
  · cases hw : l.channel.writers.head? with
    | none =>
        simp only [hw, Option.toList_none, List.map_nil, List.filter_eq_nil_iff,
          decide_eq_true_eq, ne_eq, not_not] at htold
        apply iff_of_true
        · intro x hx hevent
          exact absurd (htold x hx) hevent
        · simp [TellsOwnMessage, hw]
    | some w =>
        simp only [hw, Option.toList_some, List.map_cons, List.map_nil] at htold
        obtain ⟨given, rc, hcall⟩ := hl.writers w (List.mem_of_head? hw)
        have hcall' : (l.record (.read true) res).calls[w.cb]? =
            some ⟨.write (some w.message) given, rc⟩ := l.record_calls hcall
        constructor
        · intro hown m hm other hother
          rw [hw] at hother
          cases hother
          have hx : ⟨w.cb, some (l.channel.messages.head?.getD w.message), .write⟩ ∈
              res.invocations.filter fun x => x.event ≠ .read := by
            rw [htold]
            exact List.mem_singleton_self _
          have hmessage := hown _ (List.mem_of_mem_filter hx) (by simp) w.message given rc hcall'
          simp only [Option.mem_def.mp hm, Option.getD_some, Option.some.injEq] at hmessage
          exact hmessage.symm
        · intro hguard x hx hevent message given' rc' hcallx
          have hx' : x ∈ res.invocations.filter fun x => x.event ≠ .read :=
            List.mem_filter.mpr ⟨hx, by simpa using hevent⟩
          rw [htold, List.mem_singleton] at hx'
          subst hx'
          rw [hcall'] at hcallx
          cases hcallx
          cases hm : l.channel.messages.head? with
          | none => rfl
          | some m => simp [hguard m hm w hw]

theorem close_step {l : CallLog μ} (hl : l.Kept) (hopen : l.channel.status = .channelOpen) :
    (l.record .close ⟨(channelClose l.channel).1, .success, (channelClose l.channel).2.2⟩).Kept ∧
      (l.record .close
        ⟨(channelClose l.channel).1, .success, (channelClose l.channel).2.2⟩).PassesOwn
          (channelClose l.channel).2.2 := by
  obtain ⟨hclosed, hempty, hcalled, htold⟩ := channelClose_callbacks hopen
  have hqueues : (channelClose l.channel).1.readers = [] ∧
      (channelClose l.channel).1.writers = [] := by
    simpa [Channel.callbacks] using hempty
  constructor
  · apply hl.record (channelClose_rendezvous hl.rendezvous)
    · exact fun _ => hempty
    · rw [hcalled, hempty, List.append_nil]
      exact List.Perm.refl _
    · simp [hqueues]
    · simp [hqueues]
  · intro x hx _ message given rc hcall
    rcases htold x hx with ⟨r, hr, rfl⟩ | ⟨w, hw, rfl⟩
    · obtain ⟨given', rc', hcall'⟩ := hl.readers r hr
      rw [l.record_calls hcall'] at hcall
      cases hcall
    · obtain ⟨given', rc', hcall'⟩ := hl.writers w hw
      rw [l.record_calls hcall'] at hcall
      cases hcall
      rfl

/-- A step keeps the books, and tells every writer its own message exactly when the guard
admits it. -/
theorem call_step {l : CallLog μ} (hl : l.Kept) (request : Request μ) :
    ∃ next, l.call request = some next ∧ next.Kept ∧
      (l.Exact → (next.Exact ↔ l.TellsOwnMessage request)) := by
  rcases l.call_cases request with
    ⟨rc, hcall, hrefused, hread⟩ | ⟨hopen, ⟨message, rfl, hcall⟩ | ⟨rfl, hcall⟩ | ⟨rfl, hcall⟩⟩
  · have hnext : (l.record request ⟨l.channel, rc, []⟩).Kept := by
      apply hl.record hl.rendezvous hl.settled
      · simp [hrefused]
      · exact fun _ h => .inl h
      · exact fun _ h => .inl h
    refine ⟨_, hcall, hnext, ?_⟩
    intro hexact
    rw [hl.exact_record hexact hnext]
    apply iff_of_true
    · exact fun x hx => absurd hx List.not_mem_nil
    · rcases request with _ | ⟨_ | _⟩ | _
      case read.true =>
        have hempty := hl.settled (hread rfl)
        have hwriters : l.channel.writers = [] := by
          simp only [Channel.callbacks, List.append_eq_nil_iff, List.map_eq_nil_iff] at hempty
          exact hempty.2
        simp [TellsOwnMessage, hwriters]
      all_goals trivial
  · obtain ⟨res, hres, hnext, hown⟩ := write_step hl hopen message
    rw [hres] at hcall
    refine ⟨_, hcall, hnext, ?_⟩
    intro hexact
    rw [hl.exact_record hexact hnext]
    exact iff_of_true hown trivial
  · obtain ⟨res, hres, hnext, hown⟩ := read_step hl hopen
    rw [hres] at hcall
    refine ⟨_, hcall, hnext, ?_⟩
    intro hexact
    rw [hl.exact_record hexact hnext]
    exact hown
  · obtain ⟨hnext, hown⟩ := close_step hl hopen
    refine ⟨_, hcall, hnext, ?_⟩
    intro hexact
    rw [hl.exact_record hexact hnext]
    exact iff_of_true hown trivial

/-- For every buffer size and every sequence of calls: every call returns, and the callbacks are
exact in every state reached exactly if no `channel_read` finds a buffered message and a writer
parked with another message. -/
theorem exact_throughout_iff (size : Int) (requests : List (Request μ)) :
    (∃ final, run CallLog.call (start size) requests = some final) ∧
      (Throughout CallLog.call Exact (start size) requests ↔
        Respects CallLog.call TellsOwnMessage (start size) requests) := by
  constructor
  · apply run_total _ (start_kept size)
    intro l request hl
    obtain ⟨next, hcall, hnext, _⟩ := call_step hl request
    exact ⟨next, hcall, hnext⟩
  · refine throughout_iff_respects (I := fun l _ => l.Kept) ?_ ?_ (start_kept size) ?_
    · intro l request _ next hl _ hcall
      obtain ⟨_, hcall', hnext, _⟩ := call_step hl request
      obtain rfl := Option.some.inj (hcall'.symm.trans hcall)
      exact hnext
    · intro l request _ next hl hexact hcall
      obtain ⟨_, hcall', _, hiff⟩ := call_step hl request
      obtain rfl := Option.some.inj (hcall'.symm.trans hcall)
      exact hiff hexact
    · exact ⟨fun i r h => by simp [start] at h, fun i r h => by simp [start] at h,
        fun x hx => by simp [start] at hx⟩

/-- Buffer size 1, two writes and a read: the second writer is told the first message. -/
theorem exact_fails :
    ¬ ∀ (size : Int) (requests : List (Request Nat)) (final : CallLog Nat),
      run CallLog.call (start size) requests = some final → final.Exact := by
  intro hall
  have hexact := hall 1 [.write (some 10) true, .write (some 20) true, .read true] _ rfl
  have htold := hexact.own ⟨1, some 10, .write⟩ (by decide) (by decide) 20 true .errFull rfl
  cases htold

end CallLog

end Casting
