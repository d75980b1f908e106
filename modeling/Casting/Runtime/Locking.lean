import Casting.Framework.LockOrder
import Casting.Runtime.State

/-!
# The spin locks of the library

What the functions of `lc_thread.c`, `lc_task.c`, `lc_session.c` and `lc_channel.c` do with locks,
whatever they find when they look at the shared state.  Each of the tables has a lock, and so have
every session, every channel and the thread pool.  A function is the list of its lock actions; what
it finds, and the Lua code that it calls, are parameters.
-/

namespace Casting.Locking

open LockOrder Transition Casting.Runtime

inductive SpinLock
  | sessions
  | tasks
  | channels
  | session (sid : SessionId)
  | channel (cid : ChannelId)
  | pool
  deriving DecidableEq, Repr

abbrev Trace := List (Action SpinLock)

/-! ### `lc_thread.c` -/

def lcThreadpoolRun : Trace := holding .pool []

def lcThreadpoolSetThreads : Trace := holding .pool []

/-- `next_job`: waits that time out, and one that does not, unless the thread is to end. -/
def nextJob (timeouts : ℕ) (granted : Bool) : Trace :=
  (List.replicate timeouts (.wait :: holding .pool [])).flatten ++
    if granted then .wait :: holding .pool [] else []

/-! ### `lc_task.c` and `lc_session.c` -/

def taskRef : Trace := holding .tasks []

def taskFree : Trace := holding .tasks []

def taskNew : Trace := holding .tasks []

def sessionRef : Trace := holding .sessions []

/-- `session_free`; `closing` is what `lua_close` does if this was the last reference. -/
def sessionFree (closing : Trace) : Trace := holding .sessions closing

def sessionNew : Trace := holding .sessions []

/-- How `session_queue_task` goes. -/
inductive QueueTask
  | noTask
  | noSession
  | queued (sid : SessionId) (submits : Bool) (closing : Trace)

def sessionQueueTask : QueueTask → Trace
  | .noTask => taskRef
  | .noSession => taskRef ++ sessionRef ++ taskFree
  | .queued sid submits closing =>
      taskRef ++ sessionRef ++ taskFree ++
        holding (.session sid) (if submits then lcThreadpoolRun else []) ++ sessionFree closing

/-- How `task_resume` goes. -/
inductive Resume
  | noTask
  | ended
  | queue (q : QueueTask)

def taskResume : Resume → Trace
  | .noTask => taskRef
  | .ended => taskRef ++ taskFree
  | .queue q => taskRef ++ taskFree ++ sessionQueueTask q

/-- `task_yield`, with whether it finds the task. -/
def taskYield (found : Bool) : Trace := taskRef ++ if found then taskFree else []

/-- `task_run`; `code` is what the coroutine does, if it is resumed. -/
def taskRun : Option Trace → Trace
  | none => taskRef
  | some code => taskRef ++ code ++ taskFree

/-- How `session_run` goes. -/
inductive SessionRun
  | gone
  | busy (sid : SessionId) (closing : Trace)
  | ran (sid : SessionId) (job : Option (Option Trace)) (resubmits : Bool) (closing : Trace)

def sessionRun : SessionRun → Trace
  | .gone => sessionRef
  | .busy sid closing => sessionRef ++ holding (.session sid) [] ++ sessionFree closing
  | .ran sid job resubmits closing =>
      sessionRef ++ holding (.session sid) [] ++ (job.map taskRun).getD [] ++
        holding (.session sid) (if resubmits then lcThreadpoolRun else []) ++ sessionFree closing

def sessionWait (closing : Trace) : Trace := sessionRef ++ [.wait] ++ sessionFree closing

/-! ### `lc_channel.c` -/

def channelFind : Trace := holding .channels []

def channelRef : Trace := holding .channels []

/-- `channel_free`; the callbacks of a channel that is destroyed are told `closed` and take no
lock. -/
def channelFree : Trace := holding .channels []

def channelNew : Trace := holding .channels [] ++ channelFind

def channelClose (cid : ChannelId) : Trace := holding (.channel cid) []

def channelCount : Option ChannelId → Trace
  | none => channelRef
  | some cid => channelRef ++ holding (.channel cid) [] ++ channelFree

/-- How `channel_write` and `channel_read` go: the channel is closed, or they pass the locked
section and make callbacks. -/
inductive Passing
  | closed
  | passed (cid : ChannelId) (callbacks : Trace)

def channelWrite : Passing → Trace
  | .closed => []
  | .passed cid callbacks => holding (.channel cid) [] ++ callbacks

def channelRead : Passing → Trace
  | .closed => []
  | .passed cid callbacks => holding (.channel cid) [] ++ callbacks

/-- `session_callback`; `loads` is what Lua code does while a message is decoded. -/
def sessionCallback (loads : Trace) : Trace := loads

/-- `task_callback`, without the `closed` event. -/
def taskCallback (r : Resume) : Trace := taskResume r

/-- How `luac_write` and `luac_read` go. -/
inductive Access
  | invalid
  | closed
  | task (p : Passing) (found : Bool)
  | plain (p : Passing) (full : Bool)

/-- `luac_write`; `saves` is what Lua code does while the message is encoded. -/
def luacWrite (saves : Trace) : Access → Trace
  | .invalid => channelRef
  | .closed => channelRef ++ channelFree
  | .task p found => channelRef ++ saves ++ channelWrite p ++ channelFree ++ taskYield found
  | .plain p full =>
      channelRef ++ saves ++ channelWrite p ++ (if full then [.wait] else []) ++ channelFree

/-- `luac_read`; it compares with `ERR_FULL`, which `channel_read` never returns. -/
def luacRead : Access → Trace
  | .invalid => channelRef
  | .closed => channelRef ++ channelFree
  | .task p found => channelRef ++ channelRead p ++ channelFree ++ taskYield found
  | .plain p _ => channelRef ++ channelRead p ++ channelFree

def luaCNew : Trace := channelNew

def luaCConnect : Trace := channelRef

def luacClose : Option ChannelId → Trace
  | none => channelRef
  | some cid => channelRef ++ channelClose cid ++ channelFree

def luacStatus : Trace := channelRef ++ channelFree

def luacDestroy : Trace := channelFind ++ channelFree

def luacLoad : Trace := channelRef

def luacSize (found : Option ChannelId) : Trace := channelCount found

def luaSNewsession : Trace := sessionNew

def luaSCreatetask (saves : Trace) (r : Resume) : Trace := saves ++ taskNew ++ taskResume r

/-- `luaS_close`: `session_close` is `session_free`, which never returns a session. -/
def luaSClose (closing : Trace) : Trace := sessionFree closing

def luasWait (closing : Trace) : Trace := sessionWait closing

def luasDestroy (closing : Trace) : Trace := sessionFree closing

def luatResume (saves : Trace) (r : Resume) : Trace := saves ++ taskResume r

def luatDestroy : Trace := taskFree

def luaTSetThreads : Trace := lcThreadpoolSetThreads

/-! ### What threads do -/

/-- What `lua_close` does: the finalizers of the handles that the state owns, in any order.
`sessions` says whether handles of sessions may be among them. -/
inductive Closing (sessions : Bool) : Trace → Prop
  | nil : Closing sessions []
  | task {t : Trace} : Closing sessions t → Closing sessions (luatDestroy ++ t)
  | channel {t : Trace} : Closing sessions t → Closing sessions (luacDestroy ++ t)
  | session {closing t : Trace} : sessions = true → Closing sessions closing →
      Closing sessions t → Closing sessions (luasDestroy closing ++ t)

variable {sessions : Bool}

def QueueTask.Possible (sessions : Bool) : QueueTask → Prop
  | .noTask | .noSession => True
  | .queued _ _ closing => Closing sessions closing

def Resume.Possible (sessions : Bool) : Resume → Prop
  | .noTask | .ended => True
  | .queue q => q.Possible sessions

mutual

/-- What Lua code can do: calls of the library, one after the other. -/
inductive LuaCode (sessions : Bool) : Trace → Prop
  | nil : LuaCode sessions []
  | luaCNew {t : Trace} : LuaCode sessions t → LuaCode sessions (luaCNew ++ t)
  | luaCConnect {t : Trace} : LuaCode sessions t → LuaCode sessions (luaCConnect ++ t)
  | luacClose {t : Trace} (found : Option ChannelId) : LuaCode sessions t →
      LuaCode sessions (luacClose found ++ t)
  | luacStatus {t : Trace} : LuaCode sessions t → LuaCode sessions (luacStatus ++ t)
  | luacDestroy {t : Trace} : LuaCode sessions t → LuaCode sessions (luacDestroy ++ t)
  | luacLoad {t : Trace} : LuaCode sessions t → LuaCode sessions (luacLoad ++ t)
  | luacSize {t : Trace} (found : Option ChannelId) : LuaCode sessions t →
      LuaCode sessions (luacSize found ++ t)
  | luacWrite {saves t : Trace} {a : Access} : LuaCode sessions saves → Accesses sessions a →
      LuaCode sessions t → LuaCode sessions (luacWrite saves a ++ t)
  | luacRead {t : Trace} {a : Access} : Accesses sessions a → LuaCode sessions t →
      LuaCode sessions (luacRead a ++ t)
  | luaSNewsession {t : Trace} : LuaCode sessions t → LuaCode sessions (luaSNewsession ++ t)
  | luaSCreatetask {saves t : Trace} {r : Resume} : LuaCode sessions saves →
      r.Possible sessions → LuaCode sessions t → LuaCode sessions (luaSCreatetask saves r ++ t)
  | luaSClose {closing t : Trace} : Closing sessions closing → LuaCode sessions t →
      LuaCode sessions (luaSClose closing ++ t)
  | luasWait {closing t : Trace} : Closing sessions closing → LuaCode sessions t →
      LuaCode sessions (luasWait closing ++ t)
  | luasDestroy {closing t : Trace} : Closing sessions closing → LuaCode sessions t →
      LuaCode sessions (luasDestroy closing ++ t)
  | luatResume {saves t : Trace} {r : Resume} : LuaCode sessions saves → r.Possible sessions →
      LuaCode sessions t → LuaCode sessions (luatResume saves r ++ t)
  | luatDestroy {t : Trace} : LuaCode sessions t → LuaCode sessions (luatDestroy ++ t)
  | luaTSetThreads {t : Trace} : LuaCode sessions t → LuaCode sessions (luaTSetThreads ++ t)

inductive Accesses (sessions : Bool) : Access → Prop
  | invalid : Accesses sessions .invalid
  | closed : Accesses sessions .closed
  | taskClosed (found : Bool) : Accesses sessions (.task .closed found)
  | task {callbacks : Trace} (cid : ChannelId) (found : Bool) : Callbacks sessions callbacks →
      Accesses sessions (.task (.passed cid callbacks) found)
  | plainClosed (full : Bool) : Accesses sessions (.plain .closed full)
  | plain {callbacks : Trace} (cid : ChannelId) (full : Bool) : Callbacks sessions callbacks →
      Accesses sessions (.plain (.passed cid callbacks) full)

inductive Callbacks (sessions : Bool) : Trace → Prop
  | nil : Callbacks sessions []
  | session {loads t : Trace} : LuaCode sessions loads → Callbacks sessions t →
      Callbacks sessions (sessionCallback loads ++ t)
  | task {t : Trace} {r : Resume} : r.Possible sessions → Callbacks sessions t →
      Callbacks sessions (taskCallback r ++ t)

end

inductive SessionRuns (sessions : Bool) : SessionRun → Prop
  | gone : SessionRuns sessions .gone
  | busy {closing : Trace} (sid : SessionId) : Closing sessions closing →
      SessionRuns sessions (.busy sid closing)
  | noJob {closing : Trace} (sid : SessionId) (resubmits : Bool) : Closing sessions closing →
      SessionRuns sessions (.ran sid none resubmits closing)
  | noTask {closing : Trace} (sid : SessionId) (resubmits : Bool) : Closing sessions closing →
      SessionRuns sessions (.ran sid (some none) resubmits closing)
  | job {code closing : Trace} (sid : SessionId) (resubmits : Bool) : LuaCode sessions code →
      Closing sessions closing →
        SessionRuns sessions (.ran sid (some (some code)) resubmits closing)

/-- What a thread of the host does, and what a `pool_thread` does with each job it gets. -/
inductive Program (sessions : Bool) : Trace → Prop
  | host {t : Trace} : LuaCode sessions t → Program sessions t
  | quit (timeouts : ℕ) : Program sessions (nextJob timeouts false)
  | turn {r : SessionRun} {t : Trace} (timeouts : ℕ) : SessionRuns sessions r →
      Program sessions t → Program sessions (nextJob timeouts true ++ sessionRun r ++ t)

/-! ### The order of the locks -/

/-- The pool, the channels and the tables of tasks and channels come after the sessions and their
table. -/
def SpinLock.rank : SpinLock → ℕ
  | .sessions | .session _ => 0
  | .tasks | .channels | .channel _ | .pool => 1

def Before (h l : SpinLock) : Prop := h.rank < l.rank

theorem before_wellFounded : WellFounded fun a b => Before b a := by
  apply Subrelation.wf (r := fun a b : SpinLock => 1 - a.rank < 1 - b.rank) _
    (InvImage.wf _ Nat.lt_wfRel.wf)
  intro a b hab
  have hb : b.rank < a.rank := hab
  have ha : a.rank ≤ 1 := by cases a <;> simp [SpinLock.rank]
  omega

/-- What a thread may ask for: what comes later, and where states own sessions also what it
holds. -/
def May (sessions : Bool) (h l : SpinLock) : Prop := Before h l ∨ (sessions = true ∧ h = l)

theorem fits_section (l : SpinLock) : Fits (May sessions) [] (holding l []) :=
  Fits.holding (by simp) fits_nil

theorem fits_leaf {h l : SpinLock} (hbefore : Before h l) :
    Fits (May sessions) [h] (holding l []) :=
  Fits.holding (by simpa using .inl hbefore) fits_nil

theorem Closing.fits {t : Trace} (h : Closing sessions t) :
    Fits (May sessions) [.sessions] t := by
  have hfits : ∀ held, (∀ x ∈ held, x = SpinLock.sessions) → Fits (May sessions) held t := by
    induction h with
    | nil => exact fun _ _ => fits_nil
    | task _ ih =>
        intro held hheld
        refine Fits.append (Fits.holding ?_ fits_nil) (ih held hheld)
        intro x hx
        exact .inl (hheld x hx ▸ Nat.zero_lt_one)
    | channel _ ih =>
        intro held hheld
        have hsection : Fits (May sessions) held (holding .channels []) := by
          refine Fits.holding ?_ fits_nil
          intro x hx
          exact .inl (hheld x hx ▸ Nat.zero_lt_one)
        exact (hsection.append hsection).append (ih held hheld)
    | session hsessions _ _ ihclosing ih =>
        intro held hheld
        refine Fits.append (Fits.holding ?_ (ihclosing _ ?_)) (ih held hheld)
        · intro x hx
          exact .inr ⟨hsessions, hheld x hx⟩
        · intro x hx
          rcases List.mem_cons.mp hx with rfl | hx
          · rfl
          · exact hheld x hx
  exact hfits _ (by simp)

theorem fits_sessionFree {closing : Trace} (h : Closing sessions closing) :
    Fits (May sessions) [] (sessionFree closing) := Fits.holding (by simp) h.fits

theorem fits_submit (sid : SessionId) (submits : Bool) :
    Fits (May sessions) [] (holding (.session sid) (if submits then lcThreadpoolRun else [])) := by
  refine Fits.holding (by simp) ?_
  cases submits
  · exact fits_nil
  · exact fits_leaf (Nat.zero_lt_one : Before (.session sid) .pool)

theorem fits_sections (l l' : SpinLock) :
    Fits (May sessions) [] (holding l [] ++ holding l' []) :=
  (fits_section l).append (fits_section l')

theorem QueueTask.Possible.fits {q : QueueTask} (h : q.Possible sessions) :
    Fits (May sessions) [] (sessionQueueTask q) := by
  have hrefs : Fits (May sessions) [] (taskRef ++ sessionRef ++ taskFree) :=
    (fits_sections .tasks .sessions).append (fits_section .tasks)
  cases q with
  | noTask => exact fits_section .tasks
  | noSession => exact hrefs
  | queued sid submits closing =>
      exact (hrefs.append (fits_submit sid submits)).append (fits_sessionFree h)

theorem Resume.Possible.fits {r : Resume} (h : r.Possible sessions) :
    Fits (May sessions) [] (taskResume r) := by
  cases r with
  | noTask => exact fits_section .tasks
  | ended => exact fits_sections .tasks .tasks
  | queue q => exact (fits_sections .tasks .tasks).append (QueueTask.Possible.fits h)

theorem fits_taskYield (found : Bool) : Fits (May sessions) [] (taskYield found) := by
  cases found
  · exact (fits_section .tasks).append fits_nil
  · exact fits_sections .tasks .tasks

theorem fits_luacClose (found : Option ChannelId) :
    Fits (May sessions) [] (luacClose found) := by
  cases found with
  | none => exact fits_section .channels
  | some cid => exact (fits_sections .channels (.channel cid)).append (fits_section .channels)

theorem fits_luacSize (found : Option ChannelId) : Fits (May sessions) [] (luacSize found) := by
  cases found with
  | none => exact fits_section .channels
  | some cid => exact (fits_sections .channels (.channel cid)).append (fits_section .channels)

theorem fits_luasWait {closing : Trace} (h : Closing sessions closing) :
    Fits (May sessions) [] (luasWait closing) :=
  ((fits_section .sessions).append fits_wait).append (fits_sessionFree h)

theorem fits_passed (cid : ChannelId) {callbacks : Trace}
    (h : Fits (May sessions) [] callbacks) :
    Fits (May sessions) [] (channelWrite (.passed cid callbacks)) :=
  (fits_section (.channel cid)).append h

theorem fits_access {saves : Trace} {p : Passing} (hsaves : Fits (May sessions) [] saves)
    (hp : Fits (May sessions) [] (channelWrite p)) :
    (∀ found, Fits (May sessions) [] (luacWrite saves (.task p found)) ∧
      Fits (May sessions) [] (luacRead (.task p found))) ∧
    ∀ full, Fits (May sessions) [] (luacWrite saves (.plain p full)) ∧
      Fits (May sessions) [] (luacRead (.plain p full)) := by
  have hread : Fits (May sessions) [] (channelRead p) := by
    cases p
    · exact hp
    · exact hp
  have hwritten : Fits (May sessions) [] (channelRef ++ saves ++ channelWrite p) :=
    ((fits_section .channels).append hsaves).append hp
  have hgot : Fits (May sessions) [] (channelRef ++ channelRead p ++ channelFree) :=
    ((fits_section .channels).append hread).append (fits_section .channels)
  constructor
  · intro found
    exact ⟨(hwritten.append (fits_section .channels)).append (fits_taskYield found),
      hgot.append (fits_taskYield found)⟩
  · intro full
    have hwait : Fits (May sessions) [] (if full then [.wait] else []) := by
      cases full
      · exact fits_nil
      · exact fits_wait
    exact ⟨(hwritten.append hwait).append (fits_section .channels), hgot⟩

mutual

theorem LuaCode.fits {t : Trace} : LuaCode sessions t → Fits (May sessions) [] t
  | .nil => fits_nil
  | .luaCNew h => (fits_sections .channels .channels).append h.fits
  | .luaCConnect h => (fits_section .channels).append h.fits
  | .luacClose found h => (fits_luacClose found).append h.fits
  | .luacStatus h => (fits_sections .channels .channels).append h.fits
  | .luacDestroy h => (fits_sections .channels .channels).append h.fits
  | .luacLoad h => (fits_section .channels).append h.fits
  | .luacSize found h => (fits_luacSize found).append h.fits
  | .luacWrite hsaves ha h => (ha.fits hsaves.fits).1.append h.fits
  | .luacRead ha h => (ha.fits fits_nil).2.append h.fits
  | .luaSNewsession h => (fits_section .sessions).append h.fits
  | .luaSCreatetask hsaves hr h =>
      ((hsaves.fits.append (fits_section .tasks)).append hr.fits).append h.fits
  | .luaSClose hclosing h => (fits_sessionFree hclosing).append h.fits
  | .luasWait hclosing h => (fits_luasWait hclosing).append h.fits
  | .luasDestroy hclosing h => (fits_sessionFree hclosing).append h.fits
  | .luatResume hsaves hr h => (hsaves.fits.append hr.fits).append h.fits
  | .luatDestroy h => (fits_section .tasks).append h.fits
  | .luaTSetThreads h => (fits_section .pool).append h.fits

theorem Accesses.fits {a : Access} {saves : Trace} (hsaves : Fits (May sessions) [] saves) :
    Accesses sessions a →
      Fits (May sessions) [] (luacWrite saves a) ∧ Fits (May sessions) [] (luacRead a)
  | .invalid => ⟨fits_section .channels, fits_section .channels⟩
  | .closed => ⟨fits_sections .channels .channels, fits_sections .channels .channels⟩
  | .taskClosed found => (fits_access hsaves fits_nil).1 found
  | .task cid found h => (fits_access hsaves (fits_passed cid h.fits)).1 found
  | .plainClosed full => (fits_access hsaves fits_nil).2 full
  | .plain cid full h => (fits_access hsaves (fits_passed cid h.fits)).2 full

theorem Callbacks.fits {t : Trace} : Callbacks sessions t → Fits (May sessions) [] t
  | .nil => fits_nil
  | .session hloads h => hloads.fits.append h.fits
  | .task hr h => hr.fits.append h.fits

end

theorem SessionRuns.fits {r : SessionRun} (h : SessionRuns sessions r) :
    Fits (May sessions) [] (sessionRun r) := by
  have hran : ∀ (sid : SessionId) (resubmits : Bool) {task closing : Trace},
      Fits (May sessions) [] task → Closing sessions closing →
      Fits (May sessions) [] (sessionRef ++ holding (.session sid) [] ++ task ++
        holding (.session sid) (if resubmits then lcThreadpoolRun else []) ++
          sessionFree closing) := by
    intro sid resubmits task closing htask hclosing
    exact (((fits_sections .sessions (.session sid)).append htask).append
      (fits_submit sid resubmits)).append (fits_sessionFree hclosing)
  cases h with
  | gone => exact fits_section .sessions
  | busy sid hclosing =>
      exact (fits_sections .sessions (.session sid)).append (fits_sessionFree hclosing)
  | noJob sid resubmits hclosing => exact hran sid resubmits fits_nil hclosing
  | noTask sid resubmits hclosing => exact hran sid resubmits (fits_section .tasks) hclosing
  | job sid resubmits hcode hclosing =>
      exact hran sid resubmits
        (((fits_section .tasks).append hcode.fits).append (fits_section .tasks)) hclosing

theorem fits_nextJob (timeouts : ℕ) (granted : Bool) :
    Fits (May sessions) [] (nextJob timeouts granted) := by
  have hturn : Fits (May sessions) [] (.wait :: holding .pool []) :=
    fits_wait.append (fits_section .pool)
  refine Fits.append ?_ ?_
  · induction timeouts with
    | zero => exact fits_nil
    | succ n ih =>
        rw [List.replicate_succ, List.flatten_cons]
        exact hturn.append ih
  · cases granted
    · exact fits_nil
    · exact hturn

/-- Whatever a thread does, it asks only for what it may ask for. -/
theorem Program.nested {t : Trace} (h : Program sessions t) :
    Nested (May sessions) [] t := by
  have hfits : Fits (May sessions) [] t := by
    induction h with
    | host h => exact h.fits
    | quit timeouts => exact fits_nextJob timeouts false
    | turn timeouts hr _ ih => exact ((fits_nextJob timeouts true).append hr.fits).append ih
  exact hfits.nested

variable {Thread : Type*} [DecidableEq Thread]

/-- From every state that any number of threads reach with the library's functions, all locks can
be given back without a semaphore being posted, exactly if no thread asks for a lock that it holds
itself: no threads ever wait for each other's locks in a circle. -/
theorem locksReleased_iff {trace : Thread → Trace} (h : ∀ th, Program true (trace th)) :
    (∀ steps s, run System.step (System.start trace) steps = some s →
      ∃ more final, run System.step s more = some final ∧ (∀ l, final.owner l = none) ∧
        ∀ th, (final.todo th).count .wait = (s.todo th).count .wait) ↔
      ∀ th, NoReentry [] (trace th) := by
  apply System.released_iff before_wellFounded
  intro th
  apply (h th).nested.mono
  rintro x l (hbefore | ⟨_, rfl⟩)
  · exact .inl hbefore
  · exact .inr rfl

/-- What a worker and the host do while a job writes to a channel and another one is queued. -/
def writeBesideResume (worker : Bool) : Trace :=
  if worker then
    nextJob 1 true ++
      sessionRun (.ran 0 (some (some (luacWrite [] (.task (.passed 0 []) true) ++ []))) true []) ++
        nextJob 0 false
  else luatResume [] (.queue (.queued 0 true [])) ++ []

theorem locksReleased_writeBesideResume :
    (∀ th, NoReentry [] (writeBesideResume th)) ∧
      ∀ steps s, run System.step (System.start writeBesideResume) steps = some s →
        ∃ more final, run System.step s more = some final ∧ (∀ l, final.owner l = none) ∧
          ∀ th, (final.todo th).count .wait = (s.todo th).count .wait := by
  have hfirst : ∀ th, NoReentry [] (writeBesideResume th) := by decide
  refine ⟨hfirst, (locksReleased_iff ?_).mpr hfirst⟩
  intro worker
  cases worker
  · exact .host (.luatResume .nil .nil .nil)
  · exact .turn 1 (.job 0 true (.luacWrite .nil (.task 0 true .nil) .nil) .nil) (.quit 0)

/-- Where no closed state owns a session, no thread ever asks for a lock that it holds. -/
theorem Program.noReentry {t : Trace} (h : Program false t) : NoReentry [] t := by
  refine h.nested.noReentry ?_
  rintro l (hbefore | ⟨hfalse, _⟩)
  · exact Nat.lt_irrefl _ hbefore
  · cases hfalse

end Casting.Locking
