import Nstd.Core.Simulation
import Nstd.Future.Reuse

/-!
# Joining a call, step by step

One thread uses a `Future`, and workers complete its calls.  Each step is one access to what they
share: a field, the mutex of the `Signal` or its condition variable.

* `User`, `Worker` — where the thread and the worker are.
* `user`, `work`, `broadcast` — their next steps.
* `Inv` — what holds at every step.
* `Refines` — what these steps are in `Future.step`, where `join` and `set` are seen as a whole.
* **`joining_refines`** — every run is one of `Future.system`.
* **`calls_return`** — a `join` that waits is woken, and no function waits for ever.
* **`destructor_returns`** — when the destructor has returned no worker has a call, but one may have yet
  to broadcast to the `Signal` that was destroyed.

`pthread_cond_wait` may return at any time, `abort` may be called by any thread, and the function that
is called returns.
-/

namespace Nstd.Joining

/-! ## The functions -/

/-- What calls `join` -/
inductive Caller
  | join
  | startProc
  | destructor
  deriving DecidableEq

/-- Where the thread is that uses the `Future`: the step that comes next -/
inductive User
  | idle
  /-- `if (_joinable)` -/
  | test (caller : Caller)
  /-- In `Signal::wait`: `pthread_mutex_lock` -/
  | lock (caller : Caller)
  /-- `if(signaled)` -/
  | check (caller : Caller)
  /-- Blocked in `pthread_cond_wait` -/
  | blocked (caller : Caller)
  /-- `pthread_cond_wait` has to lock the mutex again. -/
  | woken (caller : Caller)
  /-- `pthread_mutex_unlock` -/
  | unlock (caller : Caller)
  /-- In `Signal::reset`: `pthread_mutex_lock` -/
  | resetLock (caller : Caller)
  /-- `signaled = false` -/
  | reset (caller : Caller)
  /-- `pthread_mutex_unlock` -/
  | resetUnlock (caller : Caller)
  /-- `_joinable = false` -/
  | clear (caller : Caller)
  /-- In `startProc`: `_joinable = true` -/
  | setJoinable
  /-- `_aborting = false` -/
  | setAborting
  /-- `threadPool->run(proc, args)` -/
  | run
  /-- The destructor has returned. -/
  | destroyed
  deriving DecidableEq

/-- Where the worker is that has the call that was started last -/
inductive Worker
  /-- There is no such worker any more, or not yet. -/
  | none
  /-- `result = b->call()` -/
  | calling
  /-- In `Future<void>::set`: `_aborting` is read. -/
  | set
  /-- `Atomic::swap(_state, state)` -/
  | swap (state : CallState)
  /-- In `Signal::set`: `pthread_mutex_lock` -/
  | lock
  /-- `signaled = true` -/
  | store
  /-- `pthread_mutex_unlock` -/
  | unlock
  deriving DecidableEq

/-- Who may hold the mutex -/
inductive Thread
  | user
  | worker
  deriving DecidableEq

/-- A `Future`, the thread that uses it and the workers.  `pending` workers of calls that were
    completed have yet to broadcast.  `calls` is the number of calls that were started, and `result`
    the call that has written the result. -/
structure State where
  future : Future
  mutex : Option Thread
  user : User
  worker : Worker
  pending : ℕ
  calls : ℕ
  result : ℕ

/-- `join` returns. -/
@[grind]
def State.joined (s : State) : Caller → State × List Future.Event
  | .join => ({ s with user := .idle }, [.join])
  | .startProc => ({ s with user := .setJoinable }, [])
  | .destructor => ({ s with user := .destroyed }, [.join])

/-- The mutex is locked, if it is free. -/
def State.lock (s : State) (thread : Thread) : Option State :=
  match s.mutex with
  | none => some { s with mutex := some thread }
  | some _ => none

/-- The next step of the thread -/
def user (s : State) : Option (State × List Future.Event) :=
  match s.user with
  | .idle => none
  | .test caller =>
    if s.future.joinable then some ({ s with user := .lock caller }, [])
    else some (s.joined caller)
  | .lock caller => (s.lock .user).map fun s => ({ s with user := .check caller }, [])
  | .check caller =>
    if s.future.sig then some ({ s with user := .unlock caller }, [])
    else some ({ s with mutex := none, user := .blocked caller }, [])
  | .blocked _ => none
  | .woken caller => (s.lock .user).map fun s => ({ s with user := .check caller }, [])
  | .unlock caller => some ({ s with mutex := none, user := .resetLock caller }, [])
  | .resetLock caller => (s.lock .user).map fun s => ({ s with user := .reset caller }, [])
  | .reset caller =>
    some ({ s with future := { s.future with sig := false }, user := .resetUnlock caller }, [])
  | .resetUnlock caller => some ({ s with mutex := none, user := .clear caller }, [])
  | .clear caller =>
    some ({ s with future := { s.future with joinable := false } }.joined caller)
  | .setJoinable =>
    some ({ s with future := { s.future with joinable := true }, user := .setAborting }, [])
  | .setAborting =>
    some ({ s with future := { s.future with aborting := false }, user := .run }, [.start])
  | .run => some ({ s with user := .idle, worker := .calling, calls := s.calls + 1 }, [])
  | .destroyed => none

/-- The next step of the worker -/
def work (s : State) : Option (State × List Future.Event) :=
  match s.worker with
  | .none => none
  | .calling => some ({ s with result := s.calls, worker := .set }, [])
  | .set =>
    let state := if s.future.aborting then CallState.abortedState else .finishedState
    some ({ s with worker := .swap state }, [.completed])
  | .swap state => some ({ s with future := { s.future with state }, worker := .lock }, [])
  | .lock => (s.lock .worker).map fun s => ({ s with worker := .store }, [])
  | .store =>
    some ({ s with future := { s.future with sig := true }, worker := .unlock }, [.signalled])
  | .unlock => some ({ s with mutex := none, worker := .none, pending := s.pending + 1 }, [])

/-- The thread that is blocked is woken. -/
@[grind]
def State.wake (s : State) : State :=
  match s.user with
  | .blocked caller => { s with user := .woken caller }
  | _ => s

/-- `pthread_cond_broadcast`, which is the last that a worker does with the `Future` -/
def broadcast (s : State) : Option (State × List Future.Event) :=
  match s.pending with
  | 0 => none
  | pending + 1 => some ({ s with pending }.wake, [])

/-- What may happen next -/
inductive Move
  /-- A function is called. -/
  | call (caller : Caller)
  | abort
  | user
  | work
  | broadcast
  /-- `pthread_cond_wait` returns though nobody has called `pthread_cond_broadcast`. -/
  | wake
  deriving DecidableEq

/-- One step -/
def step (s : State) : Move → Option (State × List Future.Event)
  | .call caller => if s.user = .idle then some ({ s with user := .test caller }, []) else none
  | .abort =>
    if s.user ≠ .destroyed then some ({ s with future := s.future.abort }, [.abort]) else none
  | .user => user s
  | .work => work s
  | .broadcast => broadcast s
  | .wake => some (s.wake, [])

/-- A `Future` that was constructed -/
def State.initial : State := ⟨.new, none, .idle, .none, 0, 0, 0⟩

/-- A `Future` and all that is done with it -/
def system : System State Future.Event where
  initial s := s = .initial
  step s es s' := ∃ m, step s m = some (s', es)

/-! ## What holds at every step -/

/-- The worker has yet to set the signal. -/
@[grind]
def Worker.Busy : Worker → Prop
  | .none => False
  | .unlock => False
  | _ => True

/-- A call was started that was not joined: the signal is set as soon as it is over. -/
@[grind]
def Open (s : State) : Prop :=
  s.future.joinable = true ∧ (s.worker.Busy ∧ s.future.sig = false
    ∨ ¬ s.worker.Busy ∧ s.future.sig = true)

/-- No worker has a call. -/
@[grind]
def Settled (s : State) (joinable sig : Bool) : Prop :=
  s.future.joinable = joinable ∧ s.future.sig = sig ∧ s.worker = .none

/-- What the fields say while the thread is somewhere -/
@[grind]
def At (s : State) : User → Prop
  | .idle => Settled s false false ∨ Open s
  | .test _ => Settled s false false ∨ Open s
  | .lock _ => Open s
  | .check _ => Open s
  | .blocked _ => Open s
  | .woken _ => Open s
  | .unlock _ => Settled s true true
  | .resetLock _ => Settled s true true
  | .reset _ => Settled s true true
  | .resetUnlock _ => Settled s true false
  | .clear _ => Settled s true false
  | .setJoinable => Settled s false false
  | .setAborting => Settled s true false
  | .run => Settled s true false
  | .destroyed => Settled s false false

/-- The thread has the mutex. -/
@[grind]
def User.holds : User → Bool
  | .check _ => true
  | .unlock _ => true
  | .reset _ => true
  | .resetUnlock _ => true
  | _ => false

/-- The worker has the mutex. -/
@[grind]
def Worker.holds : Worker → Bool
  | .store => true
  | .unlock => true
  | _ => false

/-- **The invariant** -/
structure Inv (s : State) : Prop where
  fields : At s s.user
  userMutex : s.mutex = some .user ↔ s.user.holds = true
  workerMutex : s.mutex = some .worker ↔ s.worker.holds = true
  /-- A thread that is blocked though the signal is set will be woken. -/
  wakes : ∀ caller, s.user = .blocked caller → s.future.sig = true →
    s.worker = .unlock ∨ 0 < s.pending
  result : s.worker ≠ .calling → s.result = s.calls

lemma lock_eq_some {s s' : State} {thread : Thread} (h : s.lock thread = some s') :
    s.mutex = none ∧ s' = { s with mutex := some thread } := by
  rw [State.lock] at h
  cases hmutex : s.mutex with
  | none =>
    rw [hmutex] at h
    exact ⟨rfl, (Option.some_inj.mp h).symm⟩
  | some other =>
    rw [hmutex] at h
    exact absurd h.symm (Option.some_ne_none s')

lemma At.congr {s s' : State} {u : User} (h : At s u)
    (hjoinable : s'.future.joinable = s.future.joinable) (hsig : s'.future.sig = s.future.sig)
    (hworker : s'.worker = s.worker) : At s' u := by
  cases u <;> grind

/-- A worker has the call: it is open, and nothing more is said wherever the thread is. -/
lemma At.of_worker {s : State} {u : User} (h : At s u) (hworker : s.worker ≠ .none) :
    Open s ∧ ∀ s', Open s' → At s' u := by
  cases u <;> grind

namespace Inv

variable {s s' : State} {es : List Future.Event}

/-- **The thread** takes a step. -/
theorem user (h : Inv s) (hstep : user s = some (s', es)) : Inv s' := by
  obtain ⟨hfields, huser, hworker, hwakes, hresult⟩ := h
  rw [Joining.user] at hstep
  cases hpoint : s.user with
  | idle => simp [hpoint] at hstep
  | blocked caller => simp [hpoint] at hstep
  | destroyed => simp [hpoint] at hstep
  | test caller =>
    simp only [hpoint] at hfields huser hstep
    split_ifs at hstep
    · obtain ⟨rfl, -⟩ := Prod.mk.inj (Option.some_inj.mp hstep)
      constructor <;> grind
    · obtain rfl := congrArg Prod.fst (Option.some_inj.mp hstep)
      cases caller <;> constructor <;> grind
  | check caller =>
    simp only [hpoint] at hfields huser hstep
    -- a thread that blocks has seen that the signal is not set
    split_ifs at hstep <;>
      · obtain ⟨rfl, -⟩ := Prod.mk.inj (Option.some_inj.mp hstep)
        constructor <;> grind
  | clear caller =>
    simp only [hpoint] at hfields huser hstep
    obtain rfl := congrArg Prod.fst (Option.some_inj.mp hstep)
    cases caller <;> constructor <;> grind
  | lock caller | woken caller | resetLock caller =>
    simp only [hpoint] at hfields huser hstep
    obtain ⟨s₁, hlock, hs'⟩ := Option.map_eq_some_iff.mp hstep
    obtain ⟨hmutex, rfl⟩ := lock_eq_some hlock
    obtain ⟨rfl, -⟩ := Prod.mk.inj hs'
    constructor <;> grind
  | _ =>
    simp only [hpoint] at hfields huser hstep
    obtain ⟨rfl, -⟩ := Prod.mk.inj (Option.some_inj.mp hstep)
    constructor <;> grind

/-- **The worker** takes a step. -/
theorem work (h : Inv s) (hstep : work s = some (s', es)) : Inv s' := by
  obtain ⟨hfields, huser, hworker, hwakes, hresult⟩ := h
  rw [Joining.work] at hstep
  cases hpoint : s.worker with
  | none => simp [hpoint] at hstep
  | lock =>
    obtain ⟨hopen, hat⟩ := hfields.of_worker (by simp [hpoint])
    simp only [hpoint] at hworker hstep
    obtain ⟨s₁, hlock, hs'⟩ := Option.map_eq_some_iff.mp hstep
    obtain ⟨hmutex, rfl⟩ := lock_eq_some hlock
    obtain ⟨rfl, -⟩ := Prod.mk.inj hs'
    refine ⟨hat _ (by grind), ?_, ?_, ?_, ?_⟩ <;> grind
  | _ =>
    obtain ⟨hopen, hat⟩ := hfields.of_worker (by simp [hpoint])
    simp only [hpoint] at hworker hstep
    obtain ⟨rfl, -⟩ := Prod.mk.inj (Option.some_inj.mp hstep)
    refine ⟨hat _ (by grind), ?_, ?_, ?_, ?_⟩ <;> grind

/-- The thread is woken, and then nobody has to wake it. -/
lemma wake (h : Inv s) (pending : ℕ) : Inv { s with pending }.wake := by
  obtain ⟨hfields, huser, hworker, hwakes, hresult⟩ := h
  cases hpoint : s.user <;> constructor <;> grind

/-- **One step** -/
theorem step (h : Inv s) {m : Move} (hstep : step s m = some (s', es)) : Inv s' := by
  cases m with
  | user => exact h.user hstep
  | work => exact h.work hstep
  | call caller =>
    simp only [Joining.step] at hstep
    split_ifs at hstep with hidle
    obtain ⟨rfl, -⟩ := Prod.mk.inj (Option.some_inj.mp hstep)
    obtain ⟨hfields, huser, hworker, hwakes, hresult⟩ := h
    constructor <;> grind
  | abort =>
    simp only [Joining.step] at hstep
    split_ifs at hstep
    obtain ⟨rfl, -⟩ := Prod.mk.inj (Option.some_inj.mp hstep)
    obtain ⟨hfields, huser, hworker, hwakes, hresult⟩ := h
    exact ⟨hfields.congr rfl rfl rfl, huser, hworker, hwakes, hresult⟩
  | broadcast =>
    rw [Joining.step, broadcast] at hstep
    cases hpending : s.pending with
    | zero => simp [hpending] at hstep
    | succ pending =>
      simp only [hpending] at hstep
      obtain ⟨rfl, -⟩ := Prod.mk.inj (Option.some_inj.mp hstep)
      exact h.wake pending
  | wake =>
    obtain ⟨rfl, -⟩ := Prod.mk.inj (Option.some_inj.mp hstep)
    exact h.wake s.pending

end Inv

/-! ## The steps that are seen -/

/-- Where `Future.step` has the worker -/
@[grind]
def State.phase (s : State) : Future.Worker :=
  match s.worker with
  | .none => if s.user = .run then .calling else .done
  | .calling => .calling
  | .set => .calling
  | .swap _ => .signalling
  | .lock => .signalling
  | .store => .signalling
  | .unlock => .done

/-- What `Future.step` has in `_state`: it is written as soon as `_aborting` is read. -/
@[grind]
def State.outcome (s : State) : CallState :=
  match s.worker with
  | .swap state => state
  | _ => s.future.state

/-- What `Future.step` has in the signal and in `_joinable`: both are written when `join` returns, or
    when the next call is started. -/
@[grind]
def Seen (s : State) (f : Future) : User → Prop
  | .resetUnlock _ => f.sig = true ∧ f.joinable = true
  | .clear _ => f.sig = true ∧ f.joinable = true
  | .setJoinable => f.sig = f.joinable
  | .setAborting => f.sig = f.joinable
  | _ => f.sig = s.future.sig ∧ f.joinable = s.future.joinable

/-- **The abstraction** of a state -/
structure Refines (s : State) (g : Future.State) : Prop where
  inv : Inv s
  aborting : g.future.aborting = s.future.aborting
  state : g.future.state = s.outcome
  worker : g.worker = s.phase
  fields : Seen s g.future s.user

/-- A `join` that need not wait -/
lemma join_of_eq {f : Future} (h : f.sig = f.joinable) :
    f.join = some { f with sig := false, joinable := false } := by
  obtain ⟨sig, aborting, state, joinable⟩ := f
  obtain rfl : sig = joinable := h
  cases sig <;> rfl

namespace Refines

variable {s s' : State} {g : Future.State} {es : List Future.Event}

/-- **`join` returns**, which is seen unless it was called by `startProc`. -/
lemma joined (h : Refines s g) {caller : Caller}
    (hpoint : s.user = .clear caller ∨ s.user = .test caller ∧ s.future.joinable = false)
    (hinv : Inv ({ s with future := { s.future with joinable := false } }.joined caller).1)
    (hstep : { s with future := { s.future with joinable := false } }.joined caller = (s', es)) :
    es = [] ∧ Refines s' g ∨ ∃ g', Future.system.step g es g' ∧ Refines s' g' := by
  obtain ⟨hold, haborting, hstate, hworker, hfields⟩ := h
  have hat := hold.fields
  have heq : g.future.sig = g.future.joinable ∧ s.future.sig = false := by
    rcases hpoint with hpoint | ⟨hpoint, hjoinable⟩
    · rw [hpoint] at hfields hat
      grind
    · rw [hpoint] at hfields hat
      grind
  have hnext : Future.step g .join
      = some { g with future := { g.future with sig := false, joinable := false } } := by
    rw [Future.step, join_of_eq heq.1]
    rfl
  obtain ⟨rfl, rfl⟩ := Prod.mk.inj hstep
  cases caller with
  | startProc => exact .inl ⟨rfl, hinv, haborting, hstate, by grind, heq.1⟩
  | join => exact .inr ⟨_, ⟨.join, hnext, rfl⟩, hinv, haborting, hstate, by grind, heq.2.symm, rfl⟩
  | destructor =>
    exact .inr ⟨_, ⟨.join, hnext, rfl⟩, hinv, haborting, hstate, by grind, heq.2.symm, rfl⟩

/-- **The thread** takes a step, which is seen or not. -/
theorem user (h : Refines s g) (hstep : user s = some (s', es)) :
    es = [] ∧ Refines s' g ∨ ∃ g', Future.system.step g es g' ∧ Refines s' g' := by
  have hinv := h.inv.user hstep
  have hrefines := h
  obtain ⟨hold, haborting, hstate, hworker, hfields⟩ := h
  have hat := hold.fields
  rw [Joining.user] at hstep
  cases hpoint : s.user with
  | idle => simp [hpoint] at hstep
  | blocked caller => simp [hpoint] at hstep
  | destroyed => simp [hpoint] at hstep
  | test caller =>
    simp only [hpoint] at hfields hat hstep
    by_cases hjoinable : s.future.joinable = true
    · rw [if_pos hjoinable] at hstep
      obtain ⟨rfl, rfl⟩ := Prod.mk.inj (Option.some_inj.mp hstep)
      exact .inl ⟨rfl, hinv, haborting, hstate, by grind, by grind⟩
    · -- `_joinable` is not set, so that it need not be written
      rw [if_neg hjoinable] at hstep
      have hjoinable := Bool.eq_false_iff.mpr hjoinable
      have hsame : { s with future := { s.future with joinable := false } } = s := by
        rw [← hjoinable]
      rw [← hsame] at hstep
      have hs' := Option.some_inj.mp hstep
      exact hrefines.joined (.inr ⟨hpoint, hjoinable⟩) (by rw [hs']; exact hinv) hs'
  | clear caller =>
    simp only [hpoint] at hstep
    rw [← hpoint] at hstep
    have hs' := Option.some_inj.mp hstep
    exact hrefines.joined (.inl hpoint) (by rw [hs']; exact hinv) hs'
  | setAborting =>
    simp only [hpoint] at hfields hat hstep
    obtain ⟨rfl, rfl⟩ := Prod.mk.inj (Option.some_inj.mp hstep)
    have hnext : Future.step g .start = some ⟨{ g.future with
        sig := false, joinable := true, aborting := false }, .calling⟩ := by
      rw [Future.step, Future.startProc, join_of_eq hfields]
      rfl
    exact .inr ⟨_, ⟨.start, hnext, rfl⟩, hinv, rfl, hstate, by grind, by grind⟩
  | check caller =>
    simp only [hpoint] at hfields hat hstep
    split_ifs at hstep <;>
      · obtain ⟨rfl, rfl⟩ := Prod.mk.inj (Option.some_inj.mp hstep)
        exact .inl ⟨rfl, hinv, haborting, hstate, by grind, by grind⟩
  | lock caller | woken caller | resetLock caller =>
    simp only [hpoint] at hfields hat hstep
    obtain ⟨s₁, hlock, hs'⟩ := Option.map_eq_some_iff.mp hstep
    obtain ⟨hmutex, rfl⟩ := lock_eq_some hlock
    obtain ⟨rfl, rfl⟩ := Prod.mk.inj hs'
    exact .inl ⟨rfl, hinv, haborting, hstate, by grind, by grind⟩
  | _ =>
    simp only [hpoint] at hfields hat hstep
    obtain ⟨rfl, rfl⟩ := Prod.mk.inj (Option.some_inj.mp hstep)
    exact .inl ⟨rfl, hinv, haborting, by grind, by grind, by grind⟩

/-- **The worker** takes a step, which is seen or not. -/
theorem work (h : Refines s g) (hstep : work s = some (s', es)) :
    es = [] ∧ Refines s' g ∨ ∃ g', Future.system.step g es g' ∧ Refines s' g' := by
  have hinv := h.inv.work hstep
  obtain ⟨hold, haborting, hstate, hworker, hfields⟩ := h
  have hat := hold.fields
  rw [Joining.work] at hstep
  cases hpoint : s.worker with
  | none => simp [hpoint] at hstep
  | set =>
    simp only [hpoint] at hstep
    obtain ⟨rfl, rfl⟩ := Prod.mk.inj (Option.some_inj.mp hstep)
    have hcalling : g.worker = .calling := by grind
    have hnext : Future.step g .completed = some ⟨g.future.setState, .signalling⟩ :=
      if_pos hcalling
    refine .inr ⟨_, ⟨.completed, hnext, rfl⟩, hinv, haborting, ?_, by grind, ?_⟩
    · rw [Future.setState, haborting]
      rfl
    · cases huser : s.user <;> simp_all [Seen, Future.setState]
  | store =>
    simp only [hpoint] at hstep
    obtain ⟨rfl, rfl⟩ := Prod.mk.inj (Option.some_inj.mp hstep)
    have hsignalling : g.worker = .signalling := by grind
    have hnext : Future.step g .signalled = some ⟨g.future.setSignal, .done⟩ :=
      if_pos hsignalling
    refine .inr ⟨_, ⟨.signalled, hnext, rfl⟩, hinv, haborting, ?_, by grind, ?_⟩
    · rw [Future.setSignal]
      grind
    · cases huser : s.user <;> simp only [huser] at hat hfields <;> grind [Future.setSignal]
  | lock =>
    simp only [hpoint] at hstep
    obtain ⟨s₁, hlock, hs'⟩ := Option.map_eq_some_iff.mp hstep
    obtain ⟨hmutex, rfl⟩ := lock_eq_some hlock
    obtain ⟨rfl, rfl⟩ := Prod.mk.inj hs'
    exact .inl ⟨rfl, hinv, haborting, by grind, by grind, by cases huser : s.user <;> grind⟩
  | _ =>
    simp only [hpoint] at hstep
    obtain ⟨rfl, rfl⟩ := Prod.mk.inj (Option.some_inj.mp hstep)
    exact .inl ⟨rfl, hinv, haborting, by grind, by cases huser : s.user <;> grind,
      by cases huser : s.user <;> grind⟩

/-- To wake the thread is not seen. -/
lemma wake (h : Refines s g) (pending : ℕ) : Refines { s with pending }.wake g := by
  have hinv := h.inv.wake pending
  obtain ⟨hold, haborting, hstate, hworker, hfields⟩ := h
  refine ⟨hinv, ?_, ?_, ?_, ?_⟩ <;> cases hpoint : s.user <;> grind

/-- **One step**, which is seen or not -/
theorem step (h : Refines s g) (hstep : system.step s es s') :
    es = [] ∧ Refines s' g ∨ ∃ g', Future.system.step g es g' ∧ Refines s' g' := by
  obtain ⟨m, hstep⟩ := hstep
  have hinv := h.inv.step hstep
  cases m with
  | user => exact h.user hstep
  | work => exact h.work hstep
  | call caller =>
    simp only [Joining.step] at hstep
    split_ifs at hstep with hidle
    obtain ⟨rfl, rfl⟩ := Prod.mk.inj (Option.some_inj.mp hstep)
    obtain ⟨-, haborting, hstate, hworker, hfields⟩ := h
    exact .inl ⟨rfl, hinv, haborting, hstate, by grind, by grind⟩
  | abort =>
    simp only [Joining.step] at hstep
    split_ifs at hstep
    obtain ⟨rfl, rfl⟩ := Prod.mk.inj (Option.some_inj.mp hstep)
    obtain ⟨-, haborting, hstate, hworker, hfields⟩ := h
    refine .inr ⟨_, ⟨.abort, rfl, rfl⟩, hinv, rfl, ?_, by grind, ?_⟩
    · rw [Future.abort]
      grind [Future.abort]
    · cases hpoint : s.user <;> simp only [hpoint] at hfields <;> grind [Future.abort]
  | broadcast =>
    rw [Joining.step, broadcast] at hstep
    cases hpending : s.pending with
    | zero => simp [hpending] at hstep
    | succ pending =>
      simp only [hpending] at hstep
      obtain ⟨rfl, rfl⟩ := Prod.mk.inj (Option.some_inj.mp hstep)
      exact .inl ⟨rfl, h.wake pending⟩
  | wake =>
    obtain ⟨rfl, rfl⟩ := Prod.mk.inj (Option.some_inj.mp hstep)
    exact .inl ⟨rfl, h.wake s.pending⟩

end Refines

/-- What is constructed -/
lemma inv_initial : Inv State.initial :=
  ⟨.inl ⟨rfl, rfl, rfl⟩, by simp [State.initial, User.holds], by simp [State.initial, Worker.holds],
    fun _ h => (nomatch h), fun _ => rfl⟩

/-- **Every run**, step by step, is one of `Future.system`: `start`, `join`, `abort` and the two steps
    of `set` are enough to understand a `Future`. -/
theorem joining_refines {trace : List Future.Event} {s : State} (h : system.Run trace s) :
    ∃ g, Future.system.Run trace g ∧ Refines s g := by
  refine h.stuttering (fun s hs => ?_) fun s g es s' hrefines hstep => hrefines.step hstep
  subst hs
  exact ⟨_, rfl, inv_initial, rfl, rfl, rfl, rfl, rfl⟩

/-- A call that is started, up to where `join` blocks -/
def blocking : List Move :=
  [.call .startProc, .user, .user, .user, .user, .call .join, .user, .user, .user]

/-- The worker sets the signal, without the broadcast. -/
def signalling : List Move := [.work, .work, .work, .work, .work, .work]

lemma run_exec {ms : List Move} {s : State} {trace : List Future.Event}
    (h : System.exec step .initial ms = some (s, trace)) : system.Run trace s := by
  have hstep : ∀ s m s' es, step s m = some (s', es) → system.step s es s' :=
    fun _ m _ _ hm => ⟨m, hm⟩
  exact System.Run.exec hstep (.start rfl) h

/-- `join` blocks, is woken and returns. -/
theorem joining_refines_blocked : ∃ g s, Future.system.Run [.start, .completed, .signalled, .join] g
    ∧ Refines s g ∧ g.future.isFinished := by
  have hmoves : ∃ s, System.exec step .initial (blocking ++ signalling ++ .broadcast
      :: List.replicate 7 .user) = some (s, [.start, .completed, .signalled, .join])
      ∧ s.outcome = .finishedState := ⟨_, rfl, rfl⟩
  obtain ⟨s, hs, houtcome⟩ := hmoves
  obtain ⟨g, hrun, hrefines⟩ := joining_refines (run_exec hs)
  exact ⟨g, s, hrun, hrefines, by rw [Future.isFinished, hrefines.state, houtcome]; rfl⟩

/-! ## Nobody waits for ever -/

/-- The steps that are left for the thread until its function returns, at most, if it need not wait
    again -/
@[grind]
def User.rank : User → ℕ
  | .test _ => 20
  | .lock _ => 19
  | .woken _ => 19
  | .check _ => 18
  | .blocked _ => 17
  | .unlock _ => 17
  | .resetLock _ => 16
  | .reset _ => 15
  | .resetUnlock _ => 14
  | .clear _ => 13
  | .setJoinable => 12
  | .setAborting => 11
  | .run => 10
  | .idle => 0
  | .destroyed => 0

/-- The steps that are left for the worker, where a broadcast that is left to do counts three, as it may
    wake the thread -/
@[grind]
def Worker.rank : Worker → ℕ
  | .none => 0
  | .unlock => 4
  | .store => 5
  | .lock => 6
  | .swap _ => 7
  | .set => 8
  | .calling => 9

/-- What is left to do -/
@[grind]
def State.rank (s : State) : ℕ := s.user.rank + s.worker.rank + 3 * s.pending

/-- The thread or a worker takes a step. -/
def Progress (s s' : State) : Prop :=
  ∃ m es, (m = .user ∨ m = .work ∨ m = .broadcast) ∧ step s m = some (s', es)

lemma rank_user {s s' : State} {es : List Future.Event} (h : user s = some (s', es)) :
    s'.rank < s.rank := by
  rw [user] at h
  cases hpoint : s.user with
  | idle => simp [hpoint] at h
  | blocked caller => simp [hpoint] at h
  | destroyed => simp [hpoint] at h
  | test caller =>
    simp only [hpoint] at h
    split_ifs at h
    · obtain ⟨rfl, -⟩ := Prod.mk.inj (Option.some_inj.mp h)
      grind
    · obtain rfl := congrArg Prod.fst (Option.some_inj.mp h)
      cases caller <;> grind
  | check caller =>
    simp only [hpoint] at h
    split_ifs at h <;>
      · obtain ⟨rfl, -⟩ := Prod.mk.inj (Option.some_inj.mp h)
        grind
  | clear caller =>
    simp only [hpoint] at h
    obtain rfl := congrArg Prod.fst (Option.some_inj.mp h)
    cases caller <;> grind
  | lock caller | woken caller | resetLock caller =>
    simp only [hpoint] at h
    obtain ⟨s₁, hlock, hs'⟩ := Option.map_eq_some_iff.mp h
    obtain ⟨-, rfl⟩ := lock_eq_some hlock
    obtain ⟨rfl, -⟩ := Prod.mk.inj hs'
    grind
  | _ =>
    simp only [hpoint] at h
    obtain ⟨rfl, -⟩ := Prod.mk.inj (Option.some_inj.mp h)
    grind

lemma rank_work {s s' : State} {es : List Future.Event} (h : work s = some (s', es)) :
    s'.rank < s.rank := by
  rw [work] at h
  cases hpoint : s.worker with
  | none => simp [hpoint] at h
  | lock =>
    simp only [hpoint] at h
    obtain ⟨s₁, hlock, hs'⟩ := Option.map_eq_some_iff.mp h
    obtain ⟨-, rfl⟩ := lock_eq_some hlock
    obtain ⟨rfl, -⟩ := Prod.mk.inj hs'
    grind
  | _ =>
    simp only [hpoint] at h
    obtain ⟨rfl, -⟩ := Prod.mk.inj (Option.some_inj.mp h)
    grind

/-- A thread that is woken checks again, and to wake it was left to do. -/
lemma rank_broadcast {s s' : State} {es : List Future.Event} (h : broadcast s = some (s', es)) :
    s'.rank < s.rank := by
  rw [broadcast] at h
  cases hpending : s.pending with
  | zero => simp [hpending] at h
  | succ pending =>
    simp only [hpending] at h
    obtain ⟨rfl, -⟩ := Prod.mk.inj (Option.some_inj.mp h)
    cases hpoint : s.user <;> grind

lemma Progress.rank_lt {s s' : State} (h : Progress s s') : s'.rank < s.rank := by
  obtain ⟨m, es, hm, hstep⟩ := h
  rcases hm with rfl | rfl | rfl
  · exact rank_user hstep
  · exact rank_work hstep
  · exact rank_broadcast hstep

lemma moves_none {s : State} (hrest : ∀ s', ¬ Progress s s') :
    user s = none ∧ work s = none ∧ broadcast s = none := by
  refine ⟨?_, ?_, ?_⟩ <;> refine Option.eq_none_iff_forall_ne_some.mpr fun ⟨s', es⟩ h => ?_
  · exact hrest s' ⟨.user, es, .inl rfl, h⟩
  · exact hrest s' ⟨.work, es, .inr (.inl rfl), h⟩
  · exact hrest s' ⟨.broadcast, es, .inr (.inr rfl), h⟩

/-- A thread and a worker that have the mutex can go on. -/
lemma mutex_free {s : State} (h : Inv s) (huser : user s = none) (hwork : work s = none) :
    s.mutex = none := by
  cases hmutex : s.mutex with
  | none => rfl
  | some thread =>
    cases thread with
    | user =>
      have hholds := h.userMutex.mp hmutex
      rw [user] at huser
      grind
    | worker =>
      have hholds := h.workerMutex.mp hmutex
      rw [work] at hwork
      grind

/-- **Where nobody can go on**, nobody waits. -/
lemma rest {s : State} (h : Inv s) (hrest : ∀ s', ¬ Progress s s') :
    (s.user = .idle ∨ s.user = .destroyed) ∧ s.worker = .none ∧ s.pending = 0 := by
  obtain ⟨huser, hwork, hbroadcast⟩ := moves_none hrest
  have hmutex := mutex_free h huser hwork
  have hworker : s.worker = .none := by
    rw [work] at hwork
    grind [State.lock]
  have hpending : s.pending = 0 := by
    rw [broadcast] at hbroadcast
    grind
  refine ⟨?_, hworker, hpending⟩
  -- a thread that is blocked waits for a worker, or for a broadcast
  obtain ⟨hfields, -, -, hwakes, -⟩ := h
  rw [user] at huser
  cases hpoint : s.user <;> grind [State.lock]

lemma inv_of_run {trace : List Future.Event} {s : State} (h : system.Run trace s) : Inv s := by
  have hstep : ∀ (trace : List Future.Event) s es s', Inv s → system.step s es s' → Inv s' := by
    rintro trace s es s' hinv ⟨m, hstep⟩
    exact hinv.step hstep
  exact h.invariant (fun s hs => hs ▸ inv_initial) hstep

/-- **A call returns**: the thread and the workers cannot go on for ever, and when they are at rest the
    function that was called has returned, the call that was started last is over and has written the
    result. -/
theorem calls_return {trace : List Future.Event} {s : State} (h : system.Run trace s) :
    (¬ ∃ f : ℕ → State, f 0 = s ∧ ∀ i, Progress (f i) (f (i + 1)))
      ∧ ((∀ s', ¬ Progress s s') → (s.user = .idle ∨ s.user = .destroyed) ∧ s.worker = .none
        ∧ s.pending = 0 ∧ s.result = s.calls) := by
  have hinv := inv_of_run h
  constructor
  · rintro ⟨f, rfl, hf⟩
    have hlt : ∀ s s', True → Progress s s' → True ∧ s'.rank < s.rank :=
      fun s s' _ hstep => ⟨trivial, hstep.rank_lt⟩
    exact not_endless State.rank hlt trivial hf
  · intro hrest
    obtain ⟨huser, hworker, hpending⟩ := rest hinv hrest
    exact ⟨huser, hworker, hpending, hinv.result (by simp [hworker])⟩

/-- The thread is blocked. -/
theorem calls_return_blocked : ∃ s, system.Run [.start] s ∧ s.user = .blocked .join
    ∧ ¬ ∃ f : ℕ → State, f 0 = s ∧ ∀ i, Progress (f i) (f (i + 1)) := by
  have hmoves : ∃ s, System.exec step .initial blocking = some (s, [.start])
      ∧ s.user = .blocked .join := ⟨_, rfl, rfl⟩
  obtain ⟨s, hs, huser⟩ := hmoves
  exact ⟨s, run_exec hs, huser, (calls_return (run_exec hs)).1⟩

/-- A call that is started and over, and the destructor that need not wait -/
def destroying : List Move :=
  [.call .startProc, .user, .user, .user, .user] ++ signalling ++ .call .destructor
    :: List.replicate 8 .user

/-- **The destructor** returns when no worker has a call and nobody has the mutex.  A worker that has yet
    to broadcast does so after that. -/
theorem destructor_returns :
    (∀ trace s, system.Run trace s → s.user = .destroyed →
      s.worker = .none ∧ s.mutex = none ∧ s.result = s.calls)
    ∧ ∃ trace s, system.Run trace s ∧ s.user = .destroyed ∧ (broadcast s).isSome := by
  constructor
  · intro trace s hrun hdestroyed
    obtain ⟨hfields, huser, hworker, -, hresult⟩ := inv_of_run hrun
    rw [hdestroyed] at hfields huser
    obtain ⟨-, -, hnone⟩ := hfields
    rw [hnone] at hworker hresult
    refine ⟨hnone, ?_, hresult Worker.noConfusion⟩
    cases hmutex : s.mutex with
    | none => rfl
    | some thread => cases thread <;> simp_all [User.holds, Worker.holds]
  · have hmoves : ∃ s trace, System.exec step .initial destroying = some (s, trace)
        ∧ s.user = .destroyed ∧ (broadcast s).isSome := ⟨_, _, rfl, rfl, rfl⟩
    obtain ⟨s, trace, hs, hdestroyed, hbroadcast⟩ := hmoves
    exact ⟨trace, s, run_exec hs, hdestroyed, hbroadcast⟩

end Nstd.Joining
