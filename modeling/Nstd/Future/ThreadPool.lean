import Mathlib.Algebra.Ring.Int.Defs
import Mathlib.Algebra.Ring.Nat
import Mathlib.Data.Int.Notation
import Mathlib.Logic.Function.Basic
import Mathlib.Tactic.SplitIfs
import Nstd.Core.Lists
import Nstd.Core.System

/-!
# `ThreadPool`

Any number of threads call `run`, which may start a worker or queue a job that ends one; and the
destructor queues such a job for every worker.

* `Point` — where a thread is in `run`.
* `Worker` — what has become of a thread context, and where its thread is in `proc`.
* `run`, `work`, `destroy` — the next step of a caller, of a worker and of the destructor.
* `Balanced` — what the counter counts, at every step.
* **`threadCount_iff`** — the counter is the number of workers less the jobs that end one, unless a
  worker is being started, could not be started, or was ended by the destructor.

Queues are taken to be lists here, and a push or pop may fail at any time.  Waiting for a signal may
end at any time, too: no result depends on when it does.
-/

namespace Nstd.ThreadPool

/-- Who has queued a job that ends a worker -/
inductive Origin
  | run
  | destructor
  deriving DecidableEq

/-- A job; one without `proc` ends the worker that takes it. -/
inductive Job
  | call
  | terminate (origin : Origin)
  deriving DecidableEq

/-- A thread context -/
inductive Worker
  /-- `Thread::start` has not been called yet. -/
  | created
  /-- `Thread::start` has failed, and `_terminated` was set. -/
  | failed
  /-- The loop around `pop` -/
  | popping
  /-- `job.proc(job.args)`, and the increment after it -/
  | calling
  /-- The loop was left. -/
  | leaving (origin : Origin)
  /-- `_terminated` was set. -/
  | terminated (origin : Origin)
  deriving DecidableEq

/-- `_terminated` -/
def Worker.isTerminated : Worker → Bool
  | .failed => true
  | .terminated _ => true
  | _ => false

/-- Where a thread is in `run`: the step that comes next -/
inductive Point
  | idle
  /-- The loop around `push` -/
  | push
  /-- `Atomic::increment(_pushedJobs)` -/
  | increment
  /-- `_processedJobs` is read. -/
  | busy (pushedJobs : ℕ)
  /-- `_threadCount` is read. -/
  | count (busyThreads : ℤ)
  /-- The branches on `idleThreads` -/
  | decide (threadCount : ℕ) (idleThreads : ℤ)
  /-- `Mutex::Guard guard(_mutex)` -/
  | lock (start : Bool)
  /-- The loop that removes contexts; these are left. -/
  | clean (start : Bool) (rest : List ℕ)
  /-- `if (_threadCount < _maxThreads) ++_threadCount` -/
  | raise
  /-- `context = &_threads.append()` -/
  | append
  /-- `context->_thread.start` -/
  | start (context : ℕ)
  /-- `if (_threadCount > _minThreads)` -/
  | test
  /-- `if (_queue.push(job))` -/
  | terminate
  /-- `--_threadCount` -/
  | lower

/-- The mutex is held. -/
def Point.Inside : Point → Prop
  | .clean _ _ => True
  | .raise => True
  | .append => True
  | .test => True
  | .terminate => True
  | .lower => True
  | _ => False

/-- A pool and the threads that use it.  `workers` has all contexts there ever were, `threads` the
    ones that are in `_threads`, and `destructor` the ones for which the destructor has yet to queue
    a job. -/
structure State where
  minThreads : ℕ
  maxThreads : ℕ
  capacity : ℕ
  queue : List Job
  pushedJobs : ℕ
  processedJobs : ℕ
  threadCount : ℕ
  idleResetTime : UInt32
  mutex : Option ℕ
  threads : List ℕ
  workers : List Worker
  callers : ℕ → Point
  destructor : Option (List ℕ)

/-- `ThreadPool(minThreads, maxThreads, queueSize)` -/
def State.initial (minThreads maxThreads capacity : ℕ) (idleResetTime : UInt32) : State :=
  { minThreads, maxThreads := if maxThreads < 3 then 3 else maxThreads, capacity, queue := []
    pushedJobs := 0, processedJobs := 0, threadCount := 0, idleResetTime, mutex := none
    threads := [], workers := [], callers := fun _ => .idle, destructor := none }

/-- The caller goes on at another point. -/
def State.goto (s : State) (i : ℕ) (point : Point) : State :=
  { s with callers := Function.update s.callers i point }

/-- The caller leaves the mutex. -/
def State.unlock (s : State) (i : ℕ) (point : Point) : State :=
  { s with mutex := none }.goto i point

/-- The context has become another one. -/
def State.setWorker (s : State) (w : ℕ) (worker : Worker) : State :=
  { s with workers := s.workers.set w worker }

/-- `_queue.push`, if there is room -/
def State.push (s : State) (job : Job) : Option State :=
  if s.queue.length < s.capacity then some { s with queue := s.queue ++ [job] } else none

/-- What a step depends on besides the state: whether a push, a pop or `Thread::start` succeeds, and
    `Time::ticks() >> 10` -/
structure Outcome where
  ok : Bool
  now : UInt32

/-- A cast to `ssize` -/
def ssize (n : ℤ) : ℤ := n.bmod (2 ^ 64)

/-- The next step of a thread that is in `run` -/
def run (s : State) (i : ℕ) (o : Outcome) : Point → Option State
  | .idle => none
  | .push =>
    if o.ok then do
      let s ← s.push .call
      some (s.goto i .increment)
    else some s
  | .increment =>
    let pushedJobs := (s.pushedJobs + 1) % 2 ^ 64
    some ({ s with pushedJobs }.goto i (.busy pushedJobs))
  | .busy pushedJobs => some (s.goto i (.count (ssize (pushedJobs - s.processedJobs))))
  | .count busyThreads =>
    some (s.goto i (.decide s.threadCount (ssize s.threadCount - busyThreads)))
  | .decide threadCount idleThreads =>
    if idleThreads = 1 then some ({ s with idleResetTime := o.now }.goto i .idle)
    else if idleThreads ≤ 0 then
      some ({ s with idleResetTime := o.now }.goto i
        (if threadCount < s.maxThreads then .lock true else .idle))
    else
      some (s.goto i (if idleThreads > 1 ∧ threadCount > s.minThreads
        ∧ o.now - s.idleResetTime > 1 then .lock false else .idle))
  | .lock start =>
    match s.mutex with
    | some _ => none
    | none =>
      some ({ s with mutex := some i }.goto i (if start then .clean true s.threads else .test))
  | .clean start (context :: rest) =>
    let isTerminated := (s.workers[context]?.map Worker.isTerminated).getD false
    let threads := if isTerminated then s.threads.erase context else s.threads
    some ({ s with threads }.goto i (.clean start rest))
  | .clean start [] => some (if start then s.goto i .raise else s.unlock i .idle)
  | .raise =>
    if s.threadCount < s.maxThreads then
      some ({ s with threadCount := s.threadCount + 1 }.goto i .append)
    else some (s.unlock i .idle)
  | .append =>
    let context := s.workers.length
    let workers := s.workers ++ [Worker.created]
    some ({ s with threads := s.threads ++ [context], workers }.unlock i (.start context))
  | .start context =>
    some ((s.setWorker context (if o.ok then .popping else .failed)).goto i .idle)
  | .test =>
    some (s.goto i (if s.threadCount > s.minThreads then .terminate else .clean false s.threads))
  | .terminate =>
    if o.ok then do
      let s ← s.push (.terminate .run)
      some (s.goto i .lower)
    else some (s.goto i (.clean false s.threads))
  | .lower =>
    some ({ s with threadCount := s.threadCount - 1 }.goto i (.clean false s.threads))

/-- The next step of a worker -/
def work (s : State) (w : ℕ) (o : Outcome) : Worker → Option State
  | .popping =>
    if o.ok then
      match s.queue with
      | [] => none
      | job :: queue =>
        some ({ s with queue }.setWorker w (match job with
          | .call => .calling
          | .terminate origin => .leaving origin))
    else some s
  | .calling =>
    let processedJobs := (s.processedJobs + 1) % 2 ^ 64
    some ({ s with processedJobs }.setWorker w .popping)
  | .leaving origin => some (s.setWorker w (.terminated origin))
  | _ => none

/-- What may happen next -/
inductive Move
  /-- A thread calls `run`. -/
  | call (i : ℕ)
  | run (i : ℕ) (o : Outcome)
  | work (w : ℕ) (o : Outcome)
  /-- The destructor is called. -/
  | destroy
  /-- The destructor queues a job. -/
  | destroyPush

/-- A move.  The pool is destroyed when nobody calls `run` any more. -/
def step (s : State) : Move → Option State
  | .call i =>
    match s.callers i, s.destructor with
    | .idle, none => some (s.goto i .push)
    | _, _ => none
  | .run i o => run s i o (s.callers i)
  | .work w o => (s.workers[w]?).bind (work s w o)
  | .destroy =>
    match s.destructor with
    | none => some { s with destructor := some s.threads }
    | some _ => none
  | .destroyPush =>
    match s.destructor with
    | some (_ :: rest) => do
      let s ← s.push (.terminate .destructor)
      some { s with destructor := some rest }
    | _ => none

/-- A pool and all that is done with it -/
def system (minThreads maxThreads capacity : ℕ) : System State Move where
  initial s := ∃ idleResetTime, s = .initial minThreads maxThreads capacity idleResetTime
  step s ms s' := ∃ m, (m = .destroy → ∀ i, s.callers i = .idle) ∧ step s m = some s' ∧ ms = [m]

/-! ## What the counter counts -/

/-- The thread was started, and it has not taken a job that ends it. -/
def Worker.alive : Worker → Bool
  | .popping => true
  | .calling => true
  | _ => false

/-- The counter was raised for the context, and no job that `run` has queued has ended it. -/
def Worker.counted : Worker → Bool
  | .leaving .run => false
  | .terminated .run => false
  | _ => true

/-- The jobs that `run` has queued to end a worker -/
def State.queued (s : State) : ℕ := s.queue.count (.terminate .run)

/-- The counter was raised for a context that is yet to be made, or it is yet to be lowered. -/
def Point.extra : Point → ℕ
  | .append => 1
  | .lower => 1
  | _ => 0

/-- What is pending in the mutex -/
def State.extra (s : State) : ℕ := s.mutex.elim 0 fun i => (s.callers i).extra

/-- **The balance** of the counter, with what is needed to keep it -/
structure Balanced (s : State) : Prop where
  balance : s.threadCount + s.queued = s.workers.countP Worker.counted + s.extra
  mutex : ∀ i, (s.callers i).Inside → s.mutex = some i
  positive : ∀ i, s.callers i = .terminate ∨ s.callers i = .lower → 0 < s.threadCount
  created : ∀ i c, s.callers i = .start c → s.workers[c]? = some .created
  distinct : ∀ i j c, s.callers i = .start c → s.callers j = .start c → i = j

/-- A caller goes on: what it has to see to. -/
lemma Balanced.of_caller {s s' : State} (h : Balanced s) {i : ℕ} {p : Point}
    (hcallers : s'.callers = Function.update s.callers i p)
    (hbalance : s'.threadCount + s'.queued = s'.workers.countP Worker.counted + s'.extra)
    (hmutex : s'.mutex = s.mutex ∨ s.mutex = none ∨ s.mutex = some i)
    (hinside : p.Inside → s'.mutex = some i)
    (hcount : s'.threadCount = s.threadCount ∨ s.mutex = some i)
    (hpositive : p = .terminate ∨ p = .lower → 0 < s'.threadCount)
    (hworkers : ∀ c, s.workers[c]? = some .created → s.callers i ≠ .start c →
      s'.workers[c]? = some .created)
    (hstart : ∀ c, p = .start c → s'.workers[c]? = some .created ∧ s.workers[c]? = none) :
    Balanced s' := by
  have hself : s'.callers i = p := by rw [hcallers, Function.update_self]
  have hother : ∀ {j}, j ≠ i → s'.callers j = s.callers j := fun hj => by
    rw [hcallers, Function.update_of_ne hj]
  refine ⟨hbalance, fun j hj => ?_, fun j hj => ?_, fun j c hj => ?_, fun j k c hj hk => ?_⟩
  · by_cases hji : j = i
    · subst hji
      exact hinside (hself ▸ hj)
    · rw [hother hji] at hj
      have hheld := h.mutex j hj
      rcases hmutex with hsame | hnone | hi
      · exact hsame.trans hheld
      · exact absurd (hnone.symm.trans hheld).symm (Option.some_ne_none j)
      · exact absurd (Option.some_inj.mp (hheld.symm.trans hi)) hji
  · by_cases hji : j = i
    · subst hji
      exact hpositive (hself ▸ hj)
    · rw [hother hji] at hj
      rcases hcount with hsame | hi
      · exact hsame ▸ h.positive j hj
      · have hin : (s.callers j).Inside := by
          rcases hj with hj | hj <;> rw [hj] <;> trivial
        exact absurd (Option.some_inj.mp ((h.mutex j hin).symm.trans hi)) hji
  · by_cases hji : j = i
    · subst hji
      exact (hstart c (hself ▸ hj)).1
    · rw [hother hji] at hj
      exact hworkers c (h.created j c hj) fun hi => hji (h.distinct j i c hj hi)
  · by_cases hji : j = i
    · by_cases hki : k = i
      · rw [hji, hki]
      · subst hji
        rw [hother hki] at hk
        have hnone := (hstart c (hself ▸ hj)).2
        exact absurd (hnone.symm.trans (h.created k c hk)).symm (Option.some_ne_none _)
    · rw [hother hji] at hj
      by_cases hki : k = i
      · subst hki
        have hnone := (hstart c (hself ▸ hk)).2
        exact absurd (hnone.symm.trans (h.created j c hj)).symm (Option.some_ne_none _)
      · rw [hother hki] at hk
        exact h.distinct j k c hj hk

/-- The mutex stays as it is, and nothing is pending at both points. -/
lemma extra_goto {s s' : State} {i : ℕ} {p : Point}
    (hcallers : s'.callers = Function.update s.callers i p) (hmutex : s'.mutex = s.mutex)
    (hextra : p.extra = (s.callers i).extra) : s'.extra = s.extra := by
  rw [State.extra, State.extra, hmutex]
  cases s.mutex with
  | none => rfl
  | some j =>
    by_cases hj : j = i
    · subst hj
      simp [hcallers, hextra]
    · simp [hcallers, Function.update_of_ne hj]

/-- **A caller goes on without the counter**, the contexts or the mutex. -/
lemma Balanced.quiet {s s' : State} (h : Balanced s) {i : ℕ} {p : Point}
    (hcallers : s'.callers = Function.update s.callers i p) (hmutex : s'.mutex = s.mutex)
    (hcount : s'.threadCount = s.threadCount) (hqueued : s'.queued = s.queued)
    (hworkers : s'.workers = s.workers) (hextra : p.extra = (s.callers i).extra)
    (hinside : p.Inside → (s.callers i).Inside) (hstart : ∀ c, p ≠ .start c)
    (hpositive : p = .terminate ∨ p = .lower → 0 < s.threadCount) : Balanced s' := by
  refine h.of_caller hcallers ?_ (Or.inl hmutex) (fun hp => hmutex ▸ h.mutex i (hinside hp))
    (Or.inl hcount) (fun hp => hcount ▸ hpositive hp) (fun c hc _ => hworkers ▸ hc)
    fun c hc => absurd hc (hstart c)
  rw [hcount, hqueued, hworkers, extra_goto hcallers hmutex hextra]
  exact h.balance

lemma push_eq_some {s s' : State} {job : Job} (h : s.push job = some s') :
    s' = { s with queue := s.queue ++ [job] } := by
  rw [State.push] at h
  split_ifs at h
  exact (Option.some_inj.mp h).symm

/-- While a caller is in the mutex, what is pending is pending there. -/
lemma extra_of_mutex {s : State} {i : ℕ} (h : s.mutex = some i) : s.extra = (s.callers i).extra := by
  rw [State.extra, h]
  rfl

lemma goto_extra {s : State} {i : ℕ} (h : s.mutex = some i) (p : Point) :
    (s.goto i p).extra = p.extra := by
  have hself : (s.goto i p).callers i = p := Function.update_self ..
  rw [extra_of_mutex (show (s.goto i p).mutex = some i from h), hself]

/-- The balance while a caller is in the mutex -/
lemma Balanced.balance_inside {s : State} (h : Balanced s) {i : ℕ} (hi : (s.callers i).Inside) :
    s.threadCount + s.queued = s.workers.countP Worker.counted + (s.callers i).extra := by
  rw [h.balance, extra_of_mutex (h.mutex i hi)]

/-- **A caller goes on in the mutex**, where it may write to the counter. -/
lemma Balanced.inside {s s₁ : State} (h : Balanced s) {i : ℕ} {p : Point}
    (hi : (s.callers i).Inside) (hcallers : s₁.callers = s.callers) (hmutex : s₁.mutex = s.mutex)
    (hworkers : s₁.workers = s.workers)
    (hbalance : s₁.threadCount + s₁.queued = s.workers.countP Worker.counted + p.extra)
    (hstart : ∀ c, p ≠ .start c) (hpositive : p = .terminate ∨ p = .lower → 0 < s₁.threadCount) :
    Balanced (s₁.goto i p) := by
  have hlocked := h.mutex i hi
  refine h.of_caller (by rw [← hcallers]; rfl) ?_ (Or.inl hmutex) (fun _ => hmutex.trans hlocked)
    (Or.inr hlocked) hpositive (fun c hc _ => hworkers ▸ hc) fun c hc => absurd hc (hstart c)
  rw [goto_extra (hmutex.trans hlocked)]
  change s₁.threadCount + s₁.queued = s₁.workers.countP Worker.counted + p.extra
  rw [hworkers, hbalance]

/-- The mutex is left with nothing pending. -/
lemma Balanced.unlock {s s₁ : State} (h : Balanced s) {i : ℕ} {p : Point}
    (hi : (s.callers i).Inside) (hcallers : s₁.callers = s.callers)
    (hcount : s₁.threadCount = s.threadCount)
    (hbalance : s₁.threadCount + s₁.queued = s₁.workers.countP Worker.counted) (hp : ¬ p.Inside)
    (hworkers : ∀ c : ℕ, s.workers[c]? = some Worker.created → s₁.workers[c]? = some Worker.created)
    (hstart : ∀ c, p = .start c → s₁.workers[c]? = some Worker.created ∧ s.workers[c]? = none) :
    Balanced (s₁.unlock i p) := by
  refine h.of_caller (by rw [← hcallers]; rfl) ?_ (Or.inr (Or.inr (h.mutex i hi)))
    (fun hin => absurd hin hp) (Or.inl hcount) (fun hin => absurd ?_ hp)
    (fun c hc _ => hworkers c hc) hstart
  · exact hbalance
  · rcases hin with rfl | rfl <;> trivial

/-- A point outside of the mutex at which no context is started -/
def Point.Plain : Point → Prop
  | .idle => True
  | .push => True
  | .increment => True
  | .busy _ => True
  | .count _ => True
  | .decide _ _ => True
  | .lock _ => True
  | _ => False

/-- **A caller goes on outside of the mutex.** -/
lemma Balanced.plain {s s₁ : State} (h : Balanced s) {i : ℕ} {p : Point}
    (hi : (s.callers i).Plain) (hp : p.Plain) (hcallers : s₁.callers = s.callers)
    (hmutex : s₁.mutex = s.mutex) (hcount : s₁.threadCount = s.threadCount)
    (hqueued : s₁.queued = s.queued) (hworkers : s₁.workers = s.workers) :
    Balanced (s₁.goto i p) := by
  have hextra : ∀ {q : Point}, q.Plain → q.extra = 0 := fun {q} hq => by cases q <;> trivial
  refine h.quiet (by rw [← hcallers]; rfl) hmutex hcount hqueued hworkers
    ((hextra hp).trans (hextra hi).symm) (fun hin => ?_) (fun c hc => ?_) fun hin => ?_
  · cases p <;> trivial
  · subst hc
    exact hp
  · rcases hin with rfl | rfl <;> exact hp.elim

/-- **The next step of a caller** -/
theorem Balanced.run {s s' : State} (h : Balanced s) {i : ℕ} {o : Outcome}
    (hstep : run s i o (s.callers i) = some s') : Balanced s' := by
  cases hpoint : s.callers i with
  | idle => simp [ThreadPool.run, hpoint] at hstep
  | push =>
    have hi : (s.callers i).Plain := by rw [hpoint]; trivial
    simp only [ThreadPool.run, hpoint] at hstep
    split_ifs at hstep
    · obtain ⟨s₁, hpush, hs'⟩ := Option.bind_eq_some_iff.mp hstep
      obtain rfl := push_eq_some hpush
      obtain rfl := Option.some_inj.mp hs'
      exact h.plain hi trivial rfl rfl rfl (by simp [State.queued]) rfl
    · obtain rfl := Option.some_inj.mp hstep
      exact h
  | increment =>
    have hi : (s.callers i).Plain := by rw [hpoint]; trivial
    simp only [ThreadPool.run, hpoint] at hstep
    obtain rfl := Option.some_inj.mp hstep
    exact h.plain hi trivial rfl rfl rfl rfl rfl
  | busy pushedJobs =>
    have hi : (s.callers i).Plain := by rw [hpoint]; trivial
    simp only [ThreadPool.run, hpoint] at hstep
    obtain rfl := Option.some_inj.mp hstep
    exact h.plain hi trivial rfl rfl rfl rfl rfl
  | count busyThreads =>
    have hi : (s.callers i).Plain := by rw [hpoint]; trivial
    simp only [ThreadPool.run, hpoint] at hstep
    obtain rfl := Option.some_inj.mp hstep
    exact h.plain hi trivial rfl rfl rfl rfl rfl
  | decide threadCount idleThreads =>
    have hi : (s.callers i).Plain := by rw [hpoint]; trivial
    simp only [ThreadPool.run, hpoint] at hstep
    split_ifs at hstep <;> obtain rfl := Option.some_inj.mp hstep <;>
      exact h.plain hi trivial rfl rfl rfl rfl rfl
  | lock start =>
    cases hmutex : s.mutex with
    | some j => simp [ThreadPool.run, hpoint, hmutex] at hstep
    | none =>
      have hbalance := h.balance
      rw [State.extra, hmutex, Option.elim_none] at hbalance
      simp only [ThreadPool.run, hpoint, hmutex] at hstep
      obtain rfl := Option.some_inj.mp hstep
      refine h.of_caller rfl ?_ (Or.inr (Or.inl hmutex)) (fun _ => rfl) (Or.inl rfl) ?_
        (fun c hc _ => hc) ?_
      · rw [goto_extra]
        · cases start <;> exact hbalance
        · rfl
      · cases start <;> simp
      · cases start <;> simp
  | clean start rest =>
    have hi : (s.callers i).Inside := by rw [hpoint]; trivial
    have hbalance := h.balance_inside hi
    rw [hpoint] at hbalance
    cases rest with
    | nil =>
      simp only [ThreadPool.run, hpoint] at hstep
      obtain rfl := Option.some_inj.mp hstep
      cases start with
      | true =>
        exact h.quiet rfl rfl rfl rfl rfl (by rw [hpoint]; rfl) (fun _ => hi) (by simp)
          (by simp)
      | false =>
        exact h.unlock hi rfl rfl hbalance (fun hp => hp) (fun c hc => hc) (by simp)
    | cons context rest =>
      simp only [ThreadPool.run, hpoint] at hstep
      obtain rfl := Option.some_inj.mp hstep
      exact h.quiet rfl rfl rfl rfl rfl (by rw [hpoint]; rfl) (fun _ => hi) (by simp) (by simp)
  | raise =>
    have hi : (s.callers i).Inside := by rw [hpoint]; trivial
    have hbalance := h.balance_inside hi
    rw [hpoint] at hbalance
    simp only [ThreadPool.run, hpoint] at hstep
    split_ifs at hstep
    · obtain rfl := Option.some_inj.mp hstep
      refine h.inside hi rfl rfl rfl ?_ (by simp) (by simp)
      change s.threadCount + 1 + s.queued = s.workers.countP Worker.counted + 1
      rw [Nat.add_right_comm, hbalance]
      rfl
    · obtain rfl := Option.some_inj.mp hstep
      exact h.unlock hi rfl rfl hbalance (fun hp => hp) (fun c hc => hc) (by simp)
  | append =>
    have hi : (s.callers i).Inside := by rw [hpoint]; trivial
    have hbalance := h.balance_inside hi
    rw [hpoint] at hbalance
    simp only [ThreadPool.run, hpoint] at hstep
    obtain rfl := Option.some_inj.mp hstep
    refine h.unlock hi rfl rfl ?_ (fun hp => hp) (fun c hc => ?_) fun c hc => ?_
    · rw [List.countP_append]
      exact hbalance
    · rw [List.getElem?_append_left (List.getElem?_eq_some_iff.mp hc).1]
      exact hc
    · obtain rfl : s.workers.length = c := Point.start.inj hc
      exact ⟨List.getElem?_concat_length, List.getElem?_eq_none (Nat.le_refl _)⟩
  | start context =>
    have hcreated := h.created i context hpoint
    simp only [ThreadPool.run, hpoint] at hstep
    obtain rfl := Option.some_inj.mp hstep
    refine h.of_caller rfl ?_ (Or.inl rfl) (fun hp => hp.elim) (Or.inl rfl) (by simp)
      (fun c hc hne => ?_) (by simp)
    · have hextra :
          ((s.setWorker context (if o.ok then .popping else .failed)).goto i .idle).extra
            = s.extra := extra_goto rfl rfl (by rw [hpoint]; rfl)
      rw [hextra]
      have hset := countP_set_add hcreated Worker.counted (if o.ok then .popping else .failed)
      have hsame : (if o.ok then Worker.popping else .failed).counted
          = Worker.created.counted := by
        cases o.ok <;> rfl
      rw [hsame, Nat.add_right_cancel_iff] at hset
      exact hset ▸ h.balance
    · have hne' : context ≠ c := fun he => hne (he ▸ hpoint)
      rw [State.goto, State.setWorker, List.getElem?_set_ne hne']
      exact hc
  | test =>
    have hi : (s.callers i).Inside := by rw [hpoint]; trivial
    simp only [ThreadPool.run, hpoint] at hstep
    obtain rfl := Option.some_inj.mp hstep
    split_ifs with hcount
    · exact h.quiet rfl rfl rfl rfl rfl (by rw [hpoint]; rfl) (fun _ => hi) (by simp)
        fun _ => Nat.zero_lt_of_lt hcount
    · exact h.quiet rfl rfl rfl rfl rfl (by rw [hpoint]; rfl) (fun _ => hi) (by simp) (by simp)
  | terminate =>
    have hi : (s.callers i).Inside := by rw [hpoint]; trivial
    have hbalance := h.balance_inside hi
    rw [hpoint] at hbalance
    simp only [ThreadPool.run, hpoint] at hstep
    split_ifs at hstep
    · obtain ⟨s₁, hpush, hs'⟩ := Option.bind_eq_some_iff.mp hstep
      obtain rfl := push_eq_some hpush
      obtain rfl := Option.some_inj.mp hs'
      refine h.inside hi rfl rfl rfl ?_ (by simp) fun _ => h.positive i (Or.inl hpoint)
      change s.threadCount + (s.queue ++ [Job.terminate .run]).count _
        = s.workers.countP Worker.counted + 1
      rw [List.count_append, List.count_singleton_self, ← Nat.add_assoc]
      exact congrArg (· + 1) hbalance
    · obtain rfl := Option.some_inj.mp hstep
      exact h.quiet rfl rfl rfl rfl rfl (by rw [hpoint]; rfl) (fun _ => hi) (by simp) (by simp)
  | lower =>
    have hi : (s.callers i).Inside := by rw [hpoint]; trivial
    have hpositive := h.positive i (Or.inr hpoint)
    have hbalance := h.balance_inside hi
    rw [hpoint] at hbalance
    simp only [ThreadPool.run, hpoint] at hstep
    obtain rfl := Option.some_inj.mp hstep
    refine h.inside hi rfl rfl rfl ?_ (by simp) (by simp)
    change s.threadCount - 1 + s.queued = s.workers.countP Worker.counted + 0
    change s.threadCount + s.queued = s.workers.countP Worker.counted + 1 at hbalance
    omega

/-- A worker goes on. -/
lemma Balanced.of_worker {s s₁ : State} (h : Balanced s) {w : ℕ} {old new : Worker}
    (hw : s.workers[w]? = some old) (hold : old ≠ .created) (hcallers : s₁.callers = s.callers)
    (hmutex : s₁.mutex = s.mutex) (hcount : s₁.threadCount = s.threadCount)
    (hworkers : s₁.workers = s.workers)
    (hqueued : s.queued + new.counted.toNat = s₁.queued + old.counted.toNat) :
    Balanced (s₁.setWorker w new) := by
  have hset := countP_set_add hw Worker.counted new
  have hbalance := h.balance
  refine ⟨?_, fun i hi => ?_, fun i hi => ?_, fun i c hi => ?_, fun i j c hi hj => ?_⟩
  · have hextra : (s₁.setWorker w new).extra = s.extra := by
      simp [State.extra, State.setWorker, hcallers, hmutex]
    rw [hextra]
    change s₁.threadCount + s₁.queued = (s₁.workers.set w new).countP Worker.counted + s.extra
    rw [hcount, hworkers]
    omega
  · exact hmutex.trans (h.mutex i (hcallers ▸ hi))
  · exact hcount ▸ h.positive i (by rw [← hcallers]; exact hi)
  · have hc := h.created i c (hcallers ▸ hi)
    have hne : w ≠ c := by
      rintro rfl
      exact hold (Option.some_inj.mp (hw.symm.trans hc))
    change (s₁.workers.set w new)[c]? = some .created
    rw [List.getElem?_set_ne hne, hworkers]
    exact hc
  · exact h.distinct i j c (hcallers ▸ hi) (hcallers ▸ hj)

/-- **The next step of a worker** -/
theorem Balanced.work {s s' : State} (h : Balanced s) {w : ℕ} {o : Outcome} {worker : Worker}
    (hw : s.workers[w]? = some worker) (hstep : work s w o worker = some s') : Balanced s' := by
  cases worker with
  | popping =>
    simp only [ThreadPool.work] at hstep
    split_ifs at hstep
    · cases hqueue : s.queue with
      | nil => simp [hqueue] at hstep
      | cons job queue =>
        simp only [hqueue] at hstep
        obtain rfl := Option.some_inj.mp hstep
        refine h.of_worker hw (by simp) rfl rfl rfl rfl ?_
        rw [State.queued, hqueue, List.count_cons]
        cases job with
        | call => rfl
        | terminate origin => cases origin <;> rfl
    · obtain rfl := Option.some_inj.mp hstep
      exact h
  | calling =>
    obtain rfl := Option.some_inj.mp hstep
    exact h.of_worker hw (by simp) rfl rfl rfl rfl rfl
  | leaving origin =>
    obtain rfl := Option.some_inj.mp hstep
    exact h.of_worker hw (by simp) rfl rfl rfl rfl (by cases origin <;> rfl)
  | _ => exact absurd hstep.symm (Option.some_ne_none s')

/-- **One move** -/
theorem Balanced.step {s s' : State} (h : Balanced s) {m : Move} (hstep : step s m = some s') :
    Balanced s' := by
  cases m with
  | call i =>
    cases hpoint : s.callers i with
    | idle =>
      cases hdestructor : s.destructor with
      | some rest => simp [ThreadPool.step, hpoint, hdestructor] at hstep
      | none =>
        simp only [ThreadPool.step, hpoint, hdestructor] at hstep
        obtain rfl := Option.some_inj.mp hstep
        exact h.plain (by rw [hpoint]; trivial) trivial rfl rfl rfl rfl rfl
    | _ => simp [ThreadPool.step, hpoint] at hstep
  | run i o => exact h.run hstep
  | work w o =>
    obtain ⟨worker, hw, hwork⟩ := Option.bind_eq_some_iff.mp hstep
    exact h.work hw hwork
  | destroy =>
    cases hdestructor : s.destructor with
    | some rest => simp [ThreadPool.step, hdestructor] at hstep
    | none =>
      simp only [ThreadPool.step, hdestructor] at hstep
      obtain rfl := Option.some_inj.mp hstep
      exact ⟨h.balance, h.mutex, h.positive, h.created, h.distinct⟩
  | destroyPush =>
    cases hdestructor : s.destructor with
    | none => simp [ThreadPool.step, hdestructor] at hstep
    | some rest =>
      cases rest with
      | nil => simp [ThreadPool.step, hdestructor] at hstep
      | cons context rest =>
        simp only [ThreadPool.step, hdestructor] at hstep
        obtain ⟨s₁, hpush, hs'⟩ := Option.bind_eq_some_iff.mp hstep
        obtain rfl := push_eq_some hpush
        obtain rfl := Option.some_inj.mp hs'
        have hqueued : (s.queue ++ [Job.terminate .destructor]).count (.terminate .run)
            = s.queued := by
          simp [State.queued]
        refine ⟨?_, h.mutex, h.positive, h.created, h.distinct⟩
        change s.threadCount + (s.queue ++ [Job.terminate .destructor]).count _ = _
        rw [hqueued]
        exact h.balance

lemma balanced_of_run {minThreads maxThreads capacity : ℕ} {trace : List Move} {s : State}
    (h : (system minThreads maxThreads capacity).Run trace s) : Balanced s := by
  have hinitial : ∀ s, (system minThreads maxThreads capacity).initial s → Balanced s := by
    rintro s ⟨idleResetTime, rfl⟩
    exact ⟨rfl, fun i hi => hi.elim, by simp [State.initial], by simp [State.initial],
      by simp [State.initial]⟩
  have hstep : ∀ (trace : List Move) (s : State) (ms : List Move) (s' : State), Balanced s →
      (system minThreads maxThreads capacity).step s ms s' → Balanced s' := by
    rintro trace s ms s' hs ⟨m, -, hm, -⟩
    exact hs.step hm
  exact h.invariant hinitial hstep

/-- What the counter counts though it is no worker: contexts for which `Thread::start` was not
    called yet or has failed, and workers that a job of the destructor has ended -/
def Worker.Stray (w : Worker) : Prop :=
  w = .created ∨ w = .failed ∨ w = .leaving .destructor ∨ w = .terminated .destructor

lemma counted_of_alive {w : Worker} (h : w.alive = true) : w.counted = true := by
  cases w with
  | popping => rfl
  | calling => rfl
  | _ => exact absurd h Bool.false_ne_true

lemma not_stray_iff (w : Worker) : ¬ w.Stray ↔ (w.counted = true → w.alive = true) := by
  cases w with
  | leaving origin => cases origin <;> simp [Worker.counted, Worker.alive, Worker.Stray]
  | terminated origin => cases origin <;> simp [Worker.counted, Worker.alive, Worker.Stray]
  | _ => simp [Worker.counted, Worker.alive, Worker.Stray]

/-- **The counter** is the number of workers that were started and have not taken a job that ends
    them, less the number of jobs that `run` has queued to end a worker, unless it counts a stray
    context. -/
theorem threadCount_iff {minThreads maxThreads capacity : ℕ} {trace : List Move} {s : State}
    (h : (system minThreads maxThreads capacity).Run trace s)
    (hmutex : ∀ i, ¬ (s.callers i).Inside) :
    (s.threadCount : ℤ) = s.workers.countP Worker.alive - s.queued ↔
      ∀ w ∈ s.workers, ¬ w.Stray := by
  have hbalanced := balanced_of_run h
  have hextra : s.extra = 0 := by
    rw [State.extra]
    cases s.mutex with
    | none => rfl
    | some i =>
      have hi := hmutex i
      rw [Option.elim_some]
      cases hpoint : s.callers i with
      | append => exact absurd (by rw [hpoint]; trivial) hi
      | lower => exact absurd (by rw [hpoint]; trivial) hi
      | _ => rfl
  have hbalance := hbalanced.balance
  rw [hextra] at hbalance
  have hcount : (s.threadCount : ℤ) = s.workers.countP Worker.alive - s.queued ↔
      s.workers.countP Worker.counted = s.workers.countP Worker.alive := by
    omega
  rw [hcount, countP_eq_iff fun w _ hw => counted_of_alive hw]
  simp only [not_stray_iff]

/-- One call of `run`, in which a first worker is started if `ok` says so -/
def firstRun (ok : Bool) : List Move :=
  .call 0 :: List.replicate 9 (.run 0 ⟨true, 0⟩) ++ [.run 0 ⟨ok, 0⟩]

lemma run_firstRun {ok : Bool} {s : State}
    (h : (firstRun ok).foldlM step (.initial 0 3 256 0) = some s) :
    (system 0 3 256).Run (firstRun ok) s := by
  have hdestroy : .destroy ∉ firstRun ok := by simp [firstRun]
  have hstep : ∀ m ∈ firstRun ok, ∀ s s', step s m = some s' → (system 0 3 256).step s [m] s' :=
    fun m hm s s' hs => ⟨m, fun he => absurd (he ▸ hm) hdestroy, hs, rfl⟩
  have hstart : (system 0 3 256).initial (.initial 0 3 256 0) := ⟨0, rfl⟩
  exact (System.Run.start hstart).foldlM hstep h

/-- Nobody is in a mutex that is free. -/
lemma Balanced.not_inside {s : State} (h : Balanced s) (hmutex : s.mutex = none) (i : ℕ) :
    ¬ (s.callers i).Inside := fun hi =>
  absurd (hmutex.symm.trans (h.mutex i hi)).symm (Option.some_ne_none i)

/-- A worker has been started. -/
theorem threadCount_iff_started : ∃ s, (firstRun true).foldlM step (.initial 0 3 256 0) = some s
    ∧ s.threadCount = 1 ∧ ∀ w ∈ s.workers, ¬ w.Stray := by
  have hrun := run_firstRun (show (firstRun true).foldlM step _ = some _ from rfl)
  exact ⟨_, rfl, rfl, (threadCount_iff hrun ((balanced_of_run hrun).not_inside rfl)).mp rfl⟩

/-- **A worker that cannot be started** is counted for good: nobody is in the mutex, the counter is
    one, and there is no worker and no job that ends one. -/
theorem failed_start_counted : ∃ s, (system 0 3 256).Run (firstRun false) s
    ∧ (∀ i, ¬ (s.callers i).Inside) ∧ s.callers 0 = .idle ∧ s.threadCount = 1
    ∧ s.workers = [.failed] ∧ s.queued = 0
    ∧ (s.threadCount : ℤ) ≠ s.workers.countP Worker.alive - s.queued := by
  have hrun := run_firstRun (show (firstRun false).foldlM step _ = some _ from rfl)
  exact ⟨_, hrun, (balanced_of_run hrun).not_inside rfl, rfl, rfl, rfl, rfl, by decide⟩

end Nstd.ThreadPool
