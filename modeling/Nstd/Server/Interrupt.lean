import Mathlib.Data.List.Count
import Mathlib.Data.Nat.Notation
import Mathlib.Logic.Function.Basic
import Mathlib.Tactic.Lemma
import Mathlib.Tactic.SplitIfs
import Nstd.Core.System

/-!
# Interrupting a `Server`

Any number of threads call `interrupt`, which sets a flag and then writes to a descriptor; resolvers
write to the same descriptor.  One thread is in `run`, which reads from it and tests the flag.

* `interrupt`, `run` — the steps of a thread in either function.
* `TestsFirst` — the flag will be tested before the next wait.
* **`interrupt_not_lost`** — an interrupt wakes the next wait, or is seen before it; and each is good
  for one return of `run`.

Of the sockets that a wait has selected only their number matters here, which callbacks may make
smaller.

The flag is set before the descriptor is written to, and the descriptor is read before the flag is
tested.  So whoever comes first is noticed by the other.
-/

namespace Nstd.Interrupt

/-- Where a thread is in `interrupt` -/
inductive Caller
  | idle
  /-- The flag was set; the descriptor is written to next. -/
  | write
  deriving DecidableEq

/-- Where the thread is that calls `run`: the step that comes next -/
inductive Point
  | outside
  /-- Timers and clients to be closed, and then the begin of `poll` -/
  | loop
  /-- `epoll_wait` -/
  | wait
  /-- Events were fetched. -/
  | fetched (interrupted : Bool)
  /-- `read(eventFd, &val, sizeof(val))` -/
  | read
  /-- `poll` has returned no flags; the resolvers that are finished are looked at. -/
  | resolve
  /-- `if (_interrupted)` -/
  | test
  /-- `Mutex::Guard guard(_interruptMutex)`, and the second test -/
  | lock
  /-- `poll` has returned flags of a socket, which are dealt with. -/
  | handle
  deriving DecidableEq

/-- The flag, the counter of the descriptor, the number of selected sockets, and the threads -/
structure State where
  interrupted : Bool
  counter : ℕ
  selected : ℕ
  callers : ℕ → Caller
  point : Point

/-- What there is to see -/
inductive Event
  /-- `_interrupted` was set. -/
  | set
  /-- `epoll_wait` was called. -/
  | waited
  /-- `_interrupted` was tested. -/
  | tested
  /-- `run` has returned. -/
  | returned
  deriving DecidableEq

/-- The first step of `interrupt`, in the mutex -/
def setInterrupted (s : State) (i : ℕ) : State × List Event :=
  if s.interrupted then (s, [])
  else ({ s with interrupted := true, callers := Function.update s.callers i .write }, [.set])

/-- The second step of `interrupt` -/
def writeEvent (s : State) (i : ℕ) : State × List Event :=
  ({ s with counter := s.counter + 1, callers := Function.update s.callers i .idle }, [])

/-- The end of `poll`: a socket is handed out, maybe with no flags. -/
def take (s : State) (flags : Bool) : State × List Event :=
  ({ s with selected := s.selected - 1, point := if flags then .handle else .resolve }, [])

/-- What a step depends on besides the state: the events a wait returns, whether a socket is handed
    out with flags, and how many sockets callbacks leave selected -/
structure Outcome where
  interrupted : Bool
  selected : ℕ
  flags : Bool

/-- The next step of `run`.  A wait returns the event of the descriptor only if there is something to
    read from it. -/
def run (s : State) (o : Outcome) : Point → Option (State × List Event)
  | .outside => some ({ s with point := .loop }, [])
  | .loop =>
    let s := { s with selected := min o.selected s.selected }
    if s.selected = 0 then some ({ s with point := .wait }, []) else some (take s o.flags)
  | .wait =>
    if o.interrupted → 0 < s.counter then
      some ({ s with selected := o.selected, point := .fetched o.interrupted }, [.waited])
    else none
  | .fetched interrupted =>
    if s.selected = 0 ∨ interrupted then
      some ({ s with point := if interrupted then .read else .resolve }, [])
    else some (take s o.flags)
  | .read => if 0 < s.counter then some ({ s with counter := 0, point := .resolve }, []) else none
  | .resolve => some ({ s with selected := min o.selected s.selected, point := .test }, [])
  | .test => some ({ s with point := if s.interrupted then .lock else .loop }, [.tested])
  | .lock =>
    if s.interrupted then
      some ({ s with interrupted := false, point := .outside }, [.tested, .returned])
    else some ({ s with point := .loop }, [.tested])
  | .handle => some ({ s with selected := min o.selected s.selected, point := .loop }, [])

/-- What may happen next -/
inductive Move
  /-- A thread takes its next step in `interrupt`. -/
  | interrupt (i : ℕ)
  /-- A resolver calls `Poll::interrupt`. -/
  | resolved
  | run (o : Outcome)

/-- A move -/
def step (s : State) : Move → Option (State × List Event)
  | .interrupt i =>
    match s.callers i with
    | .idle => some (setInterrupted s i)
    | .write => some (writeEvent s i)
  | .resolved => some ({ s with counter := s.counter + 1 }, [])
  | .run o => run s o s.point

/-- Nothing has happened yet. -/
def State.initial : State := ⟨false, 0, 0, fun _ => .idle, .outside⟩

/-- A server and the threads that use it -/
def system : System State Event where
  initial s := s = .initial
  step s es s' := ∃ m, step s m = some (s', es)

/-- **The flag will be tested before the next wait**, whatever happens. -/
def TestsFirst (s : State) : Prop :=
  ∀ ms s' es, System.exec step s ms = some (s', es) → .waited ∈ es →
    .tested ∈ es.takeWhile (· ≠ .waited)

/-! ## Points before a test -/

/-- From here `run` comes to a test before it comes to a wait. -/
def Point.BeforeTest : Point → Prop
  | .fetched interrupted => interrupted
  | .read => True
  | .resolve => True
  | .test => True
  | .lock => True
  | _ => False

/-- What a caller or a resolver does leaves `run` where it is. -/
lemma point_interrupt (s : State) (i : ℕ) {s' : State} {es : List Event}
    (h : step s (.interrupt i) = some (s', es)) : s'.point = s.point ∧ .waited ∉ es := by
  cases hi : s.callers i with
  | idle =>
    simp only [step, hi, setInterrupted] at h
    split_ifs at h
    · obtain ⟨rfl, rfl⟩ := Prod.mk.inj (Option.some_inj.mp h)
      exact ⟨rfl, by simp⟩
    · obtain ⟨rfl, rfl⟩ := Prod.mk.inj (Option.some_inj.mp h)
      exact ⟨rfl, by simp⟩
  | write =>
    simp only [step, hi, writeEvent] at h
    obtain ⟨rfl, rfl⟩ := Prod.mk.inj (Option.some_inj.mp h)
    exact ⟨rfl, by simp⟩

/-- **Before a test** the next step is the test, or stays before it. -/
lemma beforeTest_step {s s' : State} {m : Move} {es : List Event} (h : s.point.BeforeTest)
    (hstep : step s m = some (s', es)) :
    .waited ∉ es ∧ (.tested ∈ es ∨ s'.point.BeforeTest) := by
  cases m with
  | interrupt i =>
    obtain ⟨hpoint, hwaited⟩ := point_interrupt s i hstep
    exact ⟨hwaited, Or.inr (hpoint ▸ h)⟩
  | resolved =>
    obtain ⟨rfl, rfl⟩ := Prod.mk.inj (Option.some_inj.mp hstep)
    exact ⟨by simp, Or.inr h⟩
  | run o =>
    cases hpoint : s.point with
    | fetched interrupted =>
      rw [hpoint] at h
      obtain rfl : interrupted = true := h
      simp only [step, hpoint, run, or_true, if_true] at hstep
      obtain ⟨rfl, rfl⟩ := Prod.mk.inj (Option.some_inj.mp hstep)
      exact ⟨by simp, Or.inr trivial⟩
    | read =>
      simp only [step, hpoint, run] at hstep
      split_ifs at hstep
      obtain ⟨rfl, rfl⟩ := Prod.mk.inj (Option.some_inj.mp hstep)
      exact ⟨by simp, Or.inr trivial⟩
    | resolve =>
      simp only [step, hpoint, run] at hstep
      obtain ⟨rfl, rfl⟩ := Prod.mk.inj (Option.some_inj.mp hstep)
      exact ⟨by simp, Or.inr trivial⟩
    | test =>
      simp only [step, hpoint, run] at hstep
      obtain ⟨rfl, rfl⟩ := Prod.mk.inj (Option.some_inj.mp hstep)
      exact ⟨by simp, Or.inl (by simp)⟩
    | lock =>
      simp only [step, hpoint, run] at hstep
      split_ifs at hstep
      · obtain ⟨rfl, rfl⟩ := Prod.mk.inj (Option.some_inj.mp hstep)
        exact ⟨by simp, Or.inl (by simp)⟩
      · obtain ⟨rfl, rfl⟩ := Prod.mk.inj (Option.some_inj.mp hstep)
        exact ⟨by simp, Or.inl (by simp)⟩
    | _ =>
      rw [hpoint] at h
      exact h.elim

/-- **From a point before a test** the flag is tested first. -/
lemma testsFirst_of_beforeTest {s : State} (h : s.point.BeforeTest) : TestsFirst s := by
  intro ms
  induction ms generalizing s with
  | nil =>
    intro s' es hexec hwaited
    obtain ⟨rfl, rfl⟩ := Prod.mk.inj (Option.some_inj.mp hexec)
    exact absurd hwaited List.not_mem_nil
  | cons m ms ih =>
    intro s' es hexec hwaited
    obtain ⟨s₁, es₁, es₂, hstep, hrest, rfl⟩ := System.exec_cons hexec
    obtain ⟨hnot, htested⟩ := beforeTest_step h hstep
    have hkept : ∀ e ∈ es₁, (e ≠ .waited : Bool) = true :=
      fun e he => decide_eq_true fun heq => hnot (heq ▸ he)
    rw [List.takeWhile_append_of_pos hkept, List.mem_append]
    refine htested.imp_right fun hpoint => ih hpoint _ _ hrest ?_
    exact (List.mem_append.mp hwaited).resolve_left hnot

/-! ## Invariant -/

/-- What a step of `run` does to the flag: it is left as it is, or taken away for a return. -/
structure RunSpec (s s' : State) (es : List Event) : Prop where
  callers : s'.callers = s.callers
  sets : .set ∉ es
  flag : s'.interrupted = s.interrupted ∧ .returned ∉ es ∨
    s.interrupted = true ∧ s'.interrupted = false ∧ es = [.tested, .returned]
  counter : s'.counter = s.counter ∨ s'.point.BeforeTest
  before : s.point.BeforeTest → s'.interrupted = true → s'.point.BeforeTest

/-- A step that only goes on to another point -/
lemma RunSpec.goto {s : State} {selected : ℕ} {point : Point} {es : List Event}
    (hset : .set ∉ es) (hreturned : .returned ∉ es)
    (h : s.point.BeforeTest → s.interrupted = true → point.BeforeTest) :
    RunSpec s { s with selected := selected, point := point } es :=
  ⟨rfl, hset, Or.inl ⟨rfl, hreturned⟩, Or.inl rfl, h⟩

/-- **A step of `run`** leaves the points before a test only by a test that does not see the flag,
    and takes what there is to read only before one. -/
lemma run_spec {s s' : State} {o : Outcome} {es : List Event}
    (hstep : step s (.run o) = some (s', es)) : RunSpec s s' es := by
  cases hpoint : s.point with
  | outside =>
    simp only [step, hpoint, run] at hstep
    obtain ⟨rfl, rfl⟩ := Prod.mk.inj (Option.some_inj.mp hstep)
    exact .goto (by simp) (by simp) fun h => (hpoint ▸ h : Point.outside.BeforeTest).elim
  | loop =>
    have hnot : ¬ s.point.BeforeTest := by simp [hpoint, Point.BeforeTest]
    simp only [step, hpoint, run, take] at hstep
    split_ifs at hstep
    all_goals
      obtain ⟨rfl, rfl⟩ := Prod.mk.inj (Option.some_inj.mp hstep)
      exact .goto (by simp) (by simp) fun h => absurd h hnot
  | wait =>
    have hnot : ¬ s.point.BeforeTest := by simp [hpoint, Point.BeforeTest]
    simp only [step, hpoint, run] at hstep
    split_ifs at hstep
    obtain ⟨rfl, rfl⟩ := Prod.mk.inj (Option.some_inj.mp hstep)
    exact .goto (by simp) (by simp) fun h => absurd h hnot
  | fetched interrupted =>
    cases interrupted with
    | true =>
      simp only [step, hpoint, run, or_true, if_true] at hstep
      obtain ⟨rfl, rfl⟩ := Prod.mk.inj (Option.some_inj.mp hstep)
      exact .goto (by simp) (by simp) fun _ _ => trivial
    | false =>
      have hnot : ¬ s.point.BeforeTest := by simp [hpoint, Point.BeforeTest]
      simp only [step, hpoint, run, take] at hstep
      split_ifs at hstep
      all_goals
        obtain ⟨rfl, rfl⟩ := Prod.mk.inj (Option.some_inj.mp hstep)
        exact .goto (by simp) (by simp) fun h => absurd h hnot
  | read =>
    simp only [step, hpoint, run] at hstep
    split_ifs at hstep
    obtain ⟨rfl, rfl⟩ := Prod.mk.inj (Option.some_inj.mp hstep)
    exact ⟨rfl, by simp, Or.inl ⟨rfl, by simp⟩, Or.inr trivial, fun _ _ => trivial⟩
  | resolve =>
    simp only [step, hpoint, run] at hstep
    obtain ⟨rfl, rfl⟩ := Prod.mk.inj (Option.some_inj.mp hstep)
    exact .goto (by simp) (by simp) fun _ _ => trivial
  | test =>
    simp only [step, hpoint, run] at hstep
    obtain ⟨rfl, rfl⟩ := Prod.mk.inj (Option.some_inj.mp hstep)
    exact .goto (by simp) (by simp) fun _ hset => by simp [hset, Point.BeforeTest]
  | lock =>
    simp only [step, hpoint, run] at hstep
    split_ifs at hstep with hset
    · obtain ⟨rfl, rfl⟩ := Prod.mk.inj (Option.some_inj.mp hstep)
      exact ⟨rfl, by simp, Or.inr ⟨hset, rfl, rfl⟩, Or.inl rfl, fun _ h => nomatch h⟩
    · obtain ⟨rfl, rfl⟩ := Prod.mk.inj (Option.some_inj.mp hstep)
      exact .goto (by simp) (by simp) fun _ h => absurd h hset
  | handle =>
    have hnot : ¬ s.point.BeforeTest := by simp [hpoint, Point.BeforeTest]
    simp only [step, hpoint, run] at hstep
    obtain ⟨rfl, rfl⟩ := Prod.mk.inj (Option.some_inj.mp hstep)
    exact .goto (by simp) (by simp) fun h => absurd h hnot

/-- A flag that is set will be seen: the descriptor is about to be written to, or has been, or the
    test comes before the next wait.  Every return was asked for. -/
structure Sound (trace : List Event) (s : State) : Prop where
  seen : s.interrupted = true →
    (∃ i, s.callers i = .write) ∨ 0 < s.counter ∨ s.point.BeforeTest
  returns : trace.count .set = trace.count .returned + if s.interrupted then 1 else 0

/-- A step of a caller -/
lemma Sound.interrupt {trace es : List Event} {s s' : State} {i : ℕ} (h : Sound trace s)
    (hstep : step s (.interrupt i) = some (s', es)) : Sound (trace ++ es) s' := by
  cases hi : s.callers i with
  | idle =>
    simp only [step, hi, setInterrupted] at hstep
    split_ifs at hstep with hset
    · obtain ⟨rfl, rfl⟩ := Prod.mk.inj (Option.some_inj.mp hstep)
      rwa [List.append_nil]
    · obtain ⟨rfl, rfl⟩ := Prod.mk.inj (Option.some_inj.mp hstep)
      refine ⟨fun _ => Or.inl ⟨i, Function.update_self ..⟩, ?_⟩
      have hreturns := h.returns
      simp only [hset, Bool.false_eq_true, if_false] at hreturns
      simp [List.count_append, hreturns]
  | write =>
    simp only [step, hi, writeEvent] at hstep
    obtain ⟨rfl, rfl⟩ := Prod.mk.inj (Option.some_inj.mp hstep)
    refine ⟨fun _ => Or.inr (Or.inl (Nat.succ_pos _)), ?_⟩
    rw [List.append_nil]
    exact h.returns

/-- A step of `run` -/
lemma Sound.run {trace es : List Event} {s s' : State} {o : Outcome} (h : Sound trace s)
    (hstep : step s (.run o) = some (s', es)) : Sound (trace ++ es) s' := by
  have hspec := run_spec hstep
  have hsets : (trace ++ es).count .set = trace.count .set := by
    rw [List.count_append, List.count_eq_zero.mpr hspec.sets, Nat.add_zero]
  obtain ⟨hflag, hreturned⟩ | ⟨hset, hcleared, rfl⟩ := hspec.flag
  · refine ⟨fun hset => ?_, ?_⟩
    · obtain ⟨i, hi⟩ | hcounter | hbefore := h.seen (hflag ▸ hset)
      · exact Or.inl ⟨i, hspec.callers ▸ hi⟩
      · exact Or.inr (hspec.counter.imp_left fun hsame => by rwa [hsame])
      · exact Or.inr (Or.inr (hspec.before hbefore hset))
    · rw [hsets, hflag, List.count_append, List.count_eq_zero.mpr hreturned, Nat.add_zero]
      exact h.returns
  · refine ⟨fun h => absurd (hcleared ▸ h) Bool.false_ne_true, ?_⟩
    have hreturns := h.returns
    rw [hset, if_pos rfl] at hreturns
    simp [hsets, hreturns, hcleared]

/-- **Along runs** the invariant holds. -/
lemma Sound.of_run {trace : List Event} {s : State} (h : system.Run trace s) : Sound trace s := by
  refine h.invariant ?_ ?_
  · rintro s rfl
    exact ⟨fun h => absurd h Bool.false_ne_true, rfl⟩
  · rintro trace s es s' hsound ⟨m, hstep⟩
    cases m with
    | interrupt i => exact hsound.interrupt hstep
    | resolved =>
      obtain ⟨rfl, rfl⟩ := Prod.mk.inj (Option.some_inj.mp hstep)
      refine ⟨fun _ => Or.inr (Or.inl (Nat.succ_pos _)), ?_⟩
      rw [List.append_nil]
      exact hsound.returns
    | run o => exact hsound.run hstep

/-- **No interrupt is lost.**  While `_interrupted` is set and nobody is about to write to the
    descriptor, there is something to read from it, or the flag is tested before the next wait; and
    `run` returns at most once for each time that the flag was set. -/
theorem interrupt_not_lost {trace : List Event} {s : State} (h : system.Run trace s) :
    (s.interrupted = true → (∀ i, s.callers i ≠ .write) → 0 < s.counter ∨ TestsFirst s) ∧
    trace.count .returned ≤ trace.count .set := by
  have hsound := Sound.of_run h
  refine ⟨fun hset hnone => ?_, by rw [hsound.returns]; exact Nat.le_add_right _ _⟩
  obtain ⟨i, hi⟩ | hcounter | hbefore := hsound.seen hset
  · exact absurd hi (hnone i)
  · exact Or.inl hcounter
  · exact Or.inr (testsFirst_of_beforeTest hbefore)

/-- A run in which a thread interrupts, and what holds after it -/
theorem interrupt_not_lost_one :
    ∃ s, system.Run [.set] s ∧ s.interrupted = true ∧ (∀ i, s.callers i ≠ .write) ∧
      (0 < s.counter ∨ TestsFirst s) := by
  have hidle : ∀ i, (writeEvent (setInterrupted .initial 0).1 0).1.callers i ≠ .write := by
    intro i
    by_cases hi : i = 0
    · subst hi; decide
    · simp [writeEvent, setInterrupted, State.initial]
  have hset : system.Run [.set] (setInterrupted .initial 0).1 :=
    System.Run.next (.start rfl) ⟨.interrupt 0, rfl⟩
  have hrun : system.Run [.set] (writeEvent (setInterrupted .initial 0).1 0).1 :=
    hset.next ⟨.interrupt 0, rfl⟩
  exact ⟨_, hrun, rfl, hidle, (interrupt_not_lost hrun).1 rfl hidle⟩

end Nstd.Interrupt
