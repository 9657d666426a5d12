import Mathlib.Data.List.Count
import Mathlib.Data.Nat.Notation
import Mathlib.Tactic.Lemma
import Nstd.Core.System

/-!
# Using a `Future` again

A `Future` may be started any number of times.  What it reports is kept in `_state`, which a
completed call writes and a start leaves as it is.

* `join`, `startProc`, `set`, `isFinished`, `isAborted` — the code.
* `Event` — the steps of the thread that uses the `Future` and of the worker.
* `Reports` — what is reported belongs to the call that was started last.
* **`reports_iff`** — this is so in the first call, and in a later one once it has completed.

Until a later call has completed, `_state` is still what the one before has left there.
-/

namespace Nstd

/-- `Future<void>::State` -/
inductive CallState
  | idleState
  | runningState
  | finishedState
  | abortedState
  deriving DecidableEq

/-- The fields of a `Future<void>` -/
structure Future where
  sig : Bool
  aborting : Bool
  state : CallState
  joinable : Bool

namespace Future

/-- `Future()` -/
def new : Future := ⟨false, false, .idleState, false⟩

/-- `abort` -/
def abort (f : Future) : Future := { f with aborting := true }

/-- `isFinished` -/
def isFinished (f : Future) : Bool := f.state = .finishedState

/-- `isAborted` -/
def isAborted (f : Future) : Bool := f.state = .abortedState

/-- `join`; `none` while it waits -/
def join (f : Future) : Option Future :=
  if f.joinable then
    if f.sig then some { f with sig := false, joinable := false } else none
  else some f

/-- `startProc`, up to the call of `run` that gives the call to a worker -/
def startProc (f : Future) : Option Future := do
  let f ← f.join
  some { f with joinable := true, aborting := false }

/-- The first step of `set`: `_state` gets what `_aborting` says. -/
def setState (f : Future) : Future :=
  { f with state := if f.aborting then .abortedState else .finishedState }

/-- The second step of `set` -/
def setSignal (f : Future) : Future := { f with sig := true }

/-- Where the worker is in the call that was started last -/
inductive Worker
  | calling
  | signalling
  | done
  deriving DecidableEq

/-- What may happen.  `completed` and `signalled` are the steps of `set`, and come after the call
    has returned. -/
inductive Event
  | start
  | abort
  | join
  | completed
  | signalled
  deriving DecidableEq

/-- A `Future` and the worker that has its call -/
structure State where
  future : Future
  worker : Worker

/-- One step -/
def step (s : State) : Event → Option State
  | .start => do
    let f ← s.future.startProc
    some ⟨f, .calling⟩
  | .abort => some { s with future := s.future.abort }
  | .join => do
    let f ← s.future.join
    some { s with future := f }
  | .completed => if s.worker = .calling then some ⟨s.future.setState, .signalling⟩ else none
  | .signalled => if s.worker = .signalling then some ⟨s.future.setSignal, .done⟩ else none

/-- A `Future` and all that is done with it -/
def system : System State Event where
  initial s := s = ⟨new, .done⟩
  step s es s' := ∃ e, step s e = some s' ∧ es = [e]

/-! ## What is reported -/

/-- What happened since the last start -/
def sinceStart (trace : List Event) : Option (List Event) :=
  trace.foldl (fun last e => if e = .start then some [] else last.map (· ++ [e])) none

/-- The call that was started last has completed. -/
def Completed (trace : List Event) : Prop := ∃ es, sinceStart trace = some es ∧ .completed ∈ es

/-- `abort` was called before the call completed. -/
def AbortedIn (es : List Event) : Prop := .abort ∈ es.takeWhile (· ≠ .completed)

/-- **What is reported belongs to the call that was started last**: it has completed, it is reported
    to be finished or to be aborted, and to be aborted if `abort` was called in time. -/
def Reports (trace : List Event) (f : Future) : Prop :=
  f.isFinished ∨ f.isAborted → ∃ es, sinceStart trace = some es ∧ .completed ∈ es
    ∧ f.isFinished = !f.isAborted ∧ (f.isAborted ↔ AbortedIn es)

/-! ## Runs -/

lemma sinceStart_start (trace : List Event) : sinceStart (trace ++ [.start]) = some [] := by
  rw [sinceStart, List.foldl_append]
  rfl

lemma sinceStart_append {trace es : List Event} (h : sinceStart trace = some es) {e : Event}
    (he : e ≠ .start) : sinceStart (trace ++ [e]) = some (es ++ [e]) := by
  rw [sinceStart] at h ⊢
  rw [List.foldl_append, h, List.foldl_cons, List.foldl_nil, if_neg he]
  rfl

lemma sinceStart_none {trace : List Event} (h : sinceStart trace = none) {e : Event}
    (he : e ≠ .start) : sinceStart (trace ++ [e]) = none := by
  rw [sinceStart] at h ⊢
  rw [List.foldl_append, h, List.foldl_cons, List.foldl_nil, if_neg he]
  rfl

lemma takeWhile_append_of_mem {es : List Event} (h : .completed ∈ es) (e : Event) :
    (es ++ [e]).takeWhile (· ≠ .completed) = es.takeWhile (· ≠ .completed) := by
  induction es with
  | nil => exact absurd h List.not_mem_nil
  | cons a es ih =>
    by_cases ha : a = .completed
    · simp [ha]
    · have hes := (List.mem_cons.mp h).resolve_left fun he => ha he.symm
      simp only [List.cons_append, List.takeWhile_cons, ih hes]

lemma abortedIn_completed {es : List Event} (h : .completed ∉ es) :
    AbortedIn (es ++ [.completed]) ↔ .abort ∈ es := by
  have hall : ∀ e ∈ es, decide (e ≠ Event.completed) = true := by
    intro e he
    exact decide_eq_true fun hcompleted => h (hcompleted ▸ he)
  rw [AbortedIn, List.takeWhile_append_of_pos hall]
  simp

/-- The fields tell how the call ended. -/
def Ended (es : List Event) (f : Future) : Prop :=
  f.state = .abortedState ∧ AbortedIn es ∨ f.state = .finishedState ∧ ¬ AbortedIn es

/-- **What the fields say** while the worker is somewhere in the last of `n` calls -/
def Tells (n : ℕ) (es : List Event) (f : Future) : Worker → Prop
  | .calling => .completed ∉ es ∧ f.joinable ∧ f.sig = false ∧ (f.aborting ↔ .abort ∈ es)
      ∧ (n = 1 ∧ f.state = .idleState ∨ 2 ≤ n ∧ (f.isFinished ∨ f.isAborted))
  | .signalling => .completed ∈ es ∧ f.joinable ∧ f.sig = false ∧ Ended es f
  | .done => .completed ∈ es ∧ f.sig = f.joinable ∧ Ended es f

/-- The invariant of a run -/
def Told (trace : List Event) (s : State) : Prop :=
  match sinceStart trace with
  | none => s.worker = .done ∧ trace.count .start = 0 ∧ s.future.state = .idleState
      ∧ s.future.joinable = false ∧ s.future.sig = false
  | some es => 1 ≤ trace.count .start ∧ Tells (trace.count .start) es s.future s.worker

lemma Ended.reports {es : List Event} {f : Future} (h : Ended es f) :
    f.isFinished = !f.isAborted ∧ (f.isAborted ↔ AbortedIn es) := by
  rcases h with ⟨hstate, haborted⟩ | ⟨hstate, haborted⟩
  · simp [isFinished, isAborted, hstate, haborted]
  · simp [isFinished, isAborted, hstate, haborted]

lemma Ended.either {es : List Event} {f : Future} (h : Ended es f) : f.isFinished ∨ f.isAborted := by
  rcases h with ⟨hstate, -⟩ | ⟨hstate, -⟩
  · exact Or.inr (by simp [isAborted, hstate])
  · exact Or.inl (by simp [isFinished, hstate])

/-- What happens after the call completed does not change how it ended. -/
lemma Ended.append {es : List Event} {f f' : Future} (h : Ended es f) (hes : .completed ∈ es)
    (e : Event) (hstate : f'.state = f.state) : Ended (es ++ [e]) f' := by
  rw [Ended, AbortedIn, takeWhile_append_of_mem hes, hstate]
  exact h

lemma count_start_append (trace : List Event) {e : Event} (he : e ≠ .start) :
    (trace ++ [e]).count .start = trace.count .start := by
  rw [List.count_append, List.count_singleton, if_neg (by simpa using he), Nat.add_zero]

lemma join_eq_some {f f' : Future} (h : f.join = some f') :
    f.joinable = false ∧ f' = f
      ∨ f.joinable ∧ f.sig ∧ f' = { f with sig := false, joinable := false } := by
  rw [join] at h
  cases hjoinable : f.joinable with
  | false =>
    rw [hjoinable] at h
    exact Or.inl ⟨rfl, (Option.some_inj.mp h).symm⟩
  | true =>
    cases hsig : f.sig with
    | false => simp [hjoinable, hsig] at h
    | true =>
      rw [hjoinable, hsig] at h
      exact Or.inr ⟨rfl, rfl, (Option.some_inj.mp h).symm⟩

lemma Tells.abort {n : ℕ} {es : List Event} {f : Future} {w : Worker} (h : Tells n es f w) :
    Tells n (es ++ [.abort]) f.abort w := by
  cases w with
  | calling =>
    obtain ⟨hes, hjoinable, hsig, -, hstate⟩ := h
    exact ⟨by simpa using hes, hjoinable, hsig, by simp [Future.abort], hstate⟩
  | signalling =>
    obtain ⟨hes, hjoinable, hsig, hended⟩ := h
    exact ⟨List.mem_append_left _ hes, hjoinable, hsig, hended.append hes .abort rfl⟩
  | done =>
    obtain ⟨hes, hsig, hended⟩ := h
    exact ⟨List.mem_append_left _ hes, hsig, hended.append hes .abort rfl⟩

/-- `join` waits until the worker is done. -/
lemma Tells.done_of_join {n : ℕ} {es : List Event} {f f' : Future} {w : Worker}
    (h : Tells n es f w) (hjoin : f.join = some f') :
    w = .done ∧ f'.sig = false ∧ f'.joinable = false ∧ f'.state = f.state := by
  cases w with
  | calling =>
    obtain ⟨-, hjoinable, hsig, -⟩ := h
    simp [Future.join, hjoinable, hsig] at hjoin
  | signalling =>
    obtain ⟨-, hjoinable, hsig, -⟩ := h
    simp [Future.join, hjoinable, hsig] at hjoin
  | done =>
    obtain ⟨-, hsig, -⟩ := h
    rcases join_eq_some hjoin with ⟨hjoinable, rfl⟩ | ⟨-, -, rfl⟩
    · exact ⟨rfl, hsig.trans hjoinable, hjoinable, rfl⟩
    · exact ⟨rfl, rfl, rfl, rfl⟩

lemma Tells.join {n : ℕ} {es : List Event} {f f' : Future} {w : Worker} (h : Tells n es f w)
    (hjoin : f.join = some f') : Tells n (es ++ [.join]) f' w := by
  obtain ⟨rfl, hsig, hjoinable, hstate⟩ := h.done_of_join hjoin
  obtain ⟨hes, -, hended⟩ := h
  exact ⟨List.mem_append_left _ hes, hsig.trans hjoinable.symm, hended.append hes .join hstate⟩

lemma Tells.completed {n : ℕ} {es : List Event} {f : Future} (h : Tells n es f .calling) :
    Tells n (es ++ [.completed]) f.setState .signalling := by
  obtain ⟨hes, hjoinable, hsig, haborting, -⟩ := h
  refine ⟨List.mem_append_right _ (List.mem_singleton_self _), hjoinable, hsig, ?_⟩
  rw [Ended, abortedIn_completed hes, ← haborting]
  cases hf : f.aborting with
  | false => exact Or.inr ⟨by simp [setState, hf], Bool.false_ne_true⟩
  | true => exact Or.inl ⟨by simp [setState, hf], rfl⟩

lemma Tells.signalled {n : ℕ} {es : List Event} {f : Future} (h : Tells n es f .signalling) :
    Tells n (es ++ [.signalled]) f.setSignal .done := by
  obtain ⟨hes, hjoinable, -, hended⟩ := h
  exact ⟨List.mem_append_left _ hes, hjoinable.symm, hended.append hes .signalled rfl⟩

/-- **A start** after other calls leaves what they reported. -/
lemma Told.start {trace : List Event} {s s' : State} (h : Told trace s)
    (hstep : Future.step s .start = some s') : Told (trace ++ [.start]) s' := by
  obtain ⟨f, hf, hs'⟩ := Option.bind_eq_some_iff.mp hstep
  obtain ⟨f', hjoin, hf⟩ := Option.bind_eq_some_iff.mp hf
  obtain rfl := Option.some_inj.mp hs'
  obtain rfl := Option.some_inj.mp hf
  have hcount : (trace ++ [Event.start]).count .start = trace.count .start + 1 := by
    rw [List.count_append, List.count_singleton_self]
  unfold Told at h ⊢
  rw [sinceStart_start, hcount]
  refine ⟨Nat.le_add_left _ _, List.not_mem_nil, rfl, ?_⟩
  cases hsince : sinceStart trace with
  | none =>
    rw [hsince] at h
    obtain ⟨-, hzero, hstate, hjoinable, hsig⟩ := h
    rcases join_eq_some hjoin with ⟨-, rfl⟩ | ⟨hjoinable', -⟩
    · exact ⟨hsig, by simp, Or.inl ⟨by rw [hzero], hstate⟩⟩
    · exact absurd (hjoinable.symm.trans hjoinable') Bool.false_ne_true
  | some es =>
    rw [hsince] at h
    obtain ⟨hpos, htells⟩ := h
    obtain ⟨hdone, hsig, -, hstate⟩ := htells.done_of_join hjoin
    rw [hdone] at htells
    have heither := htells.2.2.either
    refine ⟨hsig, by simp, Or.inr ⟨Nat.succ_le_succ hpos, ?_⟩⟩
    rw [isFinished, isAborted] at heither ⊢
    exact hstate.symm ▸ heither

/-- **One step** -/
theorem Told.step {trace : List Event} {s s' : State} {e : Event} (h : Told trace s)
    (hstep : Future.step s e = some s') : Told (trace ++ [e]) s' := by
  by_cases he : e = .start
  · subst he
    exact h.start hstep
  · unfold Told at h ⊢
    cases hsince : sinceStart trace with
    | none =>
      rw [hsince] at h
      rw [sinceStart_none hsince he, count_start_append trace he]
      obtain ⟨hworker, hcount, hstate, hjoinable, hsig⟩ := h
      cases e with
      | start => exact absurd rfl he
      | abort =>
        obtain rfl := Option.some_inj.mp hstep
        exact ⟨hworker, hcount, hstate, hjoinable, hsig⟩
      | join =>
        simp only [Future.step, Future.join, hjoinable] at hstep
        obtain rfl := Option.some_inj.mp hstep
        exact ⟨hworker, hcount, hstate, hjoinable, hsig⟩
      | completed => simp [Future.step, hworker] at hstep
      | signalled => simp [Future.step, hworker] at hstep
    | some es =>
      rw [hsince] at h
      rw [sinceStart_append hsince he, count_start_append trace he]
      obtain ⟨hcount, htells⟩ := h
      refine ⟨hcount, ?_⟩
      cases e with
      | start => exact absurd rfl he
      | abort =>
        obtain rfl := Option.some_inj.mp hstep
        exact htells.abort
      | join =>
        obtain ⟨f, hjoin, hs'⟩ := Option.bind_eq_some_iff.mp hstep
        obtain rfl := Option.some_inj.mp hs'
        exact htells.join hjoin
      | completed =>
        cases hworker : s.worker with
        | calling =>
          simp only [Future.step, hworker, if_true] at hstep
          obtain rfl := Option.some_inj.mp hstep
          exact (hworker ▸ htells).completed
        | _ => simp [Future.step, hworker] at hstep
      | signalled =>
        cases hworker : s.worker with
        | signalling =>
          simp only [Future.step, hworker, if_true] at hstep
          obtain rfl := Option.some_inj.mp hstep
          exact (hworker ▸ htells).signalled
        | _ => simp [Future.step, hworker] at hstep

lemma told_of_run {trace : List Event} {s : State} (h : system.Run trace s) : Told trace s := by
  refine h.invariant (fun s hs => ?_) fun trace s es s' hs hstep => ?_
  · subst hs
    exact ⟨rfl, rfl, rfl, rfl, rfl⟩
  · obtain ⟨e, hstep, rfl⟩ := hstep
    exact hs.step hstep

/-- **What a `Future` reports** belongs to the call that was started last, in its first call and
    after the last call has completed, and only then. -/
theorem reports_iff {trace : List Event} {s : State} (h : system.Run trace s) :
    Reports trace s.future ↔ trace.count .start ≤ 1 ∨ Completed trace := by
  have htold := told_of_run h
  unfold Told at htold
  cases hsince : sinceStart trace with
  | none =>
    rw [hsince] at htold
    obtain ⟨-, hcount, hstate, -⟩ := htold
    refine iff_of_true (fun heither => ?_) (Or.inl (by omega))
    simp [isFinished, isAborted, hstate] at heither
  | some es =>
    rw [hsince] at htold
    obtain ⟨-, htells⟩ := htold
    have hcompleted : Completed trace ↔ .completed ∈ es := by
      simp [Completed, hsince]
    rw [hcompleted]
    cases hworker : s.worker with
    | calling =>
      rw [hworker] at htells
      obtain ⟨hes, -, -, -, hstate⟩ := htells
      rcases hstate with ⟨hone, hidle⟩ | ⟨htwo, heither⟩
      · refine iff_of_true (fun heither => ?_) (Or.inl (Nat.le_of_eq hone))
        simp [isFinished, isAborted, hidle] at heither
      · refine iff_of_false (fun hreports => ?_) (by rintro (hle | hmem); omega; exact hes hmem)
        obtain ⟨es', hes', hmem, -⟩ := hreports heither
        exact hes (Option.some_inj.mp (hsince.symm.trans hes') ▸ hmem)
    | signalling =>
      rw [hworker] at htells
      obtain ⟨hes, -, -, hended⟩ := htells
      exact iff_of_true (fun _ => ⟨es, hsince, hes, hended.reports⟩) (Or.inr hes)
    | done =>
      rw [hworker] at htells
      obtain ⟨hes, -, hended⟩ := htells
      exact iff_of_true (fun _ => ⟨es, hsince, hes, hended.reports⟩) (Or.inr hes)

/-- A call is aborted, and completes. -/
theorem reports_iff_abort : ∃ f : Future, f.isAborted ∧ Reports [.start, .abort, .completed] f := by
  have hrun := (((System.Run.start rfl : system.Run [] ⟨new, .done⟩).next
    ⟨.start, rfl, rfl⟩).next ⟨.abort, rfl, rfl⟩).next ⟨.completed, rfl, rfl⟩
  exact ⟨_, rfl, (reports_iff hrun).mpr (Or.inl (by decide))⟩

/-- **A second call** is reported to be finished when it has only been started. -/
theorem finished_too_early : ∃ s, system.Run [.start, .completed, .signalled, .start] s
    ∧ s.worker = .calling ∧ s.future.isFinished
    ∧ ¬ Reports [.start, .completed, .signalled, .start] s.future := by
  have hrun := ((((System.Run.start rfl : system.Run [] ⟨new, .done⟩).next
    ⟨.start, rfl, rfl⟩).next ⟨.completed, rfl, rfl⟩).next ⟨.signalled, rfl, rfl⟩).next
    ⟨.start, rfl, rfl⟩
  refine ⟨_, hrun, rfl, rfl, fun hreports => ?_⟩
  obtain ⟨es, hes, hmem, -⟩ := hreports (Or.inl rfl)
  obtain rfl := Option.some_inj.mp hes
  exact absurd hmem List.not_mem_nil

end Future

end Nstd
