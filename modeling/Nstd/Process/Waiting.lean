import Mathlib.Data.Int.Notation
import Mathlib.Data.Nat.Notation
import Mathlib.Logic.Function.Basic
import Mathlib.Tactic.Lemma

/-!
# `Process::wait` and `Process::interrupt`

One thread calls `wait`, and any threads call `interrupt`; processes are started, exit and are joined
meanwhile.

* `State` — what `ProcessFramework` knows, the children that the system knows, the pids that `Process`
  objects know, and where the thread is that waits.
* `interrupt`, `enter`, `wake`, `reap`, `report`, `finish` — the code, in the parts that the mutex and
  the system calls make of it.
* `Move`, `move` — one step of any thread, or of a child.
* `Expected` — what a program may expect of what it sees.
-/

namespace Nstd.ProcessWait

/-- A child, until its parent has asked for its status -/
inductive Child
  | running
  | exited
  deriving DecidableEq

/-- Where the thread is that calls `wait` -/
inductive Location
  | idle
  /-- Before the mutex is locked -/
  | entering (processes : List ℕ)
  /-- `pthread_cond_wait` -/
  | condition
  /-- `waitpid(signaled, &status, 0)`, with the mutex locked -/
  | reaping
  /-- `waitid(P_ALL, 0, &sigInfo, WEXITED | WNOWAIT)` -/
  | blocked (processes : List ℕ)
  /-- A child was reported that is not in the list; before the mutex is locked -/
  | reported (pid : ℕ)
  deriving DecidableEq

/-- `Process` objects are known by numbers; the pid of one without a process is 0. -/
structure State where
  signaled : ℤ
  waitState : ℕ
  waiter : Location
  /-- An `interrupt` is between `vfork` and `signaled = pid`, with the mutex locked. -/
  forked : Option ℕ
  child : ℕ → Option Child
  pid : ℕ → ℕ

/-- What there is to see for a program -/
inductive Event
  | start (process pid : ℕ)
  | exit (pid : ℕ)
  | join (process : ℕ)
  | interrupt
  | call (processes : List ℕ)
  | ret (process : Option ℕ)
  deriving DecidableEq

namespace State

/-- No process was started yet. -/
def empty : State := ⟨0, 0, .idle, none, fun _ => none, fun _ => 0⟩

/-- The mutex is locked. -/
def Locked (s : State) : Prop := s.forked.isSome ∨ s.waiter = .reaping

instance (s : State) : Decidable s.Locked := inferInstanceAs (Decidable (_ ∨ _))

/-- The `Process` objects that `wait` reads -/
def inUse (s : State) : List ℕ :=
  match s.waiter with
  | .entering processes => processes
  | .blocked processes => processes
  | _ => []

/-- The child that `interrupt` has forked, and that stands for the interrupt -/
def helper (s : State) : Option ℕ :=
  match s.forked with
  | some pid => some pid
  | none => if 0 < s.signaled then some s.signaled.toNat else none

/-- `interrupt`, as far as `vfork`, which returns `pid` -/
def interrupt (s : State) (pid : ℕ) : State :=
  if s.signaled = 0 then
    if s.waitState = 2 then
      { s with child := Function.update s.child pid (some .running), forked := some pid }
    else { s with signaled := -1 }
  else s

/-- `return process` -/
def ret (s : State) (process : Option ℕ) : State × List Event :=
  ({ s with waiter := .idle }, [.ret process])

/-- The first critical section of `wait`, as far as a call that blocks -/
def enter (s : State) (processes : List ℕ) : State × List Event :=
  if s.signaled = 0 then
    if processes = [] then ({ s with waitState := 1, waiter := .condition }, [])
    else ({ s with waitState := 2, waiter := .blocked processes }, [])
  else if s.signaled = -1 then { s with signaled := 0 }.ret none
  else ({ s with waiter := .reaping }, [])

/-- `pthread_cond_wait` returns; the assertion is that `signaled` is negative. -/
def wake (s : State) : Option (State × List Event) :=
  if s.signaled = 0 then some (s, [])
  else if s.signaled < 0 then some ({ s with signaled := 0, waitState := 0 }.ret none)
  else none

/-- `pid = waitpid(signaled, &status, 0)` and `if(pid == signaled) signaled = 0`; `none` as long as the
    child is running. -/
def waitSignaled (s : State) : Option State :=
  match s.child s.signaled.toNat with
  | some .running => none
  | some .exited => some { s with
      child := Function.update s.child s.signaled.toNat none, signaled := 0 }
  | none => some s

/-- The rest of the first critical section -/
def reap (s : State) : Option (State × List Event) := do
  let s ← s.waitSignaled
  some ({ s with waitState := 0 }.ret none)

/-- `waitid` has reported a child, which is looked for in the list. -/
def report (s : State) (processes : List ℕ) (pid : ℕ) : State × List Event :=
  match processes.find? fun process => s.pid process = pid with
  | some process => s.ret (some process)
  | none => ({ s with waiter := .reported pid }, [])

/-- The last critical section of `wait` -/
def finish (s : State) (pid : ℕ) : Option (State × List Event) := do
  let s ← if pid = s.signaled then s.waitSignaled else some s
  some ({ s with waitState := 0 }.ret none)

end State

/-- The steps.  `start`, `exit`, `join`, `interrupt` and `call` are up to the program and its children;
    a pid is chosen by the system. -/
inductive Move
  | start (process pid : ℕ)
  | exit (pid : ℕ)
  | join (process : ℕ)
  | interrupt (pid : ℕ)
  | leave
  | call (processes : List ℕ)
  | enter
  | wake
  | reap
  | waitid (pid : ℕ)
  | waitidFails
  | finish
  deriving DecidableEq

/-- One step, if it can be taken.  New children have pids that are not in use, a join waits until the
    process has exited, and an object that `wait` reads is not changed by other threads. -/
def move (s : State) : Move → Option (State × List Event)
  | .start process pid =>
    if s.pid process = 0 ∧ s.child pid = none ∧ pid ≠ 0 ∧ process ∉ s.inUse then
      some ({ s with
        child := Function.update s.child pid (some .running)
        pid := Function.update s.pid process pid }, [.start process pid])
    else none
  | .exit pid =>
    if s.child pid = some .running then
      some ({ s with child := Function.update s.child pid (some .exited) }, [.exit pid])
    else none
  | .join process =>
    if s.pid process ≠ 0 ∧ s.child (s.pid process) = some .exited ∧ process ∉ s.inUse then
      some ({ s with
        child := Function.update s.child (s.pid process) none
        pid := Function.update s.pid process 0 }, [.join process])
    else none
  | .interrupt pid =>
    if ¬ s.Locked ∧ (s.signaled = 0 ∧ s.waitState = 2 → s.child pid = none ∧ pid ≠ 0) then
      some (s.interrupt pid, [.interrupt])
    else none
  | .leave =>
    match s.forked with
    | some pid => some ({ s with signaled := pid, forked := none }, [])
    | none => none
  | .call processes =>
    if s.waiter = .idle then some ({ s with waiter := .entering processes }, [.call processes])
    else none
  | .enter =>
    match s.waiter with
    | .entering processes => if s.Locked then none else some (s.enter processes)
    | _ => none
  | .wake => if s.waiter = .condition ∧ ¬ s.Locked then s.wake else none
  | .reap => if s.waiter = .reaping then s.reap else none
  | .waitid pid =>
    match s.waiter with
    | .blocked processes =>
      if s.child pid = some .exited then some (s.report processes pid) else none
    | _ => none
  | .waitidFails =>
    match s.waiter with
    | .blocked _ => some (s.ret none)
    | _ => none
  | .finish =>
    match s.waiter with
    | .reported pid => if s.Locked then none else s.finish pid
    | _ => none

/-- What a program may assume: `waitid` fails where there is no child, and there is one. -/
def Allowed : Move → Prop
  | .waitidFails => False
  | _ => True

instance : (m : Move) → Decidable (Allowed m)
  | .waitidFails => inferInstanceAs (Decidable False)
  | .start .. | .exit _ | .join _ | .interrupt _ | .leave | .call _ | .enter | .wake | .reap
  | .waitid _ | .finish => inferInstanceAs (Decidable True)

/-- **When a step is right**: a child that `waitid` reports is in the list, or stands for an
    interrupt. -/
def Fits (s : State) : Move → Prop
  | .waitid pid => (∃ process ∈ s.inUse, s.pid process = pid) ∨ s.helper = some pid
  | _ => True

instance (s : State) : (m : Move) → Decidable (Fits s m)
  | .waitid _ => inferInstanceAs (Decidable (_ ∨ _))
  | .start .. | .exit _ | .join _ | .interrupt _ | .leave | .call _ | .enter | .wake | .reap
  | .waitidFails | .finish => inferInstanceAs (Decidable True)

/-- A step that is allowed and right -/
def fitMove (s : State) (m : Move) : Option (State × List Event) :=
  if Allowed m ∧ Fits s m then move s m else none

/-! ## What a `wait` that is interrupted depends on -/

/-- Steps of the thread that waits, of one that is in `interrupt`, and of the helper -/
def Internal (s : State) : Move → Prop
  | .leave | .enter | .wake | .reap | .waitid _ | .finish => True
  | .exit pid => s.helper = some pid
  | .start .. | .join _ | .interrupt _ | .call _ | .waitidFails => False

instance (s : State) : (m : Move) → Decidable (Internal s m)
  | .leave | .enter | .wake | .reap | .waitid _ | .finish => inferInstanceAs (Decidable True)
  | .exit _ => inferInstanceAs (Decidable (_ = _))
  | .start .. | .join _ | .interrupt _ | .call _ | .waitidFails => inferInstanceAs (Decidable False)

/-- How many of them there are among some moves -/
def internals (s : State) : List Move → ℕ
  | [] => 0
  | m :: ms =>
    (if Internal s m then 1 else 0) + match fitMove s m with
      | some (s', _) => internals s' ms
      | none => 0

/-! ## What to expect -/

/-- An interrupt is pending or not, and is used up by a `wait` that returns 0.  A `wait` with a list has
    that list; a process that it returns is in it, and has exited. -/
structure Expected where
  pending : Bool
  waiting : Option (List ℕ)
  pid : ℕ → ℕ
  exited : ℕ → Bool

namespace Expected

def initial : Expected := ⟨false, none, fun _ => 0, fun _ => false⟩

/-- What happens, if it may -/
def next (g : Expected) : Event → Option Expected
  | .start process pid => some { g with
      pid := Function.update g.pid process pid, exited := Function.update g.exited pid false }
  | .exit pid => some { g with exited := Function.update g.exited pid true }
  | .join process => some { g with pid := Function.update g.pid process 0 }
  | .interrupt => some { g with pending := true }
  | .call processes => if g.waiting = none then some { g with waiting := some processes } else none
  | .ret none =>
    if g.waiting.isSome ∧ g.pending then some { g with waiting := none, pending := false } else none
  | .ret (some process) =>
    if (∃ processes ∈ g.waiting, process ∈ processes) ∧ g.pid process ≠ 0
        ∧ g.exited (g.pid process) then
      some { g with waiting := none }
    else none

/-- What has happened so far, if it might -/
def after (trace : List Event) : Option Expected := trace.foldlM next initial

end Expected

end Nstd.ProcessWait
