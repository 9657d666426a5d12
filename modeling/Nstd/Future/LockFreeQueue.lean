import Mathlib.Data.Int.Notation
import Mathlib.Data.Nat.Notation
import Mathlib.Logic.Function.Basic
import Nstd.Core.System

/-!
# `LockFreeQueue`

The queue of the thread pool, with any number of threads that push and pop.  Every read of a
volatile variable, every `compareAndSwap`, every copy of the data and every `swap` is a step of its
own, and the counters do not overflow.

* `capacityMask` — what the constructor computes, on 64 bits.
* `Point` — where a thread is in `push` or `pop`.
* `step` — the next step of a thread.
* `system` — the runs of a queue of a certain capacity.
-/

namespace Nstd.LockFreeQueue

/-! ## The constructor -/

/-- The capacity mask that the constructor computes -/
def capacityMask (capacity : UInt64) : UInt64 :=
  let mask := capacity - 1
  let mask := mask ||| mask >>> 1
  let mask := mask ||| mask >>> 2
  let mask := mask ||| mask >>> 4
  let mask := mask ||| mask >>> 8
  mask ||| mask >>> 16

/-- `Node`, where a slot of raw memory has no data -/
structure Node (T : Type) where
  data : Option T
  tail : ℕ
  head : ℤ

/-- Where a thread is in `push(data)` or `pop(result)`: the step that comes next, with the local
    variables -/
inductive Point (T : Type)
  | idle
  /-- `tail = _tail` -/
  | pushTail (data : T)
  /-- `node->tail != tail` -/
  | pushNode (data : T) (tail : ℕ)
  /-- `compareAndSwap(_tail, tail, tail + 1)` -/
  | pushSwap (data : T) (tail : ℕ)
  /-- `new (&node->data) T(data)` -/
  | pushData (data : T) (tail : ℕ)
  /-- `swap(node->head, tail)`, and `return true` -/
  | pushHead (data : T) (tail : ℕ)
  /-- `head = _head` -/
  | popHead
  /-- `node->head != head` -/
  | popNode (head : ℕ)
  /-- `compareAndSwap(_head, head, head + 1)` -/
  | popSwap (head : ℕ)
  /-- `result = node->data` -/
  | popData (head : ℕ)
  /-- `(&node->data)->~T()` -/
  | popClear (head : ℕ) (result : Option T)
  /-- `swap(node->tail, head + _capacity)`, and `return true` -/
  | popTail (head : ℕ) (result : Option T)

/-- A queue, and the threads that use it -/
structure State (T : Type) where
  capacity : ℕ
  capacityMask : ℕ
  queue : ℕ → Node T
  tail : ℕ
  head : ℕ
  threads : ℕ → Point T

/-- What a thread does that others may want to know -/
inductive Event (T : Type)
  /-- A call of `push(data)` has the tail ticket. -/
  | tookTail (tail : ℕ) (data : T)
  /-- A call of `push(data)` returns true. -/
  | pushed (tail : ℕ) (data : T)
  /-- A call of `pop` has the head ticket. -/
  | tookHead (head : ℕ)
  /-- A call of `pop` returns true, with a result. -/
  | popped (head : ℕ) (result : Option T)
  deriving DecidableEq

variable {T : Type}

/-- `&_queue[ticket & _capacityMask]` -/
def State.node (s : State T) (ticket : ℕ) : Node T := s.queue (ticket &&& s.capacityMask)

/-- The thread goes on at another point. -/
def State.goto (s : State T) (i : ℕ) (point : Point T) : State T :=
  { s with threads := Function.update s.threads i point }

/-- The node of a ticket is written to. -/
def State.setNode (s : State T) (ticket : ℕ) (f : Node T → Node T) : State T :=
  { s with queue := Function.update s.queue (ticket &&& s.capacityMask) (f (s.node ticket)) }

/-- The next step of a thread that is in `push` or `pop` -/
def run (s : State T) (i : ℕ) : Point T → Option (State T × List (Event T))
  | .idle => none
  | .pushTail data => some (s.goto i (.pushNode data s.tail), [])
  | .pushNode data tail =>
    if (s.node tail).tail ≠ tail then some (s.goto i .idle, [])
    else some (s.goto i (.pushSwap data tail), [])
  | .pushSwap data tail =>
    if s.tail = tail then
      some ({ s with tail := tail + 1 }.goto i (.pushData data tail), [.tookTail tail data])
    else some (s.goto i (.pushNode data s.tail), [])
  | .pushData data tail =>
    some ((s.setNode tail fun n => { n with data := some data }).goto i (.pushHead data tail), [])
  | .pushHead data tail =>
    some ((s.setNode tail fun n => { n with head := tail }).goto i .idle, [.pushed tail data])
  | .popHead => some (s.goto i (.popNode s.head), [])
  | .popNode head =>
    if (s.node head).head ≠ head then some (s.goto i .idle, [])
    else some (s.goto i (.popSwap head), [])
  | .popSwap head =>
    if s.head = head then
      some ({ s with head := head + 1 }.goto i (.popData head), [.tookHead head])
    else some (s.goto i (.popNode s.head), [])
  | .popData head => some (s.goto i (.popClear head (s.node head).data), [])
  | .popClear head result =>
    some ((s.setNode head fun n => { n with data := none }).goto i (.popTail head result), [])
  | .popTail head result =>
    some ((s.setNode head fun n => { n with tail := head + s.capacity }).goto i .idle,
      [.popped head result])

/-- What may happen next: a thread calls a function, or takes its next step. -/
inductive Move (T : Type)
  | push (i : ℕ) (data : T)
  | pop (i : ℕ)
  | run (i : ℕ)

/-- What happens, and what is emitted; `none` if it cannot happen -/
def step (s : State T) : Move T → Option (State T × List (Event T))
  | .push i data =>
    match s.threads i with
    | .idle => some (s.goto i (.pushTail data), [])
    | _ => none
  | .pop i =>
    match s.threads i with
    | .idle => some (s.goto i .popHead, [])
    | _ => none
  | .run i => run s i (s.threads i)

/-- The queue behind its constructor, with no thread in it -/
def State.initial (T : Type) (capacity : UInt64) : State T :=
  let mask := (LockFreeQueue.capacityMask capacity).toNat
  { capacity := mask + 1
    capacityMask := mask
    queue := fun i => ⟨none, i, -1⟩
    tail := 0
    head := 0
    threads := fun _ => .idle }

/-- The runs of a queue -/
def system (T : Type) (capacity : UInt64) : System (State T) (Event T) where
  initial := (· = .initial T capacity)
  step s es s' := ∃ m, step s m = some (s', es)

end Nstd.LockFreeQueue
