import Mathlib.Data.List.Count
import Mathlib.Data.Nat.Notation
import Mathlib.Logic.Function.Basic
import Mathlib.Tactic.SplitIfs
import Nstd.Core.System

/-!
# `Monitor`

A flag, a mutex and a condition variable, with any number of threads.  `wait` blocks first and looks
at the flag afterwards.

* `step` — the next step of a thread.
* `Missed` — a thread is blocked although the flag is set.
* `Timely` — the steps that do not lead there.
* `missed_step` — which steps lead there.
* **`set_not_missed`** — no run of timely steps does, and each `set` releases at most one `wait`.

The condition variable wakes a thread only when it is signalled, and then one thread if any is
blocked.  A thread that has locked the monitor does not call `set`, which would wait for itself.

`set` wakes a thread only if one is blocked already, and a thread that blocks later does not look at the
flag first.
-/

namespace Nstd.Monitor

/-- Where a thread is -/
inductive Point
  /-- In no function, and without the mutex -/
  | outside
  /-- Behind `lock`, and in no other function -/
  | locked
  /-- In `wait`: blocked in `pthread_cond_wait` -/
  | blocked
  /-- In `wait`: woken, `pthread_cond_wait` has to lock the mutex again -/
  | woken
  /-- In `wait`: `if(signaled)` -/
  | testing
  /-- In `set`: `pthread_mutex_lock` -/
  | entering
  /-- In `set`: `signaled = true` -/
  | setting
  /-- In `set`: `pthread_mutex_unlock` -/
  | leaving
  /-- In `set`: `pthread_cond_signal` -/
  | signalling
  deriving DecidableEq

/-- A monitor, and the threads that use it -/
structure State where
  signaled : Bool
  mutex : Option ℕ
  threads : ℕ → Point

/-- What counts: the flag was set, or a `wait` has returned. -/
inductive Event
  | set (i : ℕ)
  | returned (i : ℕ)

/-- The thread goes on at another point. -/
def State.goto (s : State) (i : ℕ) (point : Point) : State :=
  { s with threads := Function.update s.threads i point }

/-- What may happen next: a thread calls a function, or takes its next step in one; `signal` tells
    which thread is woken. -/
inductive Move
  | lock (i : ℕ)
  | unlock (i : ℕ)
  | wait (i : ℕ)
  | set (i : ℕ)
  | run (i : ℕ)
  | signal (i : ℕ) (woken : Option ℕ)

/-- The next step of a thread in `wait` or `set` -/
def run (s : State) (i : ℕ) : Point → Option (State × List Event)
  | .woken =>
    if s.mutex = none then some ({ s with mutex := some i }.goto i .testing, []) else none
  | .testing =>
    if s.signaled then some ({ s with signaled := false }.goto i .locked, [.returned i])
    else some ({ s with mutex := none }.goto i .blocked, [])
  | .entering =>
    if s.mutex = none then some ({ s with mutex := some i }.goto i .setting, []) else none
  | .setting => some ({ s with signaled := true }.goto i .leaving, [.set i])
  | .leaving => some ({ s with mutex := none }.goto i .signalling, [])
  | _ => none

/-- What happens, and what counts of it; `none` if it cannot happen -/
def step (s : State) : Move → Option (State × List Event)
  | .lock i =>
    if s.threads i = .outside ∧ s.mutex = none then
      some ({ s with mutex := some i }.goto i .locked, [])
    else none
  | .unlock i =>
    if s.threads i = .locked then some ({ s with mutex := none }.goto i .outside, []) else none
  | .wait i =>
    -- blocks before it has looked at the flag
    if s.threads i = .locked then some ({ s with mutex := none }.goto i .blocked, []) else none
  | .set i => if s.threads i = .outside then some (s.goto i .entering, []) else none
  | .run i => run s i (s.threads i)
  | .signal i none => if s.threads i = .signalling then some (s.goto i .outside, []) else none
  | .signal i (some j) =>
    if s.threads i = .signalling ∧ s.threads j = .blocked then
      some ((s.goto i .outside).goto j .woken, [])
    else none

/-- A signal wakes a thread when one is blocked. -/
def Wakes (s : State) : Move → Prop
  | .signal _ none => ∀ j, s.threads j ≠ .blocked
  | _ => True

/-- A monitor behind its constructor, with no thread in it -/
def State.initial : State := ⟨false, none, fun _ => .outside⟩

/-- The runs of a monitor whose steps meet a condition -/
def system (condition : State → Move → Prop) : System State Event where
  initial := (· = .initial)
  step s es s' := ∃ m, Wakes s m ∧ condition s m ∧ step s m = some (s', es)

/-! ## Waits that miss a `set` -/

def Point.inSet : Point → Bool
  | .entering | .setting | .leaving | .signalling => true
  | _ => false

/-- A thread that was woken has yet to look at the flag. -/
def Point.onItsWay : Point → Bool
  | .woken | .testing => true
  | _ => false

/-- The flag is set and no `set` is in progress; a thread that has yet to look at the flag counts as
    well, unless `strict` does not let it. -/
structure Settled (strict : Bool) (s : State) : Prop where
  signaled : s.signaled = true
  noSet : ∀ i, (s.threads i).inSet = false
  noneOnItsWay : strict = false → ∀ i, (s.threads i).onItsWay = false

/-- **A `set` is missed**: a thread is blocked all the same. -/
def Missed (strict : Bool) (s : State) : Prop :=
  Settled strict s ∧ ∃ i, s.threads i = .blocked

/-- **A step is timely**: no `wait` begins when a `set` has been made; and, when one that is strict
    asks, the last `set` to end leaves nobody blocked behind the thread that it wakes. -/
def Timely (strict : Bool) (s : State) : Move → Prop
  | .wait _ => ¬ Settled strict s
  | .signal i woken => strict = true → ¬ (s.signaled = true
      ∧ (∀ j, j ≠ i → (s.threads j).inSet = false)
      ∧ ∃ j, s.threads j = .blocked ∧ woken ≠ some j)
  | _ => True

variable {strict : Bool} {s s' : State} {i : ℕ} {m : Move} {es : List Event}

@[simp] lemma goto_self (s : State) (i : ℕ) (point : Point) : (s.goto i point).threads i = point := by
  simp [State.goto]

lemma goto_ne {j : ℕ} (h : j ≠ i) (s : State) (point : Point) :
    (s.goto i point).threads j = s.threads j := by
  simp [State.goto, h]

@[simp] lemma goto_signaled (s : State) (i : ℕ) (point : Point) :
    (s.goto i point).signaled = s.signaled := rfl

/-- While a `set` is in progress, nothing is missed. -/
lemma not_missed_inSet (h : (s.threads i).inSet = true) : ¬ Missed strict s := by
  rintro ⟨hsettled, -⟩
  rw [hsettled.noSet i] at h
  exact Bool.false_ne_true h

/-- While the flag is not set, nothing is missed. -/
lemma not_missed_unset (h : s.signaled = false) : ¬ Missed strict s := by
  rintro ⟨hsettled, -⟩
  rw [hsettled.signaled] at h
  exact Bool.false_ne_true h.symm

/-- A thread goes on at a point that is of the same kind. -/
lemma kind_goto {T : Type} (kind : Point → T) {point : Point}
    (hkind : kind point = kind (s.threads i)) (mutex : Option ℕ) (j : ℕ) :
    kind (({ s with mutex }.goto i point).threads j) = kind (s.threads j) := by
  by_cases hj : j = i
  · rw [hj, goto_self, hkind]
  · rw [goto_ne hj]

lemma settled_goto {point : Point} (hset : point.inSet = (s.threads i).inSet)
    (hway : point.onItsWay = (s.threads i).onItsWay) (mutex : Option ℕ) :
    Settled strict ({ s with mutex }.goto i point) ↔ Settled strict s := by
  have hset' := kind_goto Point.inSet hset mutex
  have hway' := kind_goto Point.onItsWay hway mutex
  constructor
  · rintro ⟨hsignaled, hnoSet, hnone⟩
    refine ⟨hsignaled, fun j => ?_, fun hstrict j => ?_⟩
    · rw [← hset' j, hnoSet j]
    · rw [← hway' j, hnone hstrict j]
  · rintro ⟨hsignaled, hnoSet, hnone⟩
    refine ⟨hsignaled, fun j => ?_, fun hstrict j => ?_⟩
    · rw [hset' j, hnoSet j]
    · rw [hway' j, hnone hstrict j]

lemma missed_goto {point : Point} (hset : point.inSet = (s.threads i).inSet)
    (hway : point.onItsWay = (s.threads i).onItsWay)
    (hblocked : point = .blocked ↔ s.threads i = .blocked) (mutex : Option ℕ) :
    Missed strict ({ s with mutex }.goto i point) ↔ Missed strict s :=
  and_congr (settled_goto hset hway mutex) (exists_congr fun j =>
    iff_of_eq (kind_goto (fun p => p = Point.blocked) (propext hblocked) mutex j))

/-- A thread that begins to wait misses what has settled. -/
lemma missed_wait (h : s.threads i = .locked) :
    Missed strict ({ s with mutex := none }.goto i .blocked) ↔ Settled strict s := by
  have hsettled : Settled strict ({ s with mutex := none }.goto i .blocked) ↔ Settled strict s :=
    settled_goto (by rw [h]; rfl) (by rw [h]; rfl) none
  constructor
  · rintro ⟨hmissed, -⟩
    exact hsettled.mp hmissed
  · intro hs
    exact ⟨hsettled.mpr hs, i, goto_self _ i _⟩

/-- A `set` ends; `woken` is the thread that goes on. -/
lemma missed_signal {woken : Option ℕ} (hi : s.threads i = .signalling)
    (hwakes : Wakes s (.signal i woken)) (h : step s (.signal i woken) = some (s', es)) :
    Missed strict s' ↔ ¬ Timely strict s (.signal i woken) := by
  cases woken with
  | none =>
    rw [step, if_pos hi] at h
    obtain rfl := congrArg Prod.fst (Option.some_inj.mp h)
    have hnone : ∀ j, (s.goto i .outside).threads j ≠ .blocked := by
      intro j
      by_cases hj : j = i
      · rw [hj, goto_self]
        exact Point.noConfusion
      · rw [goto_ne hj]
        exact hwakes j
    constructor
    · rintro ⟨-, j, hj⟩
      exact absurd hj (hnone j)
    · intro huntimely
      refine absurd (fun _ => ?_) huntimely
      rintro ⟨-, -, j, hj, -⟩
      exact hwakes j hj
  | some k =>
    rw [step] at h
    split_ifs at h with hk
    obtain rfl := congrArg Prod.fst (Option.some_inj.mp h)
    have hne : i ≠ k := by
      rintro rfl
      exact absurd (hk.1.symm.trans hk.2) Point.noConfusion
    have hother : ∀ j, j ≠ i → j ≠ k →
        ((s.goto i .outside).goto k .woken).threads j = s.threads j := fun j hji hjk => by
      rw [goto_ne hjk, goto_ne hji]
    have hleft : ((s.goto i .outside).goto k .woken).threads i = .outside := by
      rw [goto_ne hne, goto_self]
    constructor
    · rintro ⟨hsettled, j, hj⟩ htimely
      have hstrict : strict = true := by
        cases strict with
        | true => rfl
        | false =>
          have hway := hsettled.noneOnItsWay rfl k
          rw [goto_self] at hway
          exact absurd hway.symm Bool.false_ne_true
      have hjk : j ≠ k := by
        rintro rfl
        rw [goto_self] at hj
        exact absurd hj Point.noConfusion
      have hji : j ≠ i := by
        rintro rfl
        rw [hleft] at hj
        exact absurd hj Point.noConfusion
      rw [hother j hji hjk] at hj
      refine htimely hstrict ⟨hsettled.signaled, fun l hl => ?_, j, hj, ?_⟩
      · by_cases hlk : l = k
        · rw [hlk, hk.2]
          rfl
        · rw [← hother l hl hlk]
          exact hsettled.noSet l
      · intro heq
        exact hjk (Option.some_inj.mp heq).symm
    · intro huntimely
      rw [Timely, Classical.not_imp, not_not] at huntimely
      obtain ⟨rfl, hsignaled, hnoSet, j, hj, hjk⟩ := huntimely
      have hji : j ≠ i := by
        rintro rfl
        exact absurd (hi.symm.trans hj) Point.noConfusion
      refine ⟨⟨hsignaled, fun l => ?_, fun hfalse => absurd hfalse.symm Bool.false_ne_true⟩,
        j, ?_⟩
      · by_cases hlk : l = k
        · rw [hlk, goto_self]
          rfl
        · by_cases hli : l = i
          · rw [hli, hleft]
            rfl
          · rw [hother l hli hlk]
            exact hnoSet l hli
      · rw [hother j hji fun heq => hjk (heq ▸ rfl)]
        exact hj

/-- **Which steps lead to a missed `set`**: those that are not timely. -/
lemma missed_step (h : ¬ Missed strict s) (hwakes : Wakes s m) (hstep : step s m = some (s', es)) :
    ¬ Missed strict s' ↔ Timely strict s m := by
  have hfst : ∀ {s₁ : State} {es₁ : List Event}, some (s₁, es₁) = some (s', es) → s₁ = s' :=
    fun heq => congrArg Prod.fst (Option.some_inj.mp heq)
  cases m with
  | lock i =>
    rw [step] at hstep
    split_ifs at hstep with hi
    obtain rfl := hfst hstep
    rw [missed_goto (by rw [hi.1]; rfl) (by rw [hi.1]; rfl) (by rw [hi.1]; simp)]
    exact iff_of_true h trivial
  | unlock i =>
    rw [step] at hstep
    split_ifs at hstep with hi
    obtain rfl := hfst hstep
    rw [missed_goto (by rw [hi]; rfl) (by rw [hi]; rfl) (by rw [hi]; simp)]
    exact iff_of_true h trivial
  | wait i =>
    rw [step] at hstep
    split_ifs at hstep with hi
    obtain rfl := hfst hstep
    rw [missed_wait hi]
    rfl
  | set i =>
    rw [step] at hstep
    split_ifs at hstep with hi
    obtain rfl := hfst hstep
    exact iff_of_true (not_missed_inSet (i := i) (by rw [goto_self]; rfl)) trivial
  | run i =>
    refine iff_of_true ?_ trivial
    rw [step] at hstep
    cases hi : s.threads i with
    | woken =>
      rw [hi, run] at hstep
      split_ifs at hstep
      obtain rfl := hfst hstep
      rwa [missed_goto (by rw [hi]; rfl) (by rw [hi]; rfl) (by rw [hi]; simp)]
    | testing =>
      rw [hi, run] at hstep
      split_ifs at hstep with hsignaled
      · obtain rfl := hfst hstep
        exact not_missed_unset rfl
      · obtain rfl := hfst hstep
        exact not_missed_unset (Bool.eq_false_iff.mpr hsignaled)
    | entering =>
      rw [hi, run] at hstep
      split_ifs at hstep
      obtain rfl := hfst hstep
      exact not_missed_inSet (i := i) (by rw [goto_self]; rfl)
    | setting =>
      rw [hi, run] at hstep
      obtain rfl := hfst hstep
      exact not_missed_inSet (i := i) (by rw [goto_self]; rfl)
    | leaving =>
      rw [hi, run] at hstep
      obtain rfl := hfst hstep
      exact not_missed_inSet (i := i) (by rw [goto_self]; rfl)
    | outside => simp [hi, run] at hstep
    | locked => simp [hi, run] at hstep
    | blocked => simp [hi, run] at hstep
    | signalling => simp [hi, run] at hstep
  | signal i woken =>
    have hi : s.threads i = .signalling := by
      cases woken with
      | none =>
        rw [step] at hstep
        split_ifs at hstep with hi
        exact hi
      | some k =>
        rw [step] at hstep
        split_ifs at hstep with hi
        exact hi.1
    rw [missed_signal hi hwakes hstep, not_not]

/-! ## Runs -/

def Event.isSet : Event → Bool
  | .set _ => true
  | .returned _ => false

def Event.isReturned : Event → Bool
  | .set _ => false
  | .returned _ => true

/-- What a step does to the flag -/
lemma signaled_step (hstep : step s m = some (s', es)) :
    es = [] ∧ s'.signaled = s.signaled
      ∨ (∃ i, es = [.returned i]) ∧ s.signaled = true ∧ s'.signaled = false
      ∨ (∃ i, es = [.set i]) ∧ s'.signaled = true := by
  have hinj : ∀ {s₁ : State} {es₁ : List Event}, some (s₁, es₁) = some (s', es) →
      s₁ = s' ∧ es₁ = es := fun heq => Prod.mk.inj (Option.some_inj.mp heq)
  cases m with
  | lock i =>
    rw [step] at hstep
    split_ifs at hstep
    obtain ⟨rfl, rfl⟩ := hinj hstep
    exact .inl ⟨rfl, rfl⟩
  | unlock i =>
    rw [step] at hstep
    split_ifs at hstep
    obtain ⟨rfl, rfl⟩ := hinj hstep
    exact .inl ⟨rfl, rfl⟩
  | wait i =>
    rw [step] at hstep
    split_ifs at hstep
    obtain ⟨rfl, rfl⟩ := hinj hstep
    exact .inl ⟨rfl, rfl⟩
  | set i =>
    rw [step] at hstep
    split_ifs at hstep
    obtain ⟨rfl, rfl⟩ := hinj hstep
    exact .inl ⟨rfl, rfl⟩
  | run i =>
    rw [step] at hstep
    cases hi : s.threads i with
    | woken =>
      rw [hi, run] at hstep
      split_ifs at hstep
      obtain ⟨rfl, rfl⟩ := hinj hstep
      exact .inl ⟨rfl, rfl⟩
    | testing =>
      rw [hi, run] at hstep
      split_ifs at hstep with hsignaled
      · obtain ⟨rfl, rfl⟩ := hinj hstep
        exact .inr (.inl ⟨⟨i, rfl⟩, hsignaled, rfl⟩)
      · obtain ⟨rfl, rfl⟩ := hinj hstep
        exact .inl ⟨rfl, rfl⟩
    | entering =>
      rw [hi, run] at hstep
      split_ifs at hstep
      obtain ⟨rfl, rfl⟩ := hinj hstep
      exact .inl ⟨rfl, rfl⟩
    | setting =>
      rw [hi, run] at hstep
      obtain ⟨rfl, rfl⟩ := hinj hstep
      exact .inr (.inr ⟨⟨i, rfl⟩, rfl⟩)
    | leaving =>
      rw [hi, run] at hstep
      obtain ⟨rfl, rfl⟩ := hinj hstep
      exact .inl ⟨rfl, rfl⟩
    | outside => simp [hi, run] at hstep
    | locked => simp [hi, run] at hstep
    | blocked => simp [hi, run] at hstep
    | signalling => simp [hi, run] at hstep
  | signal i woken =>
    cases woken with
    | none =>
      rw [step] at hstep
      split_ifs at hstep
      obtain ⟨rfl, rfl⟩ := hinj hstep
      exact .inl ⟨rfl, rfl⟩
    | some k =>
      rw [step] at hstep
      split_ifs at hstep
      obtain ⟨rfl, rfl⟩ := hinj hstep
      exact .inl ⟨rfl, rfl⟩

/-- **Each `set` releases at most one `wait`**, and one that has released none has left the flag
    set. -/
lemma releases {condition : State → Move → Prop} {trace : List Event}
    (h : (system condition).Run trace s) :
    trace.countP Event.isReturned + s.signaled.toNat ≤ trace.countP Event.isSet := by
  refine @System.Run.invariant _ _ (system condition) (fun trace s =>
    trace.countP Event.isReturned + s.signaled.toNat ≤ trace.countP Event.isSet) ?_ ?_ _ _ h
  · rintro _ rfl
    exact Nat.le_refl 0
  · rintro trace s es s' hle ⟨m, -, -, hstep⟩
    rw [List.countP_append, List.countP_append]
    rcases signaled_step hstep with ⟨rfl, hsame⟩ | ⟨⟨i, rfl⟩, htrue, hfalse⟩ | ⟨⟨i, rfl⟩, htrue⟩
    · rw [hsame]
      exact hle
    · rw [htrue, Bool.toNat_true] at hle
      rw [hfalse]
      exact hle
    · rw [htrue, Bool.toNat_true]
      exact Nat.add_le_add_right (Nat.le_trans (Nat.le_add_right _ _) hle) 1

/-- **No `set` is missed** in a run of timely steps, whether threads on their way to the flag are
    let count or not; a step that is not timely leads to one that is.  Each `set` releases at most
    one `wait`. -/
theorem set_not_missed {trace : List Event} (h : (system (Timely strict)).Run trace s) :
    ¬ Missed strict s
      ∧ (∀ m s' es, Wakes s m → step s m = some (s', es) → (¬ Missed strict s' ↔ Timely strict s m))
      ∧ trace.countP Event.isReturned ≤ trace.countP Event.isSet := by
  have hmissed : ¬ Missed strict s := by
    refine @System.Run.invariant _ _ (system (Timely strict)) (fun _ s => ¬ Missed strict s)
      ?_ ?_ _ _ h
    · rintro _ rfl
      exact not_missed_unset rfl
    · rintro _ s es s' hs ⟨m, hwakes, htimely, hstep⟩
      exact (missed_step hs hwakes hstep).mpr htimely
  exact ⟨hmissed, fun m s' es => missed_step hmissed,
    Nat.le_trans (Nat.le_add_right _ _) (releases h)⟩

/-- A thread waits, another one sets the monitor, and the first returns. -/
theorem set_not_missed_two :
    ∃ s, (system (Timely true)).Run [.set 0, .returned 1] s ∧ ¬ Missed true s := by
  have hstart : (system (Timely true)).Run [] .initial := .start rfl
  have hlock := hstart.next ⟨.lock 1, trivial, trivial, rfl⟩
  have hwait := hlock.next ⟨.wait 1, trivial,
    fun hsettled => Bool.false_ne_true hsettled.signaled, rfl⟩
  have hcall := hwait.next ⟨.set 0, trivial, trivial, rfl⟩
  have henter := hcall.next ⟨.run 0, trivial, trivial, rfl⟩
  have hset := henter.next ⟨.run 0, trivial, trivial, rfl⟩
  have hleave := hset.next ⟨.run 0, trivial, trivial, rfl⟩
  have hsignal := hleave.next ⟨.signal 0 (some 1), trivial, by
    rintro - ⟨-, -, j, hj, hne⟩
    have hj1 : j ≠ 1 := fun heq => hne (heq ▸ rfl)
    by_cases hj0 : j = 0 <;> simp [State.goto, State.initial, hj0, hj1] at hj, rfl⟩
  have hwoken := hsignal.next ⟨.run 1, trivial, trivial, rfl⟩
  have hreturn := hwoken.next ⟨.run 1, trivial, trivial, rfl⟩
  exact ⟨_, hreturn, (set_not_missed hreturn).1⟩

/-- A `set` is made while no thread waits.  A thread that waits afterwards is blocked. -/
theorem set_missed : ∃ s, (system fun _ _ => True).Run [.set 0] s ∧ Missed false s ∧ Missed true s := by
  have hstart : (system fun _ _ => True).Run [] .initial := .start rfl
  have hcall := hstart.next ⟨.set 0, trivial, trivial, rfl⟩
  have henter := hcall.next ⟨.run 0, trivial, trivial, rfl⟩
  have hset := henter.next ⟨.run 0, trivial, trivial, rfl⟩
  have hleave := hset.next ⟨.run 0, trivial, trivial, rfl⟩
  have hsignal := hleave.next ⟨.signal 0 none, by
    intro j
    by_cases hj : j = 0 <;> simp [State.goto, State.initial, hj], trivial, rfl⟩
  have hlock := hsignal.next ⟨.lock 1, trivial, trivial, rfl⟩
  obtain ⟨s, hs, hsignaled, hthreads⟩ : ∃ s, (system fun _ _ => True).Run [.set 0] s
      ∧ s.signaled = true ∧ ∀ i, s.threads i = if i = 1 then .locked else .outside := by
    refine ⟨_, hlock, rfl, fun i => ?_⟩
    by_cases hi0 : i = 0 <;> by_cases hi1 : i = 1 <;> simp [State.goto, State.initial, hi0, hi1]
  have hlocked : s.threads 1 = .locked := hthreads 1
  have hwait := hs.next ⟨.wait 1, trivial, trivial, by rw [step, if_pos hlocked]⟩
  have hsettled : ∀ strict, Settled strict s := by
    refine fun strict => ⟨hsignaled, fun i => ?_, fun _ i => ?_⟩
    · rw [hthreads i]
      split_ifs <;> rfl
    · rw [hthreads i]
      split_ifs <;> rfl
  exact ⟨_, hwait, (missed_wait hlocked).mpr (hsettled false),
    (missed_wait hlocked).mpr (hsettled true)⟩

end Nstd.Monitor
