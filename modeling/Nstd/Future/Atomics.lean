import Mathlib.Data.Nat.Notation
import Mathlib.Tactic.Lemma
import Mathlib.Tactic.SplitIfs
import Nstd.Core.System

/-!
# `Atomic` where there is only a compare-exchange

The operations on `int64` and `uint64` of a system with 32 bits: each reads the variable and tries
to exchange it, until it was still what was read.

* `Loop`, `step` — the loop that all of them are, among threads that write whatever they like.
* `Operation`, `newValue`, `returnValue` — the operations, and what they should do.
* `atomic` — one operation as one step.
* `Exact` — the loop has the operands that the operation asks for.
* **`refines_atomic`** — the loop is one step then.
* **`atomic_iff`** — only `testAndSet` is not, unless it reads 1 at first.

An exchange that succeeds has read and written at one moment, whatever the rounds before it saw.
-/

namespace Nstd.Atomics

/-- An `int64` or a `uint64` -/
abbrev Word := BitVec 64

/-- `_InterlockedCompareExchange64`: what it returns, and what the variable is afterwards -/
def compareExchange64 (var exchange comparand : Word) : Word × Word :=
  (var, if var = comparand then exchange else var)

/-- A loop around `_InterlockedCompareExchange64`: its operands and what is returned, by the value
    that was read, and whether the variable is read again before the next try -/
structure Loop where
  exchange : Word → Word
  comparand : Word → Word
  result : Word → Word
  rereads : Bool

def increment : Loop where
  exchange oldVal := oldVal + 1
  comparand oldVal := oldVal
  result oldVal := oldVal + 1
  rereads := true

def decrement : Loop where
  exchange oldVal := oldVal - 1
  comparand oldVal := oldVal
  result oldVal := oldVal - 1
  rereads := true

def swap (val : Word) : Loop where
  exchange _ := val
  comparand oldVal := oldVal
  result oldVal := oldVal
  rereads := true

def testAndSet : Loop where
  -- `_InterlockedCompareExchange64(&var, val, 1LL)`
  exchange val := val
  comparand _ := 1
  result val := val
  rereads := false

def fetchAndAdd (val : Word) : Loop where
  exchange oldVal := oldVal + val
  comparand oldVal := oldVal
  result oldVal := oldVal
  rereads := true

def load : Loop where
  exchange val := val
  comparand val := val
  result val := val
  rereads := true

/-- Where the loop is -/
inductive Point
  /-- The variable is read -/
  | reading
  /-- One half of it was read -/
  | half (low : Bool) (value : BitVec 32)
  /-- It was read -/
  | exchanging (val : Word)
  | returned (result : Word)

/-- The variable, an operation on it, and the value that this one has read first -/
structure State where
  var : Word
  point : Point
  first : Option Word

/-- What the operation does: it writes the variable, which was `old`, or returns. -/
inductive Event
  | replaced (old new : Word)
  | returned (result : Word)

/-- What may happen: another thread writes the variable, half of it is read, or it is exchanged. -/
inductive Move
  | interfere (value : Word)
  | read (low : Bool)
  | exchange

/-- A half of a word -/
def halfOf (low : Bool) (value : Word) : BitVec 32 :=
  if low then value.extractLsb' 0 32 else value.extractLsb' 32 32

/-- Both halves of a word, the one that was read first in front -/
def join (low : Bool) (first second : BitVec 32) : Word :=
  if low then second ++ first else first ++ second

/-- A move, and what the operation does -/
def step (loop : Loop) (s : State) : Move → Option (State × List Event)
  | .interfere value => some ({ s with var := value }, [])
  | .read low =>
    match s.point with
    | .reading => some ({ s with point := .half low (halfOf low s.var) }, [])
    | .half first value =>
      if low = first then none
      else
        let val := join first value (halfOf low s.var)
        some ({ s with point := .exchanging val, first := s.first.or (some val) }, [])
    | _ => none
  | .exchange =>
    match s.point with
    | .exchanging val =>
      let (old, var) := compareExchange64 s.var (loop.exchange val) (loop.comparand val)
      let es := if s.var = loop.comparand val then [.replaced old var] else []
      if old = val then
        some ({ s with var, point := .returned (loop.result val) },
          es ++ [.returned (loop.result val)])
      else some ({ s with var, point := if loop.rereads then .reading else .exchanging val }, es)
    | _ => none

/-- The runs of a loop -/
def system (loop : Loop) : System State Event where
  initial s := s.point = .reading ∧ s.first = none
  step s es s' := ∃ m, step loop s m = some (s', es)

/-! ## Operations -/

inductive Operation
  | increment
  | decrement
  | swap (val : Word)
  | testAndSet
  | fetchAndAdd (val : Word)
  | load

/-- The code of an operation -/
def Operation.loop : Operation → Loop
  | .increment => Atomics.increment
  | .decrement => Atomics.decrement
  | .swap val => Atomics.swap val
  | .testAndSet => Atomics.testAndSet
  | .fetchAndAdd val => Atomics.fetchAndAdd val
  | .load => Atomics.load

/-- What the variable is replaced with -/
def Operation.newValue : Operation → Word → Word
  | .increment, old => old + 1
  | .decrement, old => old - 1
  | .swap val, _ => val
  | .testAndSet, _ => 1
  | .fetchAndAdd val, old => old + val
  | .load, old => old

/-- What is returned -/
def Operation.returnValue : Operation → Word → Word
  | .increment, old => old + 1
  | .decrement, old => old - 1
  | _, old => old

/-- A variable, and what an operation on it has returned -/
structure Cell where
  var : Word
  answer : Option Word

/-- **An operation as one step**, among threads that write whatever they like -/
def atomic (op : Operation) : System Cell Event where
  initial c := c.answer = none
  step c es c' := es = [] ∧ c'.answer = c.answer
    ∨ c.answer = none
      ∧ es = [.replaced c.var (op.newValue c.var), .returned (op.returnValue c.var)]
      ∧ c' = ⟨op.newValue c.var, some (op.returnValue c.var)⟩

/-- **The operands are the right ones** for a value that was read. -/
structure Exact (op : Operation) (val : Word) : Prop where
  comparand : op.loop.comparand val = val
  exchange : op.loop.exchange val = op.newValue val
  result : op.loop.result val = op.returnValue val

/-- Those of `testAndSet` are in the wrong order, which makes no difference to 1. -/
lemma exact_iff {op : Operation} {val : Word} : Exact op val ↔ (op = .testAndSet → val = 1) := by
  constructor
  · rintro h rfl
    exact h.comparand.symm
  · intro h
    cases op with
    | testAndSet =>
      obtain rfl := h rfl
      exact ⟨rfl, rfl, rfl⟩
    | increment => exact ⟨rfl, rfl, rfl⟩
    | decrement => exact ⟨rfl, rfl, rfl⟩
    | swap _ => exact ⟨rfl, rfl, rfl⟩
    | fetchAndAdd _ => exact ⟨rfl, rfl, rfl⟩
    | load => exact ⟨rfl, rfl, rfl⟩

/-- What the operation has returned -/
def State.answer (s : State) : Option Word :=
  match s.point with
  | .returned result => some result
  | _ => none

/-! ## Steps -/

variable {op : Operation} {loop : Loop} {s s' : State} {m : Move} {es trace : List Event}

/-- **One step** of a loop: of another thread; a half that is read, the first or the second; and
    a try. -/
lemma step_cases (h : step loop s m = some (s', es)) :
    (∃ value, s' = { s with var := value } ∧ es = [])
      ∨ (∃ low value, s.point = .reading ∧ s' = { s with point := .half low value } ∧ es = [])
      ∨ (∃ low value val, s.point = .half low value ∧ es = []
        ∧ s' = { s with point := .exchanging val, first := s.first.or (some val) })
      ∨ ∃ val, s.point = .exchanging val
        ∧ s' = { s with
            var := if s.var = loop.comparand val then loop.exchange val else s.var
            point := if s.var = val then .returned (loop.result val)
              else if loop.rereads then .reading else .exchanging val }
        ∧ es = (if s.var = loop.comparand val then [.replaced s.var (loop.exchange val)] else [])
            ++ if s.var = val then [.returned (loop.result val)] else [] := by
  cases m with
  | interfere value =>
    obtain ⟨rfl, rfl⟩ := Prod.mk.inj (Option.some_inj.mp h)
    exact .inl ⟨value, rfl, rfl⟩
  | read low =>
    rw [step] at h
    cases hpoint : s.point with
    | reading =>
      rw [hpoint] at h
      obtain ⟨rfl, rfl⟩ := Prod.mk.inj (Option.some_inj.mp h)
      exact .inr (.inl ⟨low, _, rfl, rfl, rfl⟩)
    | half first value =>
      rw [hpoint] at h
      dsimp only at h
      split_ifs at h
      obtain ⟨rfl, rfl⟩ := Prod.mk.inj (Option.some_inj.mp h)
      exact .inr (.inr (.inl ⟨first, value, _, rfl, rfl, rfl⟩))
    | exchanging val => simp [hpoint] at h
    | returned result => simp [hpoint] at h
  | exchange =>
    rw [step] at h
    cases hpoint : s.point with
    | exchanging val =>
      refine .inr (.inr (.inr ⟨val, rfl, ?_⟩))
      rw [hpoint] at h
      dsimp only [compareExchange64] at h
      by_cases hcomparand : s.var = loop.comparand val
      · by_cases hval : s.var = val
        · rw [if_pos hval, if_pos hcomparand, if_pos hcomparand] at h
          obtain ⟨rfl, rfl⟩ := Prod.mk.inj (Option.some_inj.mp h)
          rw [if_pos hval, if_pos hval, if_pos hcomparand, if_pos hcomparand]
          exact ⟨rfl, rfl⟩
        · rw [if_neg hval, if_pos hcomparand, if_pos hcomparand] at h
          obtain ⟨rfl, rfl⟩ := Prod.mk.inj (Option.some_inj.mp h)
          rw [if_neg hval, if_neg hval, if_pos hcomparand, if_pos hcomparand]
          exact ⟨rfl, rfl⟩
      · by_cases hval : s.var = val
        · rw [if_pos hval, if_neg hcomparand, if_neg hcomparand] at h
          obtain ⟨rfl, rfl⟩ := Prod.mk.inj (Option.some_inj.mp h)
          rw [if_pos hval, if_pos hval, if_neg hcomparand, if_neg hcomparand]
          exact ⟨rfl, rfl⟩
        · rw [if_neg hval, if_neg hcomparand, if_neg hcomparand] at h
          obtain ⟨rfl, rfl⟩ := Prod.mk.inj (Option.some_inj.mp h)
          rw [if_neg hval, if_neg hval, if_neg hcomparand, if_neg hcomparand]
          exact ⟨rfl, rfl⟩
    | reading => simp [hpoint] at h
    | half low value => simp [hpoint] at h
    | returned result => simp [hpoint] at h

/-- The value that was read first stays. -/
lemma first_step (h : step loop s m = some (s', es)) {val : Word} (hfirst : s.first = some val) :
    s'.first = some val := by
  rcases step_cases h with ⟨_, rfl, -⟩ | ⟨_, _, -, rfl, -⟩ | ⟨_, _, _, -, -, rfl⟩ | ⟨_, -, rfl, -⟩
  · exact hfirst
  · exact hfirst
  · rw [hfirst]
    rfl
  · exact hfirst

/-- **`testAndSet` goes on with the value that it has read first**, and writes no other. -/
structure ReadOnce (trace : List Event) (s : State) : Prop where
  reading : s.point = .reading → s.first = none
  half : ∀ low value, s.point = .half low value → s.first = none
  exchanging : ∀ val, s.point = .exchanging val → s.first = some val
  replaced : ∀ old new, Event.replaced old new ∈ trace → s.first = some new

lemma readOnce (h : (system testAndSet).Run trace s) : ReadOnce trace s := by
  refine h.invariant ?_ ?_
  · rintro s ⟨hpoint, hfirst⟩
    exact ⟨fun _ => hfirst, fun _ _ _ => hfirst, fun val hval => by simp [hpoint] at hval, by simp⟩
  · rintro trace s es s' hs ⟨m, hstep⟩
    rcases step_cases hstep with ⟨_, rfl, rfl⟩ | ⟨_, _, hpoint, rfl, rfl⟩
      | ⟨_, _, val, hpoint, rfl, rfl⟩ | ⟨val, hpoint, rfl, rfl⟩
    · rw [List.append_nil]
      exact ⟨hs.reading, hs.half, hs.exchanging, hs.replaced⟩
    · rw [List.append_nil]
      exact ⟨by simp, fun _ _ _ => hs.reading hpoint, by simp, hs.replaced⟩
    · have hnone := hs.half _ _ hpoint
      rw [List.append_nil]
      refine ⟨by simp, by simp, fun val' hval' => ?_, fun old new hmem => ?_⟩
      · obtain rfl : val = val' := by simpa using hval'
        rw [hnone]
        rfl
      · exact absurd (hnone.symm.trans (hs.replaced old new hmem)) (by simp)
    · have hfirst := hs.exchanging val hpoint
      refine ⟨fun hreading => ?_, fun low value hhalf => ?_, fun val' hval' => ?_,
        fun old new hmem => ?_⟩
      · by_cases hval : s.var = val <;> simp [testAndSet, hval] at hreading
      · by_cases hval : s.var = val <;> simp [testAndSet, hval] at hhalf
      · by_cases hval : s.var = val
        · simp [testAndSet, hval] at hval'
        · obtain rfl : val = val' := by simpa [testAndSet, hval] using hval'
          exact hfirst
      · rcases List.mem_append.mp hmem with hmem | hmem
        · exact hs.replaced old new hmem
        · rcases List.mem_append.mp hmem with hmem | hmem
          · split_ifs at hmem
            · obtain ⟨-, rfl⟩ := Event.replaced.inj (List.mem_singleton.mp hmem)
              exact hfirst
            · exact absurd hmem List.not_mem_nil
          · split_ifs at hmem
            · exact absurd (List.mem_singleton.mp hmem) Event.noConfusion
            · exact absurd hmem List.not_mem_nil

/-! ## One step instead of the loop -/

/-- The loop meets no wrong operand. -/
def Spared (op : Operation) (s : State) : Prop :=
  op = .testAndSet → ∀ val, s.first = some val → val = 1

/-- **The loop is one step**, in every run where its operands are the right ones. -/
theorem refines_atomic (h : (system op.loop).Run trace s) (hspared : Spared op s) :
    ∃ c, (atomic op).Run trace c ∧ c.var = s.var ∧ c.answer = s.answer := by
  induction h with
  | @start s hinitial =>
    refine ⟨⟨s.var, none⟩, .start rfl, rfl, ?_⟩
    rw [State.answer, hinitial.1]
  | @next trace es s s' hrun hstep ih =>
    obtain ⟨m, hstep⟩ := hstep
    obtain ⟨⟨var, answer⟩, hatomic, rfl, rfl⟩ := ih fun htestAndSet val hval =>
      hspared htestAndSet val (first_step hstep hval)
    have hother : ∀ {s'' : State}, s''.answer = s.answer →
        ∃ c, (atomic op).Run (trace ++ []) c ∧ c.var = s''.var ∧ c.answer = s''.answer :=
      fun hanswer => ⟨⟨_, _⟩, hatomic.next (.inl ⟨rfl, hanswer⟩), rfl, rfl⟩
    rcases step_cases hstep with ⟨_, rfl, rfl⟩ | ⟨_, _, hpoint, rfl, rfl⟩
      | ⟨_, _, val, hpoint, rfl, rfl⟩ | ⟨val, hpoint, rfl, rfl⟩
    · exact hother rfl
    · exact hother (by rw [State.answer, State.answer, hpoint])
    · exact hother (by rw [State.answer, State.answer, hpoint])
    · have hexact : Exact op val := by
        refine exact_iff.mpr fun htestAndSet => ?_
        subst htestAndSet
        exact hspared rfl val ((readOnce hrun).exchanging val hpoint)
      have hanswer : s.answer = none := by rw [State.answer, hpoint]
      rw [hexact.comparand, hexact.exchange, hexact.result]
      by_cases hval : s.var = val
      · subst hval
        refine ⟨⟨op.newValue s.var, some (op.returnValue s.var)⟩,
          hatomic.next (.inr ⟨hanswer, ?_, rfl⟩), ?_, ?_⟩
        · rw [if_pos rfl, if_pos rfl]
          rfl
        · dsimp only
          rw [if_pos rfl]
        · rw [State.answer]
          dsimp only
          rw [if_pos rfl]
      · rw [if_neg hval, if_neg hval, if_neg hval, if_neg hval, List.append_nil]
        refine hother ?_
        rw [hanswer, State.answer]
        cases op.loop.rereads <;> rfl

/-- What was done until an operation has returned, and when it has -/
lemma atomic_trace {c : Cell} (h : (atomic op).Run trace c) :
    (c.answer = none → trace = []) ∧ ∀ result, c.answer = some result →
      ∃ old, trace = [.replaced old (op.newValue old), .returned (op.returnValue old)]
        ∧ result = op.returnValue old := by
  refine @System.Run.invariant _ _ (atomic op) (fun trace c => (c.answer = none → trace = [])
    ∧ ∀ result, c.answer = some result →
      ∃ old, trace = [.replaced old (op.newValue old), .returned (op.returnValue old)]
        ∧ result = op.returnValue old) ?_ ?_ _ _ h
  · intro c hnone
    exact ⟨fun _ => rfl, fun result hresult => absurd (hnone.symm.trans hresult) (by simp)⟩
  · rintro trace c es c' ⟨hnone, hsome⟩ (⟨rfl, hsame⟩ | ⟨hanswer, rfl, rfl⟩)
    · rw [List.append_nil, hsame]
      exact ⟨hnone, hsome⟩
    · rw [hnone hanswer]
      exact ⟨by simp, fun result hresult => ⟨c.var, rfl, (Option.some_inj.mp hresult).symm⟩⟩

/-- **Which operations are one atomic step**, for every value of the variable and whatever other
    threads write to it at any time: one that has returned has replaced the variable once, by the
    value that it should, and returned what it should, unless it is `testAndSet` and has not read
    1 first. -/
theorem atomic_iff (h : (system op.loop).Run trace s) {result : Word}
    (hreturned : s.point = .returned result) :
    (∃ old, trace = [.replaced old (op.newValue old), .returned result]
      ∧ result = op.returnValue old) ↔ (op = .testAndSet → s.first = some 1) := by
  constructor
  · rintro ⟨old, rfl, -⟩ rfl
    exact (readOnce h).replaced old 1 List.mem_cons_self
  · intro hfirst
    have hspared : Spared op s := fun htestAndSet val hval =>
      Option.some_inj.mp (hval.symm.trans (hfirst htestAndSet))
    obtain ⟨c, hatomic, -, hanswer⟩ := refines_atomic h hspared
    have hresult : c.answer = some result := by rw [hanswer, State.answer, hreturned]
    obtain ⟨old, htrace, hold⟩ := (atomic_trace hatomic).2 result hresult
    exact ⟨old, by rw [htrace, ← hold], hold⟩

/-- An increment of 5, which another thread makes 7 while it is read -/
theorem atomic_iff_increment :
    ∃ old, [Event.replaced 7 8, .returned 8]
      = [.replaced old (Operation.increment.newValue old), .returned 8]
      ∧ (8 : Word) = Operation.increment.returnValue old := by
  have hstart : (system Operation.increment.loop).Run [] ⟨5, .reading, none⟩ := .start ⟨rfl, rfl⟩
  have hlow := hstart.next ⟨.read true, rfl⟩
  have hinterfere := hlow.next ⟨.interfere 7, rfl⟩
  have hhigh := hinterfere.next ⟨.read false, rfl⟩
  have htry := hhigh.next ⟨.exchange, rfl⟩
  have hlow' := htry.next ⟨.read true, rfl⟩
  have hhigh' := hlow'.next ⟨.read false, rfl⟩
  have hreturned := hhigh'.next ⟨.exchange, rfl⟩
  have hpoint : (⟨8, .returned 8, some 5⟩ : State).point = .returned 8 := rfl
  exact (atomic_iff hreturned hpoint).mpr fun htestAndSet => Operation.noConfusion htestAndSet

/-- `testAndSet` of a variable that is 0: it returns 0, and has written nothing. -/
theorem testAndSet_not_atomic : ∃ s, (system Operation.testAndSet.loop).Run [.returned 0] s
    ∧ s.point = .returned 0 ∧ s.var = 0
    ∧ ¬ ∃ old, [Event.returned 0] = [.replaced old (Operation.testAndSet.newValue old), .returned 0]
      ∧ (0 : Word) = Operation.testAndSet.returnValue old := by
  have hstart : (system Operation.testAndSet.loop).Run [] ⟨0, .reading, none⟩ := .start ⟨rfl, rfl⟩
  have hlow := hstart.next ⟨.read true, rfl⟩
  have hhigh := hlow.next ⟨.read false, rfl⟩
  have hreturned := hhigh.next ⟨.exchange, rfl⟩
  refine ⟨_, hreturned, rfl, rfl, ?_⟩
  rintro ⟨old, hshort, -⟩
  simp at hshort

end Nstd.Atomics
