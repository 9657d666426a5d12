import Mathlib.Data.List.Count
import Mathlib.Data.List.Infix
import Mathlib.Data.Nat.Notation
import Mathlib.Logic.Function.Basic
import Mathlib.Tactic.SplitIfs
import Nstd.Core.System

/-!
# `FastSignal`

A flag in front of a `Signal`, with any number of threads.  A call of `set` or `reset` first
exchanges the flag; if that changes it, a second step sets or resets the signal.

* `step` — the next step of a thread.
* `Event` — the two steps of a call that changes the flag.
* `InOrder` — second steps come in the order of the first ones.
* **`agree_of_inOrder`** — then the flag and the signal agree.  In `disagreement` one call overtakes
  another, and they do not.

The flag is what the last first step made of it, and the signal what the last second step did.  In
order, both belong to the same call.
-/

namespace Nstd.FastSignal

/-! ## The functions -/

/-- Where a thread is in `set`, `reset` or `wait`: the step that comes next -/
inductive Point
  | idle
  /-- `testAndSet(_state)` -/
  | set
  /-- `_signal.set()`, if the flag was 0 -/
  | setSignal
  /-- `swap(_state, 0)` -/
  | reset
  /-- `_signal.reset()`, if the flag was 1 -/
  | resetSignal
  /-- `load(_state)` -/
  | wait
  /-- `_signal.wait()`, if the flag was 0 -/
  | waitSignal
  deriving DecidableEq

/-- A fast signal, and the threads that use it -/
structure State where
  state : ℕ
  signaled : Bool
  threads : ℕ → Point

/-- The two steps of a call of a thread that changes the flag, a `set` or a `reset` -/
inductive Event
  | exchanged (i : ℕ) (isSet : Bool)
  | signalled (i : ℕ) (isSet : Bool)
  deriving DecidableEq

/-- The thread goes on at another point. -/
def State.goto (s : State) (i : ℕ) (point : Point) : State :=
  { s with threads := Function.update s.threads i point }

/-- The next step of a thread that is in a function -/
def run (s : State) (i : ℕ) : Point → Option (State × List Event)
  | .idle => none
  | .set =>
    if s.state = 0 then
      some ({ s with state := 1 }.goto i .setSignal, [.exchanged i true])
    else some ({ s with state := 1 }.goto i .idle, [])
  | .setSignal => some ({ s with signaled := true }.goto i .idle, [.signalled i true])
  | .reset =>
    if s.state = 1 then
      some ({ s with state := 0 }.goto i .resetSignal, [.exchanged i false])
    else some ({ s with state := 0 }.goto i .idle, [])
  | .resetSignal => some ({ s with signaled := false }.goto i .idle, [.signalled i false])
  | .wait =>
    if s.state ≠ 0 then some (s.goto i .idle, [])
    else some (s.goto i .waitSignal, [])
  | .waitSignal => if s.signaled then some (s.goto i .idle, []) else none

/-- What may happen next: a thread calls a function, or takes its next step. -/
inductive Move
  | set (i : ℕ)
  | reset (i : ℕ)
  | wait (i : ℕ)
  | run (i : ℕ)

/-- A thread that is in no function calls one. -/
def call (s : State) (i : ℕ) (point : Point) : Option (State × List Event) :=
  if s.threads i = .idle then some (s.goto i point, []) else none

/-- What happens, and what is emitted; `none` if it cannot happen -/
def step (s : State) : Move → Option (State × List Event)
  | .set i => call s i .set
  | .reset i => call s i .reset
  | .wait i => call s i .wait
  | .run i => run s i (s.threads i)

/-- A fast signal behind its constructor, with no thread in it -/
def State.initial : State := ⟨0, false, fun _ => .idle⟩

/-- The runs of a fast signal -/
def system : System State Event where
  initial := (· = .initial)
  step s es s' := ∃ m, step s m = some (s', es)

/-! ## Order -/

/-- A first step, as the thread and the kind of its call -/
def Event.exchange : Event → Option (ℕ × Bool)
  | .exchanged i b => some (i, b)
  | _ => none

/-- A second step, as the thread and the kind of its call -/
def Event.signal : Event → Option (ℕ × Bool)
  | .signalled i b => some (i, b)
  | _ => none

/-- The second steps of calls come in the order of their first steps. -/
def InOrder (trace : List Event) : Prop :=
  trace.filterMap Event.signal <+: trace.filterMap Event.exchange

/-- No call of `set` or `reset` is between its two steps. -/
def State.Quiet (s : State) : Prop :=
  ∀ i, s.threads i ≠ .setSignal ∧ s.threads i ≠ .resetSignal

/-- Where the second step of a call is next -/
def between (isSet : Bool) : Point := if isSet then .setSignal else .resetSignal

/-- The kind of the last one of these calls; a new signal is as after a `reset`. -/
def lastKind (calls : List (ℕ × Bool)) : Bool := (calls.getLast?.map Prod.snd).getD false

/-- What the events of a run say about the state -/
structure Told (trace : List Event) (s : State) : Prop where
  state : s.state = if lastKind (trace.filterMap Event.exchange) then 1 else 0
  signaled : s.signaled = lastKind (trace.filterMap Event.signal)
  pending : ∀ i b, (trace.filterMap Event.exchange).count (i, b) =
    (trace.filterMap Event.signal).count (i, b) + if s.threads i = between b then 1 else 0

lemma lastKind_append (calls : List (ℕ × Bool)) (i : ℕ) (b : Bool) :
    lastKind (calls ++ [(i, b)]) = b := by
  simp [lastKind]

lemma between_injective {b c : Bool} (h : between b = between c) : b = c := by
  revert h
  revert b c
  decide

/-- A step that neither changes the flag nor is the second one of a call -/
lemma Told.silent {trace : List Event} {s : State} (h : Told trace s) {i n : ℕ} {point : Point}
    (hstate : n = s.state) (hfrom : ∀ b, s.threads i ≠ between b)
    (hto : ∀ b, point ≠ between b) : Told trace ({ s with state := n }.goto i point) where
  state := hstate.trans h.state
  signaled := h.signaled
  pending j b := by
    rw [h.pending j b]
    by_cases hj : j = i
    · subst hj
      simp [State.goto, hto b, hfrom b]
    · simp [State.goto, hj]

/-- The first step of a call that changes the flag -/
lemma Told.exchange {trace : List Event} {s : State} (h : Told trace s) {i : ℕ} {b : Bool}
    (hfrom : ∀ c, s.threads i ≠ between c) :
    Told (trace ++ [.exchanged i b])
      ({ s with state := if b then 1 else 0 }.goto i (between b)) where
  state := by
    have hlast : (trace ++ [Event.exchanged i b]).filterMap Event.exchange =
        trace.filterMap Event.exchange ++ [(i, b)] := by simp [Event.exchange]
    rw [hlast, lastKind_append]
    rfl
  signaled := by
    have hsame : (trace ++ [Event.exchanged i b]).filterMap Event.signal =
        trace.filterMap Event.signal := by simp [List.filterMap_cons, Event.signal]
    rw [hsame]
    exact h.signaled
  pending j c := by
    have hlast : (trace ++ [Event.exchanged i b]).filterMap Event.exchange =
        trace.filterMap Event.exchange ++ [(i, b)] := by simp [Event.exchange]
    have hsame : (trace ++ [Event.exchanged i b]).filterMap Event.signal =
        trace.filterMap Event.signal := by simp [List.filterMap_cons, Event.signal]
    rw [hlast, hsame, List.count_append, h.pending j c]
    by_cases hj : j = i
    · subst hj
      by_cases hc : c = b
      · subst hc
        simp [State.goto, hfrom c]
      · have hne : between b ≠ between c := fun hbc => hc (between_injective hbc).symm
        simp [State.goto, hfrom c, hne, Ne.symm hc]
    · have hne : (i, b) ≠ (j, c) := fun hij => hj (Prod.mk.inj hij).1.symm
      simp [State.goto, hj, hne]

/-- The second step of a call -/
lemma Told.signal {trace : List Event} {s : State} (h : Told trace s) {i : ℕ} {b : Bool}
    (hfrom : s.threads i = between b) :
    Told (trace ++ [.signalled i b]) ({ s with signaled := b }.goto i .idle) where
  state := by
    have hsame : (trace ++ [Event.signalled i b]).filterMap Event.exchange =
        trace.filterMap Event.exchange := by simp [List.filterMap_cons, Event.exchange]
    rw [hsame]
    exact h.state
  signaled := by
    have hlast : (trace ++ [Event.signalled i b]).filterMap Event.signal =
        trace.filterMap Event.signal ++ [(i, b)] := by simp [Event.signal]
    rw [hlast, lastKind_append]
    rfl
  pending j c := by
    have hlast : (trace ++ [Event.signalled i b]).filterMap Event.signal =
        trace.filterMap Event.signal ++ [(i, b)] := by simp [Event.signal]
    have hsame : (trace ++ [Event.signalled i b]).filterMap Event.exchange =
        trace.filterMap Event.exchange := by simp [List.filterMap_cons, Event.exchange]
    have hidle : ∀ c, Point.idle ≠ between c := by decide
    rw [hlast, hsame, List.count_append, h.pending j c]
    by_cases hj : j = i
    · subst hj
      by_cases hc : c = b
      · subst hc
        simp [State.goto, hfrom, hidle c]
      · have hne : between b ≠ between c := fun hbc => hc (between_injective hbc).symm
        simp [State.goto, hfrom, hne, hidle c, Ne.symm hc]
    · have hne : (i, b) ≠ (j, c) := fun hij => hj (Prod.mk.inj hij).1.symm
      simp [State.goto, hj, hne]

/-- A call of a function, which is not yet at its first step -/
lemma Told.call {trace : List Event} {s s' : State} {es : List Event} {i : ℕ} {point : Point}
    (h : Told trace s) (hto : ∀ b, point ≠ between b)
    (hs : FastSignal.call s i point = some (s', es)) : Told (trace ++ es) s' := by
  rw [FastSignal.call] at hs
  split_ifs at hs with hidle
  obtain ⟨rfl, rfl⟩ := Prod.mk.inj (Option.some_inj.mp hs)
  rw [List.append_nil]
  refine h.silent rfl ?_ hto
  rw [hidle]
  decide

/-- What the events say stays true when a thread takes its next step. -/
lemma Told.run {trace : List Event} {s s' : State} {es : List Event} {i : ℕ}
    (h : Told trace s) (hs : FastSignal.run s i (s.threads i) = some (s', es)) :
    Told (trace ++ es) s' := by
  have hidle : ∀ b, Point.idle ≠ between b := by decide
  have hvalue : s.state = 0 ∨ s.state = 1 := by
    rw [h.state]
    split_ifs <;> simp
  cases hpoint : s.threads i with
  | idle => simp [hpoint, FastSignal.run] at hs
  | set =>
    have hfrom : ∀ b, s.threads i ≠ between b := by
      rw [hpoint]
      decide
    rw [hpoint, FastSignal.run] at hs
    split_ifs at hs with hzero
    · obtain ⟨rfl, rfl⟩ := Prod.mk.inj (Option.some_inj.mp hs)
      exact h.exchange (b := true) hfrom
    · obtain ⟨rfl, rfl⟩ := Prod.mk.inj (Option.some_inj.mp hs)
      rw [List.append_nil]
      exact h.silent (by omega) hfrom hidle
  | setSignal =>
    rw [hpoint] at hs
    obtain ⟨rfl, rfl⟩ := Prod.mk.inj (Option.some_inj.mp hs)
    exact h.signal (b := true) hpoint
  | reset =>
    have hfrom : ∀ b, s.threads i ≠ between b := by
      rw [hpoint]
      decide
    rw [hpoint, FastSignal.run] at hs
    split_ifs at hs with hone
    · obtain ⟨rfl, rfl⟩ := Prod.mk.inj (Option.some_inj.mp hs)
      exact h.exchange (b := false) hfrom
    · obtain ⟨rfl, rfl⟩ := Prod.mk.inj (Option.some_inj.mp hs)
      rw [List.append_nil]
      exact h.silent (by omega) hfrom hidle
  | resetSignal =>
    rw [hpoint] at hs
    obtain ⟨rfl, rfl⟩ := Prod.mk.inj (Option.some_inj.mp hs)
    exact h.signal (b := false) hpoint
  | wait =>
    have hfrom : ∀ b, s.threads i ≠ between b := by
      rw [hpoint]
      decide
    have hto : ∀ b, Point.waitSignal ≠ between b := by decide
    rw [hpoint, FastSignal.run] at hs
    split_ifs at hs
    · obtain ⟨rfl, rfl⟩ := Prod.mk.inj (Option.some_inj.mp hs)
      rw [List.append_nil]
      exact h.silent rfl hfrom hidle
    · obtain ⟨rfl, rfl⟩ := Prod.mk.inj (Option.some_inj.mp hs)
      rw [List.append_nil]
      exact h.silent rfl hfrom hto
  | waitSignal =>
    have hfrom : ∀ b, s.threads i ≠ between b := by
      rw [hpoint]
      decide
    rw [hpoint, FastSignal.run] at hs
    split_ifs at hs
    obtain ⟨rfl, rfl⟩ := Prod.mk.inj (Option.some_inj.mp hs)
    rw [List.append_nil]
    exact h.silent rfl hfrom hidle

/-- **The events of a run** say what the flag and the signal are. -/
theorem told_of_run {trace : List Event} {s : State} (h : system.Run trace s) : Told trace s := by
  refine h.invariant ?_ ?_
  · rintro s rfl
    refine ⟨rfl, rfl, fun i b => ?_⟩
    have hidle : Point.idle ≠ between b := by revert b; decide
    simp [State.initial, hidle]
  · rintro trace s es s' h ⟨m, hm⟩
    cases m with
    | set i => exact h.call (by decide) hm
    | reset i => exact h.call (by decide) hm
    | wait i => exact h.call (by decide) hm
    | run i => exact h.run hm

/-! ## The flag and the signal -/

/-- A call whose second step is missing is between its two steps. -/
lemma Told.mem_between {trace : List Event} {s : State} (h : Told trace s) {i : ℕ} {b : Bool}
    {late : List (ℕ × Bool)}
    (hlate : trace.filterMap Event.signal ++ late = trace.filterMap Event.exchange)
    (hmem : (i, b) ∈ late) : s.threads i = between b := by
  have hcount := h.pending i b
  have hpos : 0 < late.count (i, b) := List.count_pos_iff.mpr hmem
  rw [← hlate, List.count_append] at hcount
  by_contra hnot
  rw [if_neg hnot] at hcount
  omega

/-- **The flag and the signal agree** when second steps come in order, so that a `set` that finds
    the flag at 1 need not wake a thread: another call has, or is about to. -/
theorem agree_of_inOrder {trace : List Event} {s : State} (h : system.Run trace s)
    (horder : InOrder trace) :
    (s.Quiet → (s.state = 1 ↔ s.signaled = true)) ∧
      (s.state = 1 → s.signaled = true ∨ ∃ i, s.threads i = .setSignal) := by
  have htold := told_of_run h
  obtain ⟨late, hlate⟩ := horder
  have hstate := htold.state
  rw [← hlate] at hstate
  refine ⟨fun hquiet => ?_, fun hone => ?_⟩
  · have hnone : late = [] := by
      refine List.eq_nil_iff_forall_not_mem.mpr fun (i, b) hmem => ?_
      have hbetween := htold.mem_between hlate hmem
      cases b with
      | false => exact (hquiet i).2 hbetween
      | true => exact (hquiet i).1 hbetween
    rw [hnone, List.append_nil, ← htold.signaled] at hstate
    rw [hstate]
    cases s.signaled <;> simp
  · obtain rfl | ⟨early, ⟨i, b⟩, rfl⟩ := late.eq_nil_or_concat
    · rw [List.append_nil, ← htold.signaled] at hstate
      left
      by_contra hnot
      simp [hnot, hone] at hstate
    · rw [List.concat_eq_append, ← List.append_assoc, lastKind_append] at hstate
      have hb : b = true := by
        by_contra hnot
        simp [hnot, hone] at hstate
      subst hb
      have hmem : (i, true) ∈ early.concat (i, true) := by simp
      exact .inr ⟨i, htold.mem_between hlate hmem⟩

/-- A move that can happen is a step of a run. -/
lemma system_step {s s' : State} {m : Move} {es : List Event} (h : step s m = some (s', es)) :
    system.step s es s' :=
  ⟨m, h⟩

/-- While a thread is between the two steps of `set`, another one calls `reset` and a third one `set`,
    whose second step is still missing. -/
theorem agree_of_inOrder_overlapping : ∃ s : State, system.Run [.exchanged 0 true, .exchanged 1 false,
      .signalled 0 true, .exchanged 2 true, .signalled 1 false] s ∧ s.state = 1 ∧
    (s.signaled = true ∨ ∃ i, s.threads i = .setSignal) := by
  have hexec : (System.exec step .initial [.set 0, .reset 1, .run 0, .run 1, .run 0, .set 2, .run 2,
      .run 1]).map (fun r => (r.2, r.1.state)) = some ([.exchanged 0 true, .exchanged 1 false,
        .signalled 0 true, .exchanged 2 true, .signalled 1 false], 1) := by decide
  obtain ⟨⟨s, es⟩, hs, heq⟩ := Option.map_eq_some_iff.mp hexec
  obtain ⟨rfl, hstate⟩ := Prod.mk.inj heq
  have hrun : system.Run ([] ++ _) s :=
    System.Run.exec (fun _ _ _ _ => system_step) (.start rfl) hs
  exact ⟨s, hrun, hstate, (agree_of_inOrder hrun ⟨[(2, true)], rfl⟩).2 hstate⟩

/-! ## A lost wake-up -/

/-- If every call that changed the flag took its second step, none is between its two steps. -/
lemma Told.quiet {trace : List Event} {s : State} (h : Told trace s)
    (hall : (trace.filterMap Event.exchange).Perm (trace.filterMap Event.signal)) : s.Quiet := by
  have hnot : ∀ i b, s.threads i ≠ between b := by
    intro i b hbetween
    have hcount := h.pending i b
    rw [if_pos hbetween, hall.count_eq] at hcount
    omega
  exact fun i => ⟨hnot i true, hnot i false⟩

/-- A `set` that finds the flag at 1 changes nothing. -/
lemma set_of_one {s : State} {i : ℕ} (hidle : s.threads i = .idle) (hone : s.state = 1) :
    System.exec step s [.set i, .run i] = some (s, []) := by
  have hback : ({ s.goto i .set with state := 1 }.goto i .idle) = s := by
    rw [State.goto, State.goto, ← hone, ← hidle]
    simp
  have hnot : (s.goto i .set).state ≠ 0 := by simp [State.goto, hone]
  have hset : (s.goto i .set).threads i = .set := by simp [State.goto]
  simp only [System.exec, step, call, if_pos hidle, hset, run, if_neg hnot, hback,
    Option.bind_eq_bind, Option.bind_some, List.append_nil]

/-- Thread 2 waits.  A `set` of thread 0 is over when a `reset` of thread 1 takes its first step,
    and a second `set` of thread 0 overtakes it. -/
def overtaking : List Move :=
  [.wait 2, .run 2, .set 0, .run 0, .run 0, .reset 1, .run 1, .set 0, .run 0, .run 0, .run 1]

/-- **A disagreement**: the flag is 1 and the signal is not set.  Thread 2, which came before the
    last `set`, is stuck, and the next `set` does not wake it. -/
theorem disagreement : ∃ trace s, system.Run trace s ∧ s.Quiet ∧ s.state = 1 ∧
    s.signaled = false ∧ s.threads 2 = .waitSignal ∧ step s (.run 2) = none ∧
      System.exec step s [.set 3, .run 3] = some (s, []) := by
  have hexec : (System.exec step .initial overtaking).map (fun r =>
      (r.2, r.1.state, r.1.signaled, r.1.threads 2, r.1.threads 3)) =
        some ([.exchanged 0 true, .signalled 0 true, .exchanged 1 false, .exchanged 0 true,
          .signalled 0 true, .signalled 1 false], 1, false, .waitSignal, .idle) := by decide
  obtain ⟨⟨s, es⟩, hs, hfacts⟩ := Option.map_eq_some_iff.mp hexec
  simp only [Prod.mk.injEq] at hfacts
  obtain ⟨rfl, hone, hsignal, hwaits, hidle⟩ := hfacts
  have hrun : system.Run ([] ++ _) s :=
    System.Run.exec (fun _ _ _ _ => system_step) (.start rfl) hs
  have hquiet : s.Quiet := (told_of_run hrun).quiet (by decide)
  have hstuck : step s (.run 2) = none := by simp [step, hwaits, run, hsignal]
  exact ⟨_, s, hrun, hquiet, hone, hsignal, hwaits, hstuck, set_of_one hidle hone⟩

end Nstd.FastSignal
