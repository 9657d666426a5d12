import Nstd.Server.TimerLoop

/-!
# Timers on schedule

What `run` makes of the timers over any number of its turns, where the clock never goes back and the
user makes, removes and clears timers between its steps.  The records of what was seen say when each timer
is due next, and the invariant is that the pool and the queue have just these times: a turn takes the
first of them, and puts it off by one interval.

* `State`, `Move`, `step` — `run` up to each wait for sockets, and the calls of the user.
* `sums`, `system` — the steps in which no `int64` overflows.
* `Record`, `schedule` — the timers that are live by what was seen, and how often each was activated.
* `Sound` — what the pool and the queue are, by that.
* **`activated_on_schedule`** — a timer is activated once for each interval that is over, never early,
  and `run` waits for 5 minutes at most.
* **`activated_in_order`** — activations are in the order of the times they were due at.

A removal has to find the entry of its timer.
-/

namespace Nstd.TimerRuns

open Timers (front)

/-- The timers, what the clock reads, and where `run` is: in the loop that activates timers, or not -/
structure State where
  timers : Timers
  clock : ℤ
  /-- `now`, as it was read last -/
  now : ℤ
  looping : Bool

/-- What there is to see -/
inductive Event
  | created (timer : ℕ) (ticks interval : ℤ)
  /-- `onActivated`, for the time `due` -/
  | activated (timer : ℕ) (due : ℤ)
  | removed (timer : ℕ)
  | cleared
  /-- `_sockets.poll` is called with a timeout. -/
  | waits (now timeout : ℤ)
  deriving DecidableEq

/-- What may happen -/
inductive Move
  | time (ticks interval : ℤ) (timer : ℕ)
  | remove (timer : ℕ)
  | clear
  /-- `now = Time::ticks()` -/
  | read (ticks : ℤ)
  /-- `timeout <= 0` is tested, and the loop makes a turn or `poll` is called. -/
  | turn

/-- The sums and differences of a step, each of which the code keeps in an `int64` -/
def sums (s : State) : Move → List ℤ
  | .time ticks interval _ => [ticks + interval]
  | .turn =>
    match s.timers.front with
    | none => []
    | some (key, timer) => (key - s.now) ::
        if key - s.now ≤ 0 then
          match timer with
          | none => [s.now + 300 * 1000]
          | some timer => (s.timers.timers.lookup timer).toList.map fun impl =>
            impl.executionTime + impl.interval
        else []
  | _ => []

/-- One step if nothing overflows in it; `none` if it cannot happen -/
def step (s : State) : Move → Option (State × List Event)
  | .time ticks interval timer =>
    if s.clock ≤ ticks ∧ timer ∉ s.timers.timers.map Prod.fst then do
      let timers ← s.timers.time ticks interval timer
      some ({ s with timers, clock := ticks }, [.created timer ticks interval])
    else none
  | .remove timer =>
    if timer ∈ s.timers.timers.map Prod.fst ∧ s.timers.FindsInTime (.remove timer) then do
      let timers ← s.timers.remove timer
      some ({ s with timers }, [.removed timer])
    else none
  | .clear => do
    let timers ← s.timers.clear
    some ({ s with timers }, [.cleared])
  | .read ticks =>
    if s.clock ≤ ticks ∧ s.looping = false then
      some ({ s with clock := ticks, now := ticks, looping := true }, [])
    else none
  | .turn =>
    if s.looping then do
      let (key, timer) ← s.timers.front
      if key - s.now ≤ 0 then do
        let timers ← s.timers.dispatch s.now
        match timer with
        | some timer => some ({ s with timers }, [.activated timer key])
        | none => some ({ s with timers }, [])
      else some ({ s with looping := false }, [.waits s.now (key - s.now)])
    else none

/-- A `Server` and its timers.  The clock does not show less than 0, and no time is too far away for an
    `int64`. -/
def system : System State Event where
  initial s := Timers.initial = some s.timers ∧ 0 ≤ s.clock ∧ s.now = 0 ∧ s.looping = false
  step s es s' := ∃ m, (∀ x ∈ sums s m, FitsInt64 x) ∧ step s m = some (s', es)

/-! ## The schedule -/

/-- A timer, by when it was made, and how often it was activated -/
structure Record where
  timer : ℕ
  start : ℤ
  interval : ℤ
  count : ℕ

/-- When a timer is due next -/
def Record.due (r : Record) : ℤ := r.start + (r.count + 1) * r.interval

/-- What was seen of the timers that are live -/
def Record.next (records : List Record) : Event → List Record
  | .created timer ticks interval => records ++ [⟨timer, ticks, interval, 0⟩]
  | .activated timer _ =>
    records.map fun r => if r.timer = timer then { r with count := r.count + 1 } else r
  | .removed timer => records.filter fun r => r.timer ≠ timer
  | .cleared => []
  | .waits _ _ => records

/-- The timers that are live -/
def schedule (trace : List Event) : List Record := trace.foldl Record.next []

lemma schedule_append (trace : List Event) (e : Event) :
    schedule (trace ++ [e]) = Record.next (schedule trace) e := by
  rw [schedule, List.foldl_append]
  rfl

/-- What the pool has of a timer -/
def Record.entry (r : Record) : ℕ × TimerImpl := (r.timer, ⟨r.due, r.interval⟩)

/-- **A timer that is on schedule**: it was not activated early, and while `run` waits it is due later. -/
structure Record.Punctual (now : ℤ) (looping : Bool) (r : Record) : Prop where
  early : r.count = 0 ∨ r.start + r.count * r.interval ≤ now
  late : looping = false → 0 < r.interval → now < r.due

/-- **The invariant** -/
structure Sound (trace : List Event) (s : State) : Prop where
  isMatch : s.timers.Matches
  pool : s.timers.timers = (schedule trace).map Record.entry
  punctual : ∀ r ∈ schedule trace, r.Punctual s.now s.looping
  now_nonneg : 0 ≤ s.now
  now_le : s.now ≤ s.clock
  default : ∀ e ∈ s.timers.queuedTimers.contents, e.2 = none → e.1 ≤ s.now + 300 * 1000
  waits : ∀ now timeout, .waits now timeout ∈ trace → 0 < timeout ∧ timeout ≤ 300 * 1000

namespace Sound

variable {trace : List Event} {s : State} {timers : Timers}

/-- What was seen before stays as it is. -/
lemma waits_append (h : Sound trace s) {es : List Event}
    (hes : ∀ now timeout, .waits now timeout ∈ es → 0 < timeout ∧ timeout ≤ 300 * 1000) (now timeout : ℤ)
    (hmem : .waits now timeout ∈ trace ++ es) : 0 < timeout ∧ timeout ≤ 300 * 1000 := by
  rcases List.mem_append.mp hmem with hmem | hmem
  · exact h.waits now timeout hmem
  · exact hes now timeout hmem

/-- **A timer is made**, which is due later. -/
lemma time (h : Sound trace s) {ticks interval : ℤ} {timer : ℕ} (hclock : s.clock ≤ ticks)
    (hnew : timer ∉ s.timers.timers.map Prod.fst)
    (htime : s.timers.time ticks interval timer = some timers) :
    Sound (trace ++ [.created timer ticks interval]) { s with timers, clock := ticks } := by
  obtain ⟨timers', htime', hmatch, hperm, hpool⟩ := Timers.time_spec h.isMatch ticks interval hnew
  obtain rfl := Option.some_inj.mp (htime'.symm.trans htime)
  have hnow := h.now_le
  refine ⟨hmatch, ?_, ?_, h.now_nonneg, hnow.trans hclock, ?_, h.waits_append nofun⟩
  · rw [hpool, h.pool, schedule_append, Record.next, List.map_append]
    simp [Record.entry, Record.due]
  · rw [schedule_append]
    intro r hr
    rcases List.mem_append.mp hr with hr | hr
    · exact h.punctual r hr
    · rw [List.mem_singleton.mp hr]
      refine ⟨.inl rfl, fun _ hpos => ?_⟩
      simp only [Record.due]
      push_cast
      linarith
  · intro e he hnone
    rcases List.mem_cons.mp (hperm.mem_iff.mp he) with rfl | he
    · exact absurd hnone (Option.some_ne_none timer)
    · exact h.default e he hnone

/-- **A timer is removed.** -/
lemma remove (h : Sound trace s) {timer : ℕ} (hlive : timer ∈ s.timers.timers.map Prod.fst)
    (hfinds : s.timers.FindsInTime (.remove timer)) (hremove : s.timers.remove timer = some timers) :
    Sound (trace ++ [.removed timer]) { s with timers } := by
  obtain ⟨timers', key, hremove', hmatch, hperm, hpool⟩ :=
    Timers.remove_spec h.isMatch hlive hfinds
  obtain rfl := Option.some_inj.mp (hremove'.symm.trans hremove)
  refine ⟨hmatch, ?_, ?_, h.now_nonneg, h.now_le, ?_, h.waits_append nofun⟩
  · rw [hpool, h.pool, schedule_append, Record.next, List.filter_map]
    rfl
  · rw [schedule_append]
    exact fun r hr => h.punctual r (List.mem_of_mem_filter hr)
  · exact fun e he hnone => h.default e (hperm.mem_iff.mpr (List.mem_cons_of_mem _ he)) hnone

/-- **All timers are removed.** -/
lemma clear (h : Sound trace s) (hclear : s.timers.clear = some timers) :
    Sound (trace ++ [.cleared]) { s with timers } := by
  obtain ⟨timers', hclear', hmatch, hcontents, hpool⟩ := Timers.clear_spec h.isMatch
  obtain rfl := Option.some_inj.mp (hclear'.symm.trans hclear)
  have hnow := h.now_nonneg
  refine ⟨hmatch, ?_, ?_, hnow, h.now_le, ?_, h.waits_append nofun⟩
  · rw [hpool, schedule_append]
    rfl
  · rw [schedule_append]
    exact nofun
  · rw [hcontents]
    intro e he _
    rw [List.mem_singleton.mp he]
    show (0 : ℤ) ≤ s.now + 300 * 1000
    omega

/-- **The clock is read.** -/
lemma read (h : Sound trace s) {ticks : ℤ} (hclock : s.clock ≤ ticks) :
    Sound (trace ++ []) { s with clock := ticks, now := ticks, looping := true } := by
  have hle := h.now_le.trans hclock
  rw [List.append_nil]
  refine ⟨h.isMatch, h.pool, fun r hr => ?_, h.now_nonneg.trans hle, le_rfl, ?_, h.waits⟩
  · refine ⟨(h.punctual r hr).early.imp_right hle.trans', nofun⟩
  · intro e he hnone
    exact (h.default e he hnone).trans (by simpa using hle)

/-- The record of a timer is what the pool has of it. -/
lemma entry_eq (h : Sound trace s) {timer : ℕ} {impl : TimerImpl}
    (hmem : (timer, impl) ∈ s.timers.timers) {r : Record} (hr : r ∈ schedule trace)
    (htimer : r.timer = timer) : impl = ⟨r.due, r.interval⟩ := by
  have hentry : (timer, ⟨r.due, r.interval⟩) ∈ s.timers.timers := by
    rw [h.pool, ← htimer]
    exact List.mem_map_of_mem hr
  have hlookup := Timers.lookup_of_mem h.isMatch.pool hentry
  rw [Timers.lookup_of_mem h.isMatch.pool hmem] at hlookup
  exact Option.some_inj.mp hlookup

/-- **A timer is activated**, and due again one interval later. -/
lemma activate (h : Sound trace s) {timer : ℕ} {impl : TimerImpl} {rest : List (ℤ × Option ℕ)}
    (hlooping : s.looping = true) (hmatch : timers.Matches)
    (hcontents : s.timers.queuedTimers.contents = (impl.executionTime, some timer) :: rest)
    (hmem : (timer, impl) ∈ s.timers.timers) (hdue : impl.executionTime ≤ s.now)
    (hperm : timers.queuedTimers.contents.Perm
      ((impl.executionTime + impl.interval, some timer) :: rest))
    (hpool : timers.timers = s.timers.timers.map fun e => if e.1 = timer then
      (timer, { e.2 with executionTime := impl.executionTime + impl.interval }) else e) :
    Sound (trace ++ [.activated timer impl.executionTime]) { s with timers } := by
  refine ⟨hmatch, ?_, ?_, h.now_nonneg, h.now_le, ?_, h.waits_append nofun⟩
  · rw [hpool, h.pool, schedule_append, Record.next, List.map_map, List.map_map]
    refine List.map_congr_left fun r hr => ?_
    by_cases htimer : r.timer = timer
    · have himpl := h.entry_eq hmem hr htimer
      simp only [Function.comp_apply, Record.entry, himpl, htimer, Record.due]
      push_cast
      congr 2
      ring
    · have hentry : r.entry.1 ≠ timer := htimer
      simp only [Function.comp_apply, if_neg hentry, if_neg htimer]
  · rw [schedule_append]
    intro r' hr'
    obtain ⟨r, hr, rfl⟩ := List.mem_map.mp hr'
    by_cases htimer : r.timer = timer
    · rw [if_pos htimer]
      have himpl := h.entry_eq hmem hr htimer
      rw [himpl] at hdue
      refine ⟨.inr ?_, fun hout => absurd (hout.symm.trans hlooping) Bool.false_ne_true⟩
      simpa [Record.due] using hdue
    · rw [if_neg htimer]
      exact h.punctual r hr
  · intro e he hnone
    rcases List.mem_cons.mp (hperm.mem_iff.mp he) with rfl | he
    · exact absurd hnone (Option.some_ne_none timer)
    · exact h.default e (by rw [hcontents]; exact List.mem_cons_of_mem _ he) hnone

/-- **The entry without a timer** is put off. -/
lemma putOff (h : Sound trace s) {key : ℤ} {rest : List (ℤ × Option ℕ)} (hmatch : timers.Matches)
    (hcontents : s.timers.queuedTimers.contents = (key, none) :: rest)
    (hperm : timers.queuedTimers.contents.Perm ((s.now + 300 * 1000, none) :: rest))
    (hpool : timers.timers = s.timers.timers) : Sound (trace ++ []) { s with timers } := by
  rw [List.append_nil]
  refine ⟨hmatch, hpool.trans h.pool, h.punctual, h.now_nonneg, h.now_le, ?_, h.waits⟩
  intro e he hnone
  rcases List.mem_cons.mp (hperm.mem_iff.mp he) with rfl | he
  · exact le_rfl
  · exact h.default e (by rw [hcontents]; exact List.mem_cons_of_mem _ he) hnone

/-- **The loop is over**, as the first entry of the queue is due later. -/
lemma wait (h : Sound trace s) {key : ℤ} {timer : Option ℕ} {rest : List (ℤ × Option ℕ)}
    (hcontents : s.timers.queuedTimers.contents = (key, timer) :: rest) (hlate : s.now < key) :
    Sound (trace ++ [.waits s.now (key - s.now)]) { s with looping := false } := by
  have hsorted := h.isMatch.pairwise
  rw [hcontents, List.pairwise_cons] at hsorted
  have hall : ∀ e ∈ s.timers.queuedTimers.contents, key ≤ e.1 := by
    rw [hcontents]
    intro e he
    rcases List.mem_cons.mp he with rfl | he
    · exact le_rfl
    · exact hsorted.1 e he
  refine ⟨h.isMatch, ?_, ?_, h.now_nonneg, h.now_le, h.default, h.waits_append ?_⟩
  · rw [schedule_append]
    exact h.pool
  · rw [schedule_append]
    intro r hr
    refine ⟨(h.punctual r hr).early, fun _ _ => ?_⟩
    have hentry : r.entry ∈ s.timers.timers := by
      rw [h.pool]
      exact List.mem_map_of_mem hr
    exact hlate.trans_le (hall _ (h.isMatch.mem_contents hentry))
  · -- the entry without a timer is not further away
    intro now timeout hmem
    obtain ⟨rfl, rfl⟩ := by simpa using hmem
    obtain ⟨e, he, hnone⟩ := List.countP_pos_iff.mp (h.isMatch.default.symm ▸ Nat.one_pos)
    have hle := h.default e he (of_decide_eq_true hnone)
    have hkey := hall e he
    omega

/-- **One turn** of the loop -/
lemma turn (h : Sound trace s) {s' : State} {es : List Event} (hstep : step s .turn = some (s', es)) :
    Sound (trace ++ es) s' := by
  simp only [step] at hstep
  split_ifs at hstep with hlooping
  obtain ⟨timers, e, rest, hdispatch, hmatch, hcontents, hspec⟩ :=
    Timers.dispatch_spec h.isMatch s.now
  rw [h.isMatch.front_eq hcontents, Option.bind_eq_bind, Option.bind_some] at hstep
  split_ifs at hstep with hdue
  · rw [hdispatch] at hstep
    cases hspec with
    | timer hmem hperm hpool =>
      obtain ⟨rfl, rfl⟩ := Prod.mk.inj (Option.some_inj.mp hstep)
      exact h.activate hlooping hmatch hcontents hmem (by simpa using hdue) hperm hpool
    | default hperm hpool =>
      obtain ⟨rfl, rfl⟩ := Prod.mk.inj (Option.some_inj.mp hstep)
      exact h.putOff hmatch hcontents hperm hpool
  · obtain ⟨rfl, rfl⟩ := Prod.mk.inj (Option.some_inj.mp hstep)
    exact h.wait hcontents (by omega)

/-- **One step** -/
theorem step (h : Sound trace s) {s' : State} {es : List Event} {m : Move}
    (hstep : step s m = some (s', es)) : Sound (trace ++ es) s' := by
  cases m with
  | turn => exact h.turn hstep
  | time ticks interval timer =>
    simp only [TimerRuns.step] at hstep
    split_ifs at hstep with hallowed
    obtain ⟨timers, htime, hs'⟩ := Option.bind_eq_some_iff.mp hstep
    obtain ⟨rfl, rfl⟩ := Prod.mk.inj (Option.some_inj.mp hs')
    exact h.time hallowed.1 hallowed.2 htime
  | remove timer =>
    simp only [TimerRuns.step] at hstep
    split_ifs at hstep with hallowed
    obtain ⟨timers, hremove, hs'⟩ := Option.bind_eq_some_iff.mp hstep
    obtain ⟨rfl, rfl⟩ := Prod.mk.inj (Option.some_inj.mp hs')
    exact h.remove hallowed.1 hallowed.2 hremove
  | clear =>
    obtain ⟨timers, hclear, hs'⟩ := Option.bind_eq_some_iff.mp hstep
    obtain ⟨rfl, rfl⟩ := Prod.mk.inj (Option.some_inj.mp hs')
    exact h.clear hclear
  | read ticks =>
    simp only [TimerRuns.step] at hstep
    split_ifs at hstep with hallowed
    obtain ⟨rfl, rfl⟩ := Prod.mk.inj (Option.some_inj.mp hstep)
    exact h.read hallowed.1

end Sound

/-- What the constructor makes -/
lemma initial_contents : Timers.initial.map (fun s => (s.queuedTimers.contents, s.timers))
    = some ([(0, none)], []) := by decide

lemma sound_of_run {trace : List Event} {s : State} (h : system.Run trace s) : Sound trace s := by
  refine h.invariant (fun s hs => ?_) fun trace s es s' hsound hstep => ?_
  · obtain ⟨hinit, hclock, hnow, hlooping⟩ := hs
    obtain ⟨timers, hinit', hmatch⟩ := Timers.initial_matches
    obtain rfl := Option.some_inj.mp (hinit'.symm.trans hinit)
    have hcontents := initial_contents
    rw [hinit, Option.map_some] at hcontents
    obtain ⟨hcontents, hpool⟩ := Prod.mk.inj (Option.some_inj.mp hcontents)
    refine ⟨hmatch, hpool, nofun, hnow.ge, hnow.le.trans hclock, ?_, nofun⟩
    rw [hcontents, hnow]
    intro e he _
    rw [List.mem_singleton.mp he]
    norm_num
  · obtain ⟨m, -, hstep⟩ := hstep
    exact hsound.step hstep

/-- **Activations are on schedule** as long as no time overflows.  Whenever `run` is not in the loop, a timer was activated as often
    as its interval has passed since it was made.  It is not activated early, and `run` waits for some
    time, but not for more than 5 minutes. -/
theorem activated_on_schedule {trace : List Event} {s : State} (h : system.Run trace s) :
    (s.looping = false → ∀ r ∈ schedule trace, 0 < r.interval → r.start ≤ s.now →
      (r.count : ℤ) = (s.now - r.start) / r.interval)
    ∧ (∀ r ∈ schedule trace, r.count = 0 ∨ r.start + r.count * r.interval ≤ s.now)
    ∧ ∀ now timeout, .waits now timeout ∈ trace → 0 < timeout ∧ timeout ≤ 300 * 1000 := by
  have hsound := sound_of_run h
  refine ⟨fun hlooping r hr hpos hstart => ?_, fun r hr => (hsound.punctual r hr).early, hsound.waits⟩
  have hlate := (hsound.punctual r hr).late hlooping hpos
  have hearly : r.start + r.count * r.interval ≤ s.now := by
    rcases (hsound.punctual r hr).early with hzero | hle
    · rw [hzero]
      simpa using hstart
    · exact hle
  rw [Record.due] at hlate
  refine le_antisymm ?_ ?_
  · rw [Int.le_ediv_iff_mul_le hpos]
    linarith
  · refine Int.lt_add_one_iff.mp ((Int.ediv_lt_iff_lt_mul hpos).mpr ?_)
    linarith

instance decidableFits (x : ℤ) : Decidable (FitsInt64 x) :=
  inferInstanceAs (Decidable (-2 ^ 63 ≤ x ∧ x < 2 ^ 63))

/-- A step in which nothing overflows -/
def fittingStep (s : State) (m : Move) : Option (State × List Event) :=
  if ∀ x ∈ sums s m, FitsInt64 x then step s m else none

/-- A run of certain moves on a new `Server` -/
lemma exists_run (ms : List Move) {trace : List Event} {now : ℤ} {looping : Bool}
    (h : (Timers.initial.bind fun timers => System.exec fittingStep ⟨timers, 0, 0, false⟩ ms).map
      (fun r => (r.2, r.1.now, r.1.looping)) = some (trace, now, looping)) :
    ∃ s, system.Run trace s ∧ s.now = now ∧ s.looping = looping := by
  obtain ⟨⟨s, es⟩, hs, heq⟩ := Option.map_eq_some_iff.mp h
  obtain ⟨timers, hinit, hexec⟩ := Option.bind_eq_some_iff.mp hs
  obtain ⟨rfl, rfl, rfl⟩ : es = trace ∧ s.now = now ∧ s.looping = looping := by simpa using heq
  have hstep : ∀ s m s' es, fittingStep s m = some (s', es) → system.step s es s' := by
    intro s m s' es hm
    rw [fittingStep] at hm
    split_ifs at hm with hfits
    exact ⟨m, hfits, hm⟩
  exact ⟨s, System.Run.exec hstep (.start ⟨hinit, le_rfl, rfl, rfl⟩) hexec, rfl, rfl⟩

/-- A timer with an interval of 100, and `run` that comes late -/
def late : List Move := [.time 0 100 1, .read 250, .turn, .turn, .turn, .turn]

/-- What is seen of it -/
def lateTrace : List Event :=
  [.created 1 0 100, .activated 1 100, .activated 1 200, .waits 250 50]

lemma late_run : ∃ s, system.Run lateTrace s ∧ s.now = 250 ∧ s.looping = false :=
  exists_run late (by decide +kernel)

/-- It is activated twice. -/
theorem activated_on_schedule_late : ∃ s, system.Run lateTrace s
    ∧ ∀ r ∈ schedule lateTrace, (r.count : ℤ) = (250 - r.start) / r.interval := by
  obtain ⟨s, hrun, hnow, hlooping⟩ := late_run
  have hschedule := (activated_on_schedule hrun).1 hlooping
  rw [hnow] at hschedule
  refine ⟨s, hrun, fun r hr => hschedule r hr ?_ ?_⟩
  · obtain rfl : r = ⟨1, 0, 100, 2⟩ := List.mem_singleton.mp hr
    norm_num
  · obtain rfl : r = ⟨1, 0, 100, 2⟩ := List.mem_singleton.mp hr
    norm_num

/-! ## The order of activations -/

/-- The times that activations were due at -/
def activations (trace : List Event) : List ℤ :=
  trace.filterMap fun
    | .activated _ due => some due
    | _ => none

/-- The intervals of all timers are positive. -/
def Positive (trace : List Event) : Prop :=
  ∀ timer ticks interval, .created timer ticks interval ∈ trace → 0 < interval

/-- **The invariant**: what is due was not due before an activation that there was. -/
structure Ordered (trace : List Event) (s : State) : Prop where
  sorted : (activations trace).Pairwise (· ≤ ·)
  past : ∀ due ∈ activations trace, due ≤ s.now ∧ ∀ r ∈ schedule trace, due ≤ r.due
  positive : ∀ r ∈ schedule trace, 0 < r.interval

lemma activations_append (trace es : List Event) :
    activations (trace ++ es) = activations trace ++ activations es := List.filterMap_append

/-- Nothing is activated, and what is made is due later. -/
lemma Ordered.quiet {trace es : List Event} {s s' : State} (h : Ordered trace s)
    (hes : activations es = []) (hnow : s.now ≤ s'.now)
    (hrecords : ∀ r ∈ schedule (trace ++ es), 0 < r.interval ∧ (r ∈ schedule trace ∨ s.now ≤ r.due)) :
    Ordered (trace ++ es) s' := by
  have hsame : activations (trace ++ es) = activations trace := by
    rw [activations_append, hes, List.append_nil]
  refine ⟨hsame ▸ h.sorted, fun due hdue => ?_, fun r hr => (hrecords r hr).1⟩
  rw [hsame] at hdue
  obtain ⟨hpast, hall⟩ := h.past due hdue
  refine ⟨hpast.trans hnow, fun r hr => ?_⟩
  rcases (hrecords r hr).2 with hold | hnew
  · exact hall r hold
  · exact hpast.trans hnew

/-- **The timer that is due first** is activated. -/
lemma Ordered.activate {trace : List Event} {s s' : State} {timer : ℕ} {due : ℤ}
    (h : Ordered trace s) (hnow : s'.now = s.now) (hdue : due ≤ s.now)
    (hfirst : ∀ r ∈ schedule trace, due ≤ r.due)
    (hlast : ∃ r ∈ schedule trace, r.due = due) : Ordered (trace ++ [.activated timer due]) s' := by
  have hpast : ∀ due' ∈ activations trace, due' ≤ due := by
    intro due' hdue'
    obtain ⟨r, hr, rfl⟩ := hlast
    exact (h.past due' hdue').2 r hr
  have hlater : ∀ r ∈ schedule (trace ++ [.activated timer due]), 0 < r.interval ∧ due ≤ r.due := by
    rw [schedule_append]
    intro r' hr'
    obtain ⟨r, hr, rfl⟩ := List.mem_map.mp hr'
    have hpos := h.positive r hr
    have hle := hfirst r hr
    by_cases htimer : r.timer = timer
    · rw [if_pos htimer]
      refine ⟨hpos, ?_⟩
      simp only [Record.due] at hle ⊢
      push_cast
      linarith
    · rw [if_neg htimer]
      exact ⟨hpos, hle⟩
  refine ⟨?_, ?_, fun r hr => (hlater r hr).1⟩
  · rw [activations_append]
    refine List.pairwise_append.mpr ⟨h.sorted, List.pairwise_singleton _ _, fun a ha b hb => ?_⟩
    rw [List.mem_singleton.mp hb]
    exact hpast a ha
  · rw [activations_append, hnow]
    intro due' hdue'
    have hle : due' ≤ due := by
      rcases List.mem_append.mp hdue' with hold | hnew
      · exact hpast due' hold
      · exact (List.mem_singleton.mp hnew).le
    exact ⟨hle.trans hdue, fun r hr => hle.trans (hlater r hr).2⟩

/-- What is seen of a turn -/
lemma turn_cases {trace es : List Event} {s s' : State} (h : Sound trace s)
    (hstep : step s .turn = some (s', es)) :
    s'.now = s.now ∧ ((activations es = [] ∧ schedule (trace ++ es) = schedule trace)
      ∨ ∃ timer due, es = [.activated timer due] ∧ due ≤ s.now
        ∧ (∀ r ∈ schedule trace, due ≤ r.due) ∧ ∃ r ∈ schedule trace, r.due = due) := by
  simp only [step] at hstep
  split_ifs at hstep with hlooping
  obtain ⟨timers, e, rest, hdispatch, -, hcontents, hspec⟩ := Timers.dispatch_spec h.isMatch s.now
  rw [h.isMatch.front_eq hcontents, Option.bind_eq_bind, Option.bind_some] at hstep
  split_ifs at hstep with hdue
  · rw [hdispatch] at hstep
    cases hspec with
    | @timer timer impl _ hmem hperm hpool =>
      obtain ⟨rfl, rfl⟩ := Prod.mk.inj (Option.some_inj.mp hstep)
      refine ⟨rfl, .inr ⟨timer, _, rfl, by simpa using hdue, fun r hr => ?_, ?_⟩⟩
      · have hentry : r.entry ∈ s.timers.timers := h.pool ▸ List.mem_map_of_mem hr
        have hmem := h.isMatch.mem_contents hentry
        have hsorted := h.isMatch.pairwise
        rw [hcontents] at hmem hsorted
        rcases List.mem_cons.mp hmem with heq | hrest
        · exact (congrArg Prod.fst heq).ge
        · exact (List.pairwise_cons.mp hsorted).1 _ hrest
      · rw [h.pool] at hmem
        obtain ⟨r, hr, hentry⟩ := List.mem_map.mp hmem
        exact ⟨r, hr, congrArg (fun e => e.2.executionTime) hentry⟩
    | default hperm hpool =>
      obtain ⟨rfl, rfl⟩ := Prod.mk.inj (Option.some_inj.mp hstep)
      exact ⟨rfl, .inl ⟨rfl, by rw [List.append_nil]⟩⟩
  · obtain ⟨rfl, rfl⟩ := Prod.mk.inj (Option.some_inj.mp hstep)
    exact ⟨rfl, .inl ⟨rfl, schedule_append trace _⟩⟩

/-- **One step** -/
lemma Ordered.step {trace es : List Event} {s s' : State} {m : Move} (h : Ordered trace s)
    (hsound : Sound trace s) (hpositive : Positive (trace ++ es))
    (hstep : step s m = some (s', es)) : Ordered (trace ++ es) s' := by
  cases m with
  | turn =>
    obtain ⟨hnow, ⟨hes, hschedule⟩ | ⟨timer, due, rfl, hdue, hfirst, hlast⟩⟩ :=
      turn_cases hsound hstep
    · refine h.quiet hes hnow.ge fun r hr => ?_
      rw [hschedule] at hr
      exact ⟨h.positive r hr, .inl hr⟩
    · exact h.activate hnow hdue hfirst hlast
  | time ticks interval timer =>
    simp only [TimerRuns.step] at hstep
    split_ifs at hstep with hallowed
    obtain ⟨timers, htime, hs'⟩ := Option.bind_eq_some_iff.mp hstep
    obtain ⟨rfl, rfl⟩ := Prod.mk.inj (Option.some_inj.mp hs')
    have hpos : 0 < interval := hpositive timer ticks interval (by simp)
    refine h.quiet rfl le_rfl fun r hr => ?_
    rw [schedule_append] at hr
    rcases List.mem_append.mp hr with hr | hr
    · exact ⟨h.positive r hr, .inl hr⟩
    · rw [List.mem_singleton.mp hr]
      have hnow := hsound.now_le.trans hallowed.1
      refine ⟨hpos, .inr ?_⟩
      simp only [Record.due]
      push_cast
      linarith
  | remove timer =>
    simp only [TimerRuns.step] at hstep
    split_ifs at hstep with hallowed
    obtain ⟨timers, hremove, hs'⟩ := Option.bind_eq_some_iff.mp hstep
    obtain ⟨rfl, rfl⟩ := Prod.mk.inj (Option.some_inj.mp hs')
    refine h.quiet rfl le_rfl fun r hr => ?_
    rw [schedule_append] at hr
    have hold := List.mem_of_mem_filter hr
    exact ⟨h.positive r hold, .inl hold⟩
  | clear =>
    obtain ⟨timers, hclear, hs'⟩ := Option.bind_eq_some_iff.mp hstep
    obtain ⟨rfl, rfl⟩ := Prod.mk.inj (Option.some_inj.mp hs')
    refine h.quiet rfl le_rfl fun r hr => ?_
    rw [schedule_append] at hr
    exact absurd hr List.not_mem_nil
  | read ticks =>
    simp only [TimerRuns.step] at hstep
    split_ifs at hstep with hallowed
    obtain ⟨rfl, rfl⟩ := Prod.mk.inj (Option.some_inj.mp hstep)
    refine h.quiet rfl (hsound.now_le.trans hallowed.1) fun r hr => ?_
    rw [List.append_nil] at hr
    exact ⟨h.positive r hr, .inl hr⟩

/-- **Activations are in order** as long as no time overflows: over all turns of `run`, timers are activated in the order of the times
    that they were due at. -/
theorem activated_in_order {trace : List Event} {s : State} (h : system.Run trace s)
    (hpositive : Positive trace) : (activations trace).Pairwise (· ≤ ·) := by
  have hordered : Ordered trace s := by
    induction h with
    | start _ => exact ⟨.nil, nofun, nofun⟩
    | @next trace es s s' hrun hstep ih =>
      obtain ⟨m, -, hstep⟩ := hstep
      have hprefix : Positive trace := fun timer ticks interval hmem =>
        hpositive timer ticks interval (List.mem_append_left _ hmem)
      exact (ih hprefix).step (sound_of_run hrun) hpositive hstep
  exact hordered.sorted

/-- The two activations of a timer -/
theorem activated_in_order_late : Positive lateTrace ∧ (activations lateTrace).Pairwise (· ≤ ·) := by
  obtain ⟨s, hrun, -⟩ := late_run
  have hpositive : Positive lateTrace := by
    intro timer ticks interval hmem
    obtain ⟨-, -, rfl⟩ : timer = 1 ∧ ticks = 0 ∧ interval = 100 := by
      simpa [lateTrace] using hmem
    norm_num
  exact ⟨hpositive, activated_in_order hrun hpositive⟩

end Nstd.TimerRuns
