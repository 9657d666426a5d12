import Mathlib.Logic.Relation
import Mathlib.Tactic.Linarith
import Mathlib.Tactic.Ring
import Nstd.Core.System
import Nstd.Server.Timers

/-!
# The timer dispatch loop of a `Server`

The loop in `run` that fires the timers that are due at the tick value `now` read before it.  Each of
them goes back into the queue that is being drained, and its callback may add, remove and clear.

* `Turn` — one turn of the loop, with anything a callback may do.
* `Ends` — the loop comes to an end, within the width of `int64`, and leaves no entry that is due.
* `Advances` — every due timer has a positive interval and gets past `now` within that width.
* **`loop_ends_iff`** — the loop ends exactly when the timers advance.
* `loop_endless` — a timer with the interval 0, which `time` takes, keeps it going.

A timer that is due goes back one interval later.  With positive intervals each turn makes the sum of
what is overdue smaller, and callbacks do not make it larger.
-/

namespace Nstd

open Relation (ReflTransGen)

/-- A value an `int64` can have; a signed addition that leaves the range is undefined behaviour. -/
def FitsInt64 (x : ℤ) : Prop := -2 ^ 63 ≤ x ∧ x < 2 ^ 63

namespace Timers

/-! ## The loop -/

/-- `_queuedTimers.begin().key()` and `_queuedTimers.front()` -/
def front (s : Timers) : Option (ℤ × Option ℕ) :=
  s.queuedTimers.begin.map fun i => ((s.queuedTimers.mem i).key, (s.queuedTimers.mem i).value)

/-- What a callback may call.  The clock has gone on, intervals are positive and the sum is an
    `int64`, and removals find the entry of their timer. -/
def InCallback (now : ℤ) (s : Timers) : Op → Prop
  | .time ticks interval _ => now ≤ ticks ∧ 0 < interval ∧ ticks + interval < 2 ^ 63
  | .remove timer => FindsInTime s (.remove timer)
  | .dispatch _ => False
  | .clear => True

/-- The calls of one callback -/
inductive Calls (now : ℤ) : Timers → Timers → Prop
  | none {s : Timers} : Calls now s s
  | next {s s₁ s' : Timers} {op : Op} : Calls now s s₁ → op.Allowed s₁ → InCallback now s₁ op →
      op.exec s₁ = some s' → Calls now s s'

/-- One turn of the loop.  Only a user timer has a callback. -/
def Turn (now : ℤ) (s s' : Timers) : Prop :=
  s.Due now ∧ ∃ s₁, s.dispatch now = some s₁ ∧
    match s.front with
    | some (_, some _) => Calls now s₁ s'
    | _ => s' = s₁

/-- What the test of the loop and the turn after it compute are `int64` values. -/
structure Within (s : Timers) (now : ℤ) : Prop where
  test : ∀ e ∈ s.front, FitsInt64 (e.1 - now)
  turn : s.Due now →
    match s.front with
    | some (_, some timer) =>
      ∀ impl ∈ s.timers.lookup timer, FitsInt64 (impl.executionTime + impl.interval)
    | _ => FitsInt64 (now + 300 * 1000)

/-- The loop ends, whatever the callbacks do: it makes finitely many turns, none of which goes wrong,
    and when it ends no entry is due. -/
structure Ends (s : Timers) (now : ℤ) : Prop where
  finite : ∀ f : ℕ → Timers, f 0 = s → ¬ ∀ i, Turn now (f i) (f (i + 1))
  within : ∀ s', ReflTransGen (Turn now) s s' → Within s' now
  turns : ∀ s', ReflTransGen (Turn now) s s' → s'.Due now → ∃ s'', Turn now s' s''
  late : ∀ s', ReflTransGen (Turn now) s s' → ¬ s'.Due now →
    ∀ e ∈ s'.queuedTimers.contents, now < e.1

/-- The timers that are due get past `now`. -/
structure Advances (s : Timers) (now : ℤ) : Prop where
  interval : ∀ e ∈ s.timers, e.2.executionTime ≤ now → 0 < e.2.interval
  below : ∀ e ∈ s.timers, ∀ k : ℕ, e.2.executionTime + k * e.2.interval ≤ now →
    e.2.executionTime ≤ now → e.2.executionTime + (k + 1) * e.2.interval < 2 ^ 63
  default : s.Due now → now + 300 * 1000 < 2 ^ 63
  above : ∀ e ∈ s.queuedTimers.contents, -2 ^ 63 ≤ e.1 - now

/-! ## The front of the queue -/

lemma Matches.pairwise {s : Timers} (hs : s.Matches) :
    s.queuedTimers.contents.Pairwise fun e e' => e.1 ≤ e'.1 := by
  obtain ⟨t, free, hq⟩ := hs.queue
  rw [MultiMap.contents_eq hq, List.pairwise_map]
  exact List.pairwise_map.mp hq.sorted

lemma Matches.front_eq {s : Timers} (hs : s.Matches) {e : ℤ × Option ℕ}
    {rest : List (ℤ × Option ℕ)} (h : s.queuedTimers.contents = e :: rest) : s.front = some e := by
  obtain ⟨t, free, hq⟩ := hs.queue
  rw [MultiMap.contents_eq hq] at h
  obtain ⟨i, l, ht, rfl, -⟩ := List.map_eq_cons_iff.mp h
  rw [front, hq.valid.begin_eq (show t.inorder ++ [endItem] = i :: (l ++ [endItem]) by rw [ht]; rfl)]
  rfl

lemma Matches.due_iff {s : Timers} (hs : s.Matches) {e : ℤ × Option ℕ}
    {rest : List (ℤ × Option ℕ)} (h : s.queuedTimers.contents = e :: rest) (now : ℤ) :
    s.Due now ↔ e.1 ≤ now := by
  have hfront := hs.front_eq h
  unfold Due
  rw [front] at hfront
  obtain ⟨i, hi, rfl⟩ := Option.map_eq_some_iff.mp hfront
  rw [hi]
  simp only
  omega

/-- The queue is due when any entry is. -/
lemma Matches.due_iff_exists {s : Timers} (hs : s.Matches) (now : ℤ) :
    s.Due now ↔ ∃ e ∈ s.queuedTimers.contents, e.1 ≤ now := by
  obtain ⟨s', e, rest, -, -, h, -⟩ := dispatch_spec hs now
  rw [hs.due_iff h]
  refine ⟨fun he => ⟨e, by simp [h], he⟩, ?_⟩
  rintro ⟨e', he', hle⟩
  have hp := hs.pairwise
  rw [h, List.pairwise_cons] at hp
  rw [h] at he'
  rcases List.mem_cons.mp he' with rfl | he'
  · exact hle
  · exact (hp.1 e' he').trans hle

/-! ## Why the loop ends -/

/-- How far the timers are behind, `now` included -/
def lag (now : ℤ) : List (ℕ × TimerImpl) → ℕ
  | [] => 0
  | e :: l => (now + 1 - e.2.executionTime).toNat + lag now l

lemma lag_append (now : ℤ) (l l' : List (ℕ × TimerImpl)) :
    lag now (l ++ l') = lag now l + lag now l' := by
  induction l with
  | nil => rw [List.nil_append, lag, Nat.zero_add]
  | cons e l ih => rw [List.cons_append, lag, lag, ih, Nat.add_assoc]

lemma lag_filter_le (now : ℤ) (p : ℕ × TimerImpl → Bool) (l : List (ℕ × TimerImpl)) :
    lag now (l.filter p) ≤ lag now l := by
  induction l with
  | nil => exact le_rfl
  | cons e l ih =>
    rw [List.filter_cons]
    split
    · exact Nat.add_le_add_left ih _
    · exact ih.trans (Nat.le_add_left _ _)

/-- A timer that is put off lags less. -/
lemma lag_map_lt {now : ℤ} {l : List (ℕ × TimerImpl)} {timer : ℕ} {impl : TimerImpl}
    (hl : (l.map Prod.fst).Nodup) (hmem : (timer, impl) ∈ l) (hdue : impl.executionTime ≤ now)
    (hpos : 0 < impl.interval) :
    lag now (l.map fun e => if e.1 = timer then
      (timer, { e.2 with executionTime := impl.executionTime + impl.interval }) else e)
      < lag now l := by
  induction l with
  | nil => cases hmem
  | cons e l ih =>
    rw [List.map_cons, List.nodup_cons] at hl
    rw [List.map_cons, lag, lag]
    rcases List.mem_cons.mp hmem with rfl | hmem
    · have hrest : (l.map fun e => if e.1 = timer then
          (timer, { e.2 with executionTime := impl.executionTime + impl.interval }) else e) = l :=
        (List.map_congr_left fun e he => if_neg fun h =>
          hl.1 (List.mem_map.mpr ⟨e, he, h⟩)).trans (List.map_id l)
      rw [hrest, if_pos rfl]
      simp only
      omega
    · have hne : e.1 ≠ timer := fun h => hl.1 (List.mem_map.mpr ⟨_, hmem, h.symm⟩)
      rw [if_neg hne]
      exact Nat.add_lt_add_left (ih hl.2 hmem) _

/-- The entry without a timer is due. -/
def idle (now : ℤ) (s : Timers) : ℕ :=
  s.queuedTimers.contents.countP fun e => e.2 = none ∧ e.1 ≤ now

lemma Matches.idle_le {s : Timers} (hs : s.Matches) (now : ℤ) : idle now s ≤ 1 := by
  rw [← hs.default]
  exact List.countP_mono_left fun e _ he => by
    simp only [decide_eq_true_eq] at he ⊢
    exact he.1

/-- A state in which the loop goes on well -/
structure Good (now : ℤ) (s : Timers) : Prop where
  isMatch : s.Matches
  fits : ∀ e ∈ s.queuedTimers.contents, FitsInt64 e.1
  interval : ∀ e ∈ s.timers, e.2.executionTime ≤ now → 0 < e.2.interval
  below : ∀ e ∈ s.timers, ∀ k : ℕ, e.2.executionTime + k * e.2.interval ≤ now →
    e.2.executionTime ≤ now → e.2.executionTime + (k + 1) * e.2.interval < 2 ^ 63
  above : ∀ e ∈ s.queuedTimers.contents, -2 ^ 63 ≤ e.1 - now

/-- The execution times of the pool are keys of the queue. -/
lemma Matches.mem_contents {s : Timers} (hs : s.Matches) {e : ℕ × TimerImpl} (he : e ∈ s.timers) :
    (e.2.executionTime, some e.1) ∈ s.queuedTimers.contents := by
  have hin : (e.1, e.2.executionTime) ∈ queued s.queuedTimers.contents :=
    hs.live.mem_iff.mpr (List.mem_map.mpr ⟨_, he, rfl⟩)
  obtain ⟨⟨key, value⟩, hmem, heq⟩ := List.mem_filterMap.mp hin
  obtain ⟨timer, rfl, heq⟩ := Option.map_eq_some_iff.mp heq
  obtain ⟨rfl, rfl⟩ := Prod.mk.inj heq
  exact hmem

/-- A call keeps the state good, and no timer lags more. -/
lemma Good.call {now : ℤ} {s s' : Timers} {op : Op} (hnow : 0 ≤ now) (hnow' : now < 2 ^ 63)
    (hs : Good now s) (hop : op.Allowed s) (hin : InCallback now s op)
    (hrun : op.exec s = some s') : Good now s' ∧ lag now s'.timers ≤ lag now s.timers := by
  cases op with
  | time ticks interval timer =>
    obtain ⟨hticks, hpos, hlt⟩ := hin
    obtain ⟨s₁, hrun₁, hm, hperm, htimers⟩ := time_spec hs.isMatch ticks interval hop
    obtain rfl := Option.some.inj (hrun₁.symm.trans hrun)
    have hentry : ∀ {p : ℤ → Prop}, p (ticks + interval) →
        (∀ e ∈ s.queuedTimers.contents, p e.1) → ∀ e ∈ s₁.queuedTimers.contents, p e.1 := by
      intro p h₀ h e he
      rcases List.mem_cons.mp (hperm.mem_iff.mp he) with rfl | he
      · exact h₀
      · exact h e he
    have htimer : ∀ {p : TimerImpl → Prop}, p ⟨ticks + interval, interval⟩ →
        (∀ e ∈ s.timers, p e.2) → ∀ e ∈ s₁.timers, p e.2 := by
      intro p h₀ h e he
      rw [htimers, List.mem_append, List.mem_singleton] at he
      rcases he with he | rfl
      · exact h e he
      · exact h₀
    refine ⟨⟨hm, ?_, ?_, ?_, ?_⟩, ?_⟩
    · exact hentry ⟨by omega, hlt⟩ hs.fits
    · exact htimer (p := fun i => i.executionTime ≤ now → 0 < i.interval) (fun _ => hpos)
        hs.interval
    · refine htimer (p := fun i => ∀ k : ℕ, i.executionTime + k * i.interval ≤ now →
        i.executionTime ≤ now → i.executionTime + (k + 1) * i.interval < 2 ^ 63) ?_ hs.below
      intro k _ hdue
      exact absurd hdue (not_le.mpr (by show now < ticks + interval; omega))
    · exact hentry (p := fun key => -2 ^ 63 ≤ key - now) (by omega) hs.above
    · rw [htimers, lag_append, lag, lag]
      have hzero : (now + 1 - (ticks + interval)).toNat = 0 := by omega
      simp only [hzero]
      exact le_rfl
  | remove timer =>
    obtain ⟨s₁, key, hrun₁, hm, hperm, htimers⟩ := remove_spec hs.isMatch hop hin
    obtain rfl := Option.some.inj (hrun₁.symm.trans hrun)
    have hsub : ∀ e ∈ s₁.queuedTimers.contents, e ∈ s.queuedTimers.contents := fun e he =>
      hperm.mem_iff.mpr (List.mem_cons_of_mem _ he)
    have htsub : ∀ e ∈ s₁.timers, e ∈ s.timers := fun e he => by
      rw [htimers] at he
      exact List.mem_of_mem_filter he
    refine ⟨⟨hm, fun e he => hs.fits e (hsub e he), fun e he => hs.interval e (htsub e he),
      fun e he => hs.below e (htsub e he), fun e he => hs.above e (hsub e he)⟩, ?_⟩
    rw [htimers]
    exact lag_filter_le now _ _
  | dispatch _ => exact hin.elim
  | clear =>
    obtain ⟨s₁, hrun₁, hm, hcontents, htimers⟩ := clear_spec hs.isMatch
    obtain rfl := Option.some.inj (hrun₁.symm.trans hrun)
    refine ⟨⟨hm, ?_, by simp [htimers], by simp [htimers], ?_⟩, by simp [htimers, lag]⟩
    · rw [hcontents]
      intro e he
      rw [List.mem_singleton.mp he]
      simp only [FitsInt64]
      omega
    · rw [hcontents]
      intro e he
      rw [List.mem_singleton.mp he]
      simp only
      omega

lemma Good.calls {now : ℤ} {s s' : Timers} (hnow : 0 ≤ now) (hnow' : now < 2 ^ 63)
    (hs : Good now s) (h : Calls now s s') : Good now s' ∧ lag now s'.timers ≤ lag now s.timers := by
  induction h with
  | none => exact ⟨hs, le_rfl⟩
  | next _ hop hin hrun ih =>
    obtain ⟨hs₁, hle⟩ := ih
    obtain ⟨hs', hle'⟩ := hs₁.call hnow hnow' hop hin hrun
    exact ⟨hs', hle'.trans hle⟩

/-- The first entry of the queue is put in again later. -/
lemma mem_requeued {q q' rest : List (ℤ × Option ℕ)} {e e' : ℤ × Option ℕ} (hfront : q = e :: rest)
    (hperm : q'.Perm (e' :: rest)) {e₁ : ℤ × Option ℕ} (he : e₁ ∈ q') : e₁ ∈ q ∨ e₁.1 = e'.1 := by
  rcases List.mem_cons.mp (hperm.mem_iff.mp he) with rfl | he
  · exact Or.inr rfl
  · exact Or.inl (by rw [hfront]; exact List.mem_cons_of_mem _ he)

/-- Dispatching a user timer that is due -/
lemma Good.dispatch_timer {now : ℤ} {s s₁ : Timers} {timer : ℕ} {impl : TimerImpl}
    {rest : List (ℤ × Option ℕ)} (hs : Good now s) (hm : s₁.Matches)
    (hfront : s.queuedTimers.contents = (impl.executionTime, some timer) :: rest)
    (hmem : (timer, impl) ∈ s.timers) (hdue : impl.executionTime ≤ now)
    (hperm : s₁.queuedTimers.contents.Perm
      ((impl.executionTime + impl.interval, some timer) :: rest))
    (htimers : s₁.timers = s.timers.map fun e => if e.1 = timer then
      (timer, { e.2 with executionTime := impl.executionTime + impl.interval }) else e) :
    Good now s₁ ∧ lag now s₁.timers < lag now s.timers := by
  have hpos : 0 < impl.interval := hs.interval _ hmem hdue
  have hbelow := hs.below _ hmem
  have hfits := hs.fits (impl.executionTime, some timer) (by simp [hfront])
  have habove := hs.above (impl.executionTime, some timer) (by simp [hfront])
  simp only [FitsInt64] at hbelow hfits habove
  have hsum : impl.executionTime + impl.interval < 2 ^ 63 := by
    have h := hbelow 0 (by omega) hdue
    omega
  -- the timers are the old ones, but for the one that was put off
  have htimer : ∀ e ∈ s₁.timers, e ∈ s.timers
      ∨ e.2 = { impl with executionTime := impl.executionTime + impl.interval } := by
    intro e he
    rw [htimers] at he
    obtain ⟨e', he', rfl⟩ := List.mem_map.mp he
    split_ifs with h
    · refine Or.inr ?_
      have hlook := lookup_of_mem hs.isMatch.pool hmem
      rw [← h, lookup_of_mem hs.isMatch.pool (show (e'.1, e'.2) ∈ s.timers from he')] at hlook
      rw [Option.some.inj hlook]
    · exact Or.inl he'
  have hentry : ∀ e ∈ s₁.queuedTimers.contents,
      e ∈ s.queuedTimers.contents ∨ e.1 = impl.executionTime + impl.interval :=
    fun _ => mem_requeued hfront hperm
  refine ⟨⟨hm, ?_, ?_, ?_, ?_⟩, ?_⟩
  · intro e he
    rcases hentry e he with he | he
    · exact hs.fits e he
    · rw [he, FitsInt64]
      omega
  · intro e he
    rcases htimer e he with he | he
    · exact hs.interval e he
    · rw [he]
      exact fun _ => hpos
  · intro e he
    rcases htimer e he with he | he
    · exact hs.below e he
    · -- the times are those of the old timer from its second one on
      rw [he]
      intro k hk _
      have h := hbelow (k + 1) (by push_cast at hk ⊢; linarith) hdue
      push_cast at h ⊢
      linarith
  · intro e he
    rcases hentry e he with he | he
    · exact hs.above e he
    · rw [he]
      omega
  · rw [htimers]
    exact lag_map_lt hs.isMatch.pool hmem hdue hpos

/-- **One turn** keeps the state good and brings the loop nearer to its end. -/
lemma Good.turn {now : ℤ} {s s' : Timers} (hnow : 0 ≤ now) (hnow' : now < 2 ^ 63)
    (hlow : now + 300 * 1000 < 2 ^ 63) (hs : Good now s) (h : Turn now s s') :
    Good now s' ∧ 2 * lag now s'.timers + idle now s' < 2 * lag now s.timers + idle now s := by
  obtain ⟨hdue, s₁, hrun, hs'⟩ := h
  obtain ⟨s₂, e, rest, hrun₂, hm, hfront, hd⟩ := dispatch_spec hs.isMatch now
  obtain rfl := Option.some.inj (hrun.symm.trans hrun₂)
  rw [hs.isMatch.due_iff hfront] at hdue
  rw [hs.isMatch.front_eq hfront] at hs'
  cases hd with
  | timer hmem hperm htimers =>
    obtain ⟨hs₁, hlt⟩ := hs.dispatch_timer hm hfront hmem hdue hperm htimers
    obtain ⟨hgood, hle⟩ := hs₁.calls hnow hnow' hs'
    have hidle := hgood.isMatch.idle_le now
    exact ⟨hgood, by omega⟩
  | default hperm htimers =>
    obtain rfl := hs'
    have hentry : ∀ e ∈ s'.queuedTimers.contents,
        e ∈ s.queuedTimers.contents ∨ e.1 = now + 300 * 1000 :=
      fun _ => mem_requeued hfront hperm
    refine ⟨⟨hm, ?_, ?_, ?_, ?_⟩, ?_⟩
    · intro e he
      rcases hentry e he with he | he
      · exact hs.fits e he
      · rw [he, FitsInt64]
        omega
    · rw [htimers]
      exact hs.interval
    · rw [htimers]
      exact hs.below
    · intro e he
      rcases hentry e he with he | he
      · exact hs.above e he
      · omega
    · rw [htimers, idle, idle, hperm.countP_eq, hfront, List.countP_cons_of_neg (by simp),
        List.countP_cons_of_pos (by simpa using hdue)]
      omega

/-- What `Good` says about the turn that comes next -/
lemma Good.within {now : ℤ} {s : Timers} (hnow : 0 ≤ now) (hs : Good now s)
    (hlow : s.Due now → now + 300 * 1000 < 2 ^ 63) : Within s now := by
  obtain ⟨s₁, e, rest, -, -, hfront, hd⟩ := dispatch_spec hs.isMatch now
  have hfits := hs.fits e (by simp [hfront])
  have habove := hs.above e (by simp [hfront])
  simp only [FitsInt64] at hfits
  refine ⟨?_, ?_⟩
  · rw [hs.isMatch.front_eq hfront]
    intro e' he'
    obtain rfl := Option.some.inj he'
    rw [FitsInt64]
    omega
  · intro hdue
    have hlow := hlow hdue
    rw [hs.isMatch.front_eq hfront]
    rw [hs.isMatch.due_iff hfront] at hdue
    cases hd with
    | timer hmem _ _ =>
      intro impl' himpl
      rw [lookup_of_mem hs.isMatch.pool hmem] at himpl
      obtain rfl := Option.some.inj himpl
      have hpos := hs.interval _ hmem hdue
      have hbelow := hs.below _ hmem 0
      simp only [Nat.cast_zero, zero_mul, add_zero, zero_add, one_mul] at hbelow hpos hfits
      exact ⟨by omega, hbelow hdue hdue⟩
    | default _ _ => exact ⟨by omega, hlow⟩

/-- **The loop ends** if the timers that are due advance. -/
lemma Good.ends {now : ℤ} {s : Timers} (hnow : 0 ≤ now) (hnow' : now < 2 ^ 63) (hs : Good now s)
    (hlow : s.Due now → now + 300 * 1000 < 2 ^ 63) : Ends s now := by
  have hall : ∀ s', ReflTransGen (Turn now) s s' →
      Good now s' ∧ (s'.Due now → now + 300 * 1000 < 2 ^ 63) := by
    intro s' h
    induction h with
    | refl => exact ⟨hs, hlow⟩
    | tail _ hturn ih =>
      have hlow' := ih.2 hturn.1
      exact ⟨(ih.1.turn hnow hnow' hlow' hturn).1, fun _ => hlow'⟩
  refine ⟨?_, fun s' h => (hall s' h).1.within hnow (hall s' h).2, ?_, ?_⟩
  · rintro f rfl hf
    have hlow' := hlow (hf 0).1
    exact not_endless (fun s => 2 * lag now s.timers + idle now s)
      (fun s s' hs h => hs.turn hnow hnow' hlow' h) hs hf
  · intro s' h hdue
    obtain ⟨s₁, e, rest, hrun, -, hfront, hd⟩ := dispatch_spec (hall s' h).1.isMatch now
    refine ⟨s₁, hdue, s₁, hrun, ?_⟩
    rw [(hall s' h).1.isMatch.front_eq hfront]
    cases hd with
    | timer _ _ _ => exact .none
    | default _ _ => rfl
  · intro s' h hdue e he
    rw [(hall s' h).1.isMatch.due_iff_exists] at hdue
    exact not_le.mp fun hle => hdue ⟨e, he, hle⟩

/-! ## What an end takes -/

/-- One turn whose callback does nothing; the state stays when no entry is due. -/
def quietTurn (now : ℤ) (s : Timers) : Timers := if s.Due now then (s.dispatch now).getD s else s

/-- A timer that started at `start` was put off `n` times, each time within `int64`. -/
structure PutOff (s : Timers) (timer : ℕ) (start interval : ℤ) (n : ℕ) : Prop where
  mem : (timer, ⟨start + n * interval, interval⟩) ∈ s.timers
  below : n ≠ 0 → start + n * interval < 2 ^ 63

lemma quietTurn_spec {now : ℤ} {s : Timers} (hs : s.Matches) (hdue : s.Due now) :
    Turn now s (quietTurn now s) ∧ (quietTurn now s).Matches := by
  obtain ⟨s₁, e, rest, hrun, hm, hfront, hd⟩ := dispatch_spec hs now
  rw [quietTurn, if_pos hdue, hrun, Option.getD_some]
  refine ⟨⟨hdue, s₁, hrun, ?_⟩, hm⟩
  rw [hs.front_eq hfront]
  cases hd with
  | timer _ _ _ => exact .none
  | default _ _ => rfl

/-- A turn puts a timer off or leaves it alone. -/
lemma PutOff.quietTurn {now : ℤ} {s : Timers} {timer n : ℕ} {start interval : ℤ} (hs : s.Matches)
    (hw : Within s now) (h : PutOff s timer start interval n) :
    ∃ n', PutOff (quietTurn now s) timer start interval n' := by
  by_cases hdue : s.Due now
  · obtain ⟨s₁, e, rest, hrun, hm, hfront, hd⟩ := dispatch_spec hs now
    have hturn := hw.turn hdue
    rw [hs.front_eq hfront] at hturn
    rw [Timers.quietTurn, if_pos hdue, hrun, Option.getD_some]
    cases hd with
    | @timer timer' impl _ hmem _ htimers =>
      by_cases heq : timer' = timer
      · subst heq
        have hlook := lookup_of_mem hs.pool h.mem
        rw [lookup_of_mem hs.pool hmem] at hlook
        have himpl := Option.some.inj hlook
        have hsum : impl.executionTime + impl.interval = start + (n + 1 : ℕ) * interval := by
          rw [himpl]
          push_cast
          ring
        refine ⟨n + 1, ?_, fun _ => ?_⟩
        · rw [htimers, ← hsum]
          refine List.mem_map.mpr ⟨_, h.mem, ?_⟩
          rw [if_pos rfl]
        · rw [← hsum]
          exact (hturn impl (lookup_of_mem hs.pool hmem)).2
      · refine ⟨n, ?_, h.below⟩
        rw [htimers]
        refine List.mem_map.mpr ⟨_, h.mem, ?_⟩
        rw [if_neg (Ne.symm heq)]
    | default _ htimers => exact ⟨n, by rw [htimers]; exact h.mem, h.below⟩
  · rw [Timers.quietTurn, if_neg hdue]
    exact ⟨n, h⟩

/-- A loop that ends puts every timer off until it is not due any more. -/
lemma Ends.exists_putOff {now : ℤ} {s : Timers} (hs : s.Matches) (h : Ends s now)
    {e : ℕ × TimerImpl} (he : e ∈ s.timers) :
    ∃ s' n, PutOff s' e.1 e.2.executionTime e.2.interval n
      ∧ now < e.2.executionTime + n * e.2.interval := by
  have hall : ∀ i, ReflTransGen (Turn now) s ((quietTurn now)^[i] s)
      ∧ ((quietTurn now)^[i] s).Matches
      ∧ ∃ n, PutOff ((quietTurn now)^[i] s) e.1 e.2.executionTime e.2.interval n := by
    intro i
    induction i with
    | zero => exact ⟨.refl, hs, 0, by simpa using he, fun h => absurd rfl h⟩
    | succ i ih =>
      obtain ⟨hreach, hm, n, hput⟩ := ih
      rw [Function.iterate_succ_apply']
      obtain ⟨n', hput'⟩ := hput.quietTurn hm (h.within _ hreach)
      by_cases hdue : ((quietTurn now)^[i] s).Due now
      · obtain ⟨hturn, hm'⟩ := quietTurn_spec hm hdue
        exact ⟨hreach.tail hturn, hm', n', hput'⟩
      · have hstay : quietTurn now ((quietTurn now)^[i] s) = (quietTurn now)^[i] s := by
          rw [Timers.quietTurn, if_neg hdue]
        rw [hstay]
        exact ⟨hreach, hm, n, hput⟩
  obtain ⟨i, hi⟩ : ∃ i, ¬ ((quietTurn now)^[i] s).Due now := by
    by_contra hnone
    push Not at hnone
    refine h.finite (fun i => (quietTurn now)^[i] s) rfl fun i => ?_
    simp only [Function.iterate_succ_apply']
    exact (quietTurn_spec (hall i).2.1 (hnone i)).1
  obtain ⟨hreach, hm, n, hput⟩ := hall i
  exact ⟨_, n, hput, h.late _ hreach hi _ (hm.mem_contents hput.mem)⟩

/-- **If the loop ends** the timers that are due advance. -/
lemma Ends.advances {now : ℤ} {s : Timers} (hnow : 0 ≤ now) (hs : s.Matches) (h : Ends s now) :
    Advances s now := by
  obtain ⟨s₁, e, rest, hrun, hm, hfront, hd⟩ := dispatch_spec hs now
  have hw := h.within s .refl
  have hinterval : ∀ e ∈ s.timers, e.2.executionTime ≤ now → 0 < e.2.interval := by
    intro e he hdue
    obtain ⟨s', n, hput, hlate⟩ := h.exists_putOff hs he
    by_contra hneg
    have : (n : ℤ) * e.2.interval ≤ 0 :=
      mul_nonpos_of_nonneg_of_nonpos (Int.natCast_nonneg n) (not_lt.mp hneg)
    omega
  refine ⟨hinterval, ?_, ?_, ?_⟩
  · intro e he k hk hdue
    obtain ⟨s', n, hput, hlate⟩ := h.exists_putOff hs he
    have hpos := hinterval e he hdue
    have hkn : k < n := by
      by_contra hle
      have : (n : ℤ) * e.2.interval ≤ k * e.2.interval :=
        mul_le_mul_of_nonneg_right (by exact_mod_cast not_lt.mp hle) hpos.le
      omega
    have hle : ((k : ℤ) + 1) * e.2.interval ≤ n * e.2.interval :=
      mul_le_mul_of_nonneg_right (by exact_mod_cast hkn) hpos.le
    exact (add_le_add_right hle _).trans_lt (hput.below (by omega))
  · intro hdue
    have hturn := hw.turn hdue
    rw [hs.front_eq hfront] at hturn
    cases hd with
    | timer _ _ _ =>
      -- the callback clears the server, and then the entry without a timer is due
      obtain ⟨s₂, hclear, hm₂, hcontents, -⟩ := clear_spec hm
      have hstep : Turn now s s₂ := by
        refine ⟨hdue, s₁, hrun, ?_⟩
        rw [hs.front_eq hfront]
        exact .next .none (show Op.clear.Allowed s₁ from trivial) trivial hclear
      have hdue₂ : s₂.Due now := (hm₂.due_iff hcontents now).mpr hnow
      have hturn₂ := (h.within s₂ (.single hstep)).turn hdue₂
      rw [hm₂.front_eq hcontents] at hturn₂
      exact hturn₂.2
    | default _ _ => exact hturn.2
  · have htest := hw.test e (by rw [hs.front_eq hfront]; rfl)
    have hp := hs.pairwise
    rw [hfront, List.pairwise_cons] at hp
    intro e' he'
    rw [hfront] at he'
    rcases List.mem_cons.mp he' with rfl | he'
    · exact htest.1
    · have h₁ := hp.1 e' he'
      have h₂ := htest.1
      omega

/-! ## Every state of a server -/

/-- The operation computes `int64` values, and a removal finds the entry of its timer. -/
def Sound (s : Timers) (op : Op) : Prop :=
  FindsInTime s op ∧
    match op with
    | .time ticks interval _ => FitsInt64 (ticks + interval)
    | .dispatch now => Within s now
    | _ => True

lemma Reaches.sound {s : Timers} (h : Reaches Sound s) :
    s.Matches ∧ ∀ e ∈ s.queuedTimers.contents, FitsInt64 e.1 := by
  induction h with
  | @initial s hinit =>
    obtain ⟨s', hinit', hs⟩ := initial_matches
    obtain rfl := Option.some.inj (hinit'.symm.trans hinit)
    have hcontents : Timers.initial.map (fun s => s.queuedTimers.contents) = some [(0, none)] := by
      decide
    rw [hinit, Option.map_some] at hcontents
    refine ⟨hs, ?_⟩
    rw [Option.some.inj hcontents]
    simp [FitsInt64]
  | @step s s' op _ hop hok hrun ih =>
    obtain ⟨hs, hfits⟩ := ih
    cases op with
    | time ticks interval timer =>
      obtain ⟨s₁, hrun₁, hm, hperm, -⟩ := time_spec hs ticks interval hop
      obtain rfl := Option.some.inj (hrun₁.symm.trans hrun)
      refine ⟨hm, fun e he => ?_⟩
      rcases List.mem_cons.mp (hperm.mem_iff.mp he) with rfl | he
      · exact hok.2
      · exact hfits e he
    | remove timer =>
      obtain ⟨s₁, key, hrun₁, hm, hperm, -⟩ := remove_spec hs hop hok.1
      obtain rfl := Option.some.inj (hrun₁.symm.trans hrun)
      exact ⟨hm, fun e he => hfits e (hperm.mem_iff.mpr (List.mem_cons_of_mem _ he))⟩
    | dispatch now =>
      obtain ⟨s₁, e, rest, hrun₁, hm, hfront, hd⟩ := dispatch_spec hs now
      obtain rfl := Option.some.inj (hrun₁.symm.trans hrun)
      have hturn := hok.2.turn hop
      rw [hs.front_eq hfront] at hturn
      have hrest : ∀ e ∈ rest, FitsInt64 e.1 := fun e he => hfits e (by simp [hfront, he])
      refine ⟨hm, ?_⟩
      cases hd with
      | timer hmem hperm _ =>
        intro e he
        rcases List.mem_cons.mp (hperm.mem_iff.mp he) with rfl | he
        · exact hturn _ (lookup_of_mem hs.pool hmem)
        · exact hrest e he
      | default hperm _ =>
        intro e he
        rcases List.mem_cons.mp (hperm.mem_iff.mp he) with rfl | he
        · exact hturn
        · exact hrest e he
    | clear =>
      obtain ⟨s₁, hrun₁, hm, hcontents, -⟩ := clear_spec hs
      obtain rfl := Option.some.inj (hrun₁.symm.trans hrun)
      refine ⟨hm, ?_⟩
      rw [hcontents]
      simp [FitsInt64]

/-- **When the dispatch loop ends.**  In every state that can be reached and at every tick value the
    loop ends, whatever its callbacks do, exactly when every timer that is due has a positive
    interval and gets past `now` within `int64`. -/
theorem loop_ends_iff {s : Timers} {now : ℤ} (h : Reaches Sound s) (hnow : 0 ≤ now)
    (hnow' : now < 2 ^ 63) : Ends s now ↔ Advances s now := by
  obtain ⟨hs, hfits⟩ := h.sound
  refine ⟨Ends.advances hnow hs, fun ha => ?_⟩
  exact Good.ends hnow hnow' ⟨hs, hfits, ha.interval, ha.below, ha.above⟩ ha.default

/-- Two timers that the server has not got round to for a while: one was due three times, the other
    six times, and both get past 20. -/
theorem loop_ends_iff_overdue : ∃ s,
    (do let s ← initial; let s ← s.time 0 6 1; s.time 0 3 2) = some s
      ∧ s.queuedTimers.contents = [(0, none), (3, some 2), (6, some 1)] ∧ Ends s 20 := by
  have hrun : ((do let s ← initial; let s ← s.time 0 6 1; s.time 0 3 2) : Option Timers).map
      (fun s => (s.queuedTimers.contents, s.timers))
        = some ([(0, none), (3, some 2), (6, some 1)], [(1, ⟨6, 6⟩), (2, ⟨3, 3⟩)]) := by decide
  obtain ⟨s, hs, heq⟩ := Option.map_eq_some_iff.mp hrun
  obtain ⟨hcontents, htimers⟩ := Prod.mk.inj heq
  obtain ⟨s₀, hinit, hs'⟩ := Option.bind_eq_some_iff.mp hs
  obtain ⟨s₁, hfirst, hsecond⟩ := Option.bind_eq_some_iff.mp hs'
  have hpool₀ : initial.map (fun s => s.timers) = some [] := by decide
  have hpool₁ : (initial.bind fun s => s.time 0 6 1).map (fun s => s.timers)
      = some [(1, ⟨6, 6⟩)] := by decide
  rw [hinit, Option.map_some, Option.some.injEq] at hpool₀
  rw [hinit, Option.bind_some, hfirst, Option.map_some, Option.some.injEq] at hpool₁
  have hreach₁ : Reaches Sound s₁ := @Reaches.step _ _ _ (.time 0 6 1) (.initial hinit)
    (by simp [Op.Allowed, hpool₀]) ⟨trivial, by norm_num [FitsInt64]⟩ hfirst
  have hreach : Reaches Sound s := @Reaches.step _ _ _ (.time 0 3 2) hreach₁
    (by simp [Op.Allowed, hpool₁]) ⟨trivial, by norm_num [FitsInt64]⟩ hsecond
  refine ⟨s, hs, hcontents, (loop_ends_iff hreach (by norm_num) (by norm_num)).mpr ⟨?_, ?_, ?_, ?_⟩⟩
  · simp [htimers]
  · intro e he k hk _
    rw [htimers] at he
    rcases List.mem_pair.mp he with rfl | rfl
    · simp only at hk ⊢
      omega
    · simp only at hk ⊢
      omega
  · intro _
    norm_num
  · simp [hcontents]

/-- **A loop without an end.**  The timer's interval is 0, so it is due again and again. -/
theorem loop_endless : ¬ ∀ s now, Reaches Sound s → 0 ≤ now → now < 2 ^ 63 → Ends s now := by
  intro hall
  obtain ⟨s, hinit, hs⟩ := initial_matches
  have htimers : initial.map (fun s => s.timers) = some [] := by decide
  rw [hinit, Option.map_some, Option.some.injEq] at htimers
  have hop : (Op.time 0 0 1).Allowed s := by simp [Op.Allowed, htimers]
  obtain ⟨s', hrun, hs', -, hpool⟩ := time_spec hs 0 0 hop
  have hreach : Reaches Sound s' :=
    .step (.initial hinit) hop ⟨trivial, by simp [FitsInt64]⟩ hrun
  have hends := hall s' 0 hreach le_rfl (by norm_num)
  have hmem : (1, (⟨0 + 0, 0⟩ : TimerImpl)) ∈ s'.timers := by simp [hpool]
  exact absurd ((hends.advances le_rfl hs').interval _ hmem le_rfl) (lt_irrefl 0)

end Timers

end Nstd
