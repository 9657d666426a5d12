import Mathlib.Tactic.SplitIfs
import Nstd.Core.System
import Nstd.Process.Waiting

/-!
# What `Process::wait` returns

* `Table` — children, and who knows of them.
* `At`, `Inv` — what is known wherever the thread is that waits.
* `fitMove_spec` — a step that is right does what is to be expected.
* `State.remaining`, `Interrupted` — how far an interrupted `wait` is from its return.
* **`wait_expected`** — in runs whose steps are right, `wait` returns what it should, and an interrupt
  makes it return.
* `unlisted_reported` — a run with a step that is not right.
-/

namespace Nstd.ProcessWait

open State

/-! ## Children -/

/-- **Children**: objects have children of their own, and the helper is not one of them. -/
structure Table (child : ℕ → Option Child) (pid : ℕ → ℕ) (exited : ℕ → Bool) (helper : Option ℕ) :
    Prop where
  exited : ∀ p, child p = some .exited → exited p = true
  zero : child 0 = none
  object : ∀ o, pid o ≠ 0 → (child (pid o)).isSome
  distinct : ∀ o o', pid o ≠ 0 → pid o = pid o' → o = o'
  helper : ∀ p, helper = some p → (child p).isSome ∧ ∀ o, pid o ≠ p

namespace Table

variable {child : ℕ → Option Child} {pid : ℕ → ℕ} {exited : ℕ → Bool} {helper : Option ℕ} {o p : ℕ}

lemma ne_zero (h : Table child pid exited helper) (hp : (child p).isSome) : p ≠ 0 := by
  rintro rfl
  rw [h.zero] at hp
  exact Bool.false_ne_true hp

lemma ne_of_none (hp : child p = none) {q : ℕ} (hq : (child q).isSome) : q ≠ p := by
  rintro rfl
  rw [hp] at hq
  exact Bool.false_ne_true hq

/-- The helper is another child. -/
lemma of_helper (h : Table child pid exited helper) {helper' : Option ℕ}
    (hhelper : ∀ q, helper' = some q → helper = some q) : Table child pid exited helper' :=
  ⟨h.exited, h.zero, h.object, h.distinct, fun q hq => h.helper q (hhelper q hq)⟩

/-- A new child, which may be the helper -/
lemma fork (h : Table child pid exited helper) (hp : child p = none) (hp0 : p ≠ 0)
    {helper' : Option ℕ} (hhelper : ∀ q, helper' = some q → q = p ∨ helper = some q) :
    Table (Function.update child p (some .running)) pid exited helper' := by
  have hkept : ∀ q, (child q).isSome → (Function.update child p (some .running) q).isSome := by
    intro q hq
    rwa [Function.update_of_ne (ne_of_none hp hq)]
  have hpid : ∀ o, pid o ≠ p := fun o ho =>
    ne_of_none hp (h.object o (ho ▸ hp0)) ho
  refine ⟨fun q hq => ?_, ?_, fun o ho => hkept _ (h.object o ho), h.distinct, fun q hq => ?_⟩
  · by_cases hqp : q = p
    · rw [hqp, Function.update_self] at hq
      nomatch hq
    · rw [Function.update_of_ne hqp] at hq
      exact h.exited q hq
  · rw [Function.update_of_ne (Ne.symm hp0)]
    exact h.zero
  · rcases hhelper q hq with rfl | hq
    · exact ⟨by rw [Function.update_self]; rfl, hpid⟩
    · exact ⟨hkept q (h.helper q hq).1, (h.helper q hq).2⟩

/-- A process is started. -/
lemma start (h : Table child pid exited helper) (hp : child p = none) (hp0 : p ≠ 0) :
    Table (Function.update child p (some .running)) (Function.update pid o p)
      (Function.update exited p false) helper := by
  have hpid : ∀ o', pid o' ≠ p := fun o' ho' =>
    ne_of_none hp (h.object o' (ho' ▸ hp0)) ho'
  have hfork : Table (Function.update child p (some .running)) pid exited helper :=
    h.fork hp hp0 fun _ hq => Or.inr hq
  refine ⟨fun q hq => ?_, hfork.zero, fun o' ho' => ?_, fun o' o'' ho' heq => ?_, fun q hq => ?_⟩
  · by_cases hqp : q = p
    · rw [hqp, Function.update_self] at hq
      nomatch hq
    · rw [Function.update_of_ne hqp]
      exact hfork.exited q hq
  · by_cases hoo : o' = o
    · rw [hoo, Function.update_self, Function.update_self]
      rfl
    · rw [Function.update_of_ne hoo] at ho' ⊢
      exact hfork.object o' ho'
  · by_cases hoo : o' = o
    · by_cases hoo' : o'' = o
      · rw [hoo, hoo']
      · rw [hoo, Function.update_self, Function.update_of_ne hoo'] at heq
        exact absurd heq.symm (hpid o'')
    · rw [Function.update_of_ne hoo] at ho' heq
      by_cases hoo' : o'' = o
      · rw [hoo', Function.update_self] at heq
        exact absurd heq (hpid o')
      · rw [Function.update_of_ne hoo'] at heq
        exact h.distinct o' o'' ho' heq
  · obtain ⟨hchild, hne⟩ := h.helper q hq
    refine ⟨(hfork.helper q hq).1, fun o' => ?_⟩
    by_cases hoo : o' = o
    · rw [hoo, Function.update_self]
      exact Ne.symm (ne_of_none hp hchild)
    · rw [Function.update_of_ne hoo]
      exact hne o'

/-- A child exits. -/
lemma exit (h : Table child pid exited helper) (hp : child p = some .running) :
    Table (Function.update child p (some .exited)) pid (Function.update exited p true) helper := by
  have hkept : ∀ q, (child q).isSome → (Function.update child p (some .exited) q).isSome := by
    intro q hq
    by_cases hqp : q = p
    · rw [hqp, Function.update_self]
      rfl
    · rwa [Function.update_of_ne hqp]
  have hp0 : p ≠ 0 := h.ne_zero (by rw [hp]; rfl)
  refine ⟨fun q hq => ?_, ?_, fun o ho => hkept _ (h.object o ho), h.distinct,
    fun q hq => ⟨hkept q (h.helper q hq).1, (h.helper q hq).2⟩⟩
  · by_cases hqp : q = p
    · rw [hqp, Function.update_self]
    · rw [Function.update_of_ne hqp] at hq ⊢
      exact h.exited q hq
  · rw [Function.update_of_ne (Ne.symm hp0)]
    exact h.zero

/-- A process is joined. -/
lemma join (h : Table child pid exited helper) (ho : pid o ≠ 0) :
    Table (Function.update child (pid o) none) (Function.update pid o 0) exited helper := by
  have hkept : ∀ q, q ≠ pid o → Function.update child (pid o) none q = child q := fun q hq =>
    Function.update_of_ne hq ..
  refine ⟨fun q hq => ?_, ?_, fun o' ho' => ?_, fun o' o'' ho' heq => ?_, fun q hq => ?_⟩
  · by_cases hqp : q = pid o
    · rw [hqp, Function.update_self] at hq
      nomatch hq
    · rw [hkept q hqp] at hq
      exact h.exited q hq
  · rw [hkept 0 (Ne.symm ho)]
    exact h.zero
  · by_cases hoo : o' = o
    · rw [hoo, Function.update_self] at ho'
      exact absurd rfl ho'
    · rw [Function.update_of_ne hoo] at ho' ⊢
      rw [hkept _ fun heq => hoo (h.distinct o' o ho' heq)]
      exact h.object o' ho'
  · by_cases hoo : o' = o
    · rw [hoo, Function.update_self] at ho'
      exact absurd rfl ho'
    · rw [Function.update_of_ne hoo] at ho' heq
      by_cases hoo' : o'' = o
      · rw [hoo', Function.update_self] at heq
        exact absurd heq ho'
      · rw [Function.update_of_ne hoo'] at heq
        exact h.distinct o' o'' ho' heq
  · obtain ⟨hchild, hne⟩ := h.helper q hq
    refine ⟨?_, fun o' => ?_⟩
    · rw [hkept q (Ne.symm (hne o))]
      exact hchild
    · by_cases hoo : o' = o
      · rw [hoo, Function.update_self]
        exact Ne.symm (h.ne_zero hchild)
      · rw [Function.update_of_ne hoo]
        exact hne o'

/-- The helper goes away. -/
lemma reap (h : Table child pid exited (some p)) :
    Table (Function.update child p none) pid exited none := by
  obtain ⟨hchild, hne⟩ := h.helper p rfl
  refine ⟨fun q hq => ?_, ?_, fun o ho => ?_, h.distinct, fun q hq => absurd hq.symm
    (Option.some_ne_none q)⟩
  · by_cases hqp : q = p
    · rw [hqp, Function.update_self] at hq
      nomatch hq
    · rw [Function.update_of_ne hqp] at hq
      exact h.exited q hq
  · rw [Function.update_of_ne (Ne.symm (h.ne_zero hchild))]
    exact h.zero
  · rw [Function.update_of_ne (hne o)]
    exact h.object o ho

end Table

/-! ## The invariant -/

/-- What is known where the thread is, `waiting` being the list that `wait` was called with -/
def At (s : State) (waiting : Option (List ℕ)) : Location → Prop
  | .idle => waiting = none
  | .entering processes => waiting = some processes
  | .condition => waiting.isSome ∧ s.waitState = 1 ∧ s.signaled ≤ 0 ∧ s.forked = none
  | .reaping => waiting.isSome ∧ 0 < s.signaled ∧ s.forked = none
  | .blocked processes => waiting = some processes ∧ s.waitState = 2 ∧ s.signaled ≠ -1
  | .reported pid => waiting.isSome ∧ s.helper = some pid ∧ s.child pid = some .exited

/-- **The invariant**: an interrupt that is pending is in `signaled`, or will be as soon as the mutex is
    unlocked. -/
structure Inv (s : State) (g : Expected) : Prop where
  pid : g.pid = s.pid
  table : Table s.child s.pid g.exited s.helper
  pending : g.pending = true ↔ s.signaled ≠ 0 ∨ s.forked.isSome
  range : -1 ≤ s.signaled
  forked : s.forked.isSome → s.signaled = 0
  waiter : At s g.waiting s.waiter

lemma helper_signaled {s : State} (hforked : s.forked = none) (hpos : 0 < s.signaled) :
    s.helper = some s.signaled.toNat := by
  rw [State.helper, hforked]
  exact if_pos hpos

lemma helper_none {s : State} (hforked : s.forked = none) (hle : s.signaled ≤ 0) : s.helper = none := by
  rw [State.helper, hforked]
  exact if_neg (Int.not_lt.mpr hle)

lemma helper_forked {s : State} {pid : ℕ} (hforked : s.forked = some pid) : s.helper = some pid := by
  rw [State.helper, hforked]

lemma not_forked {s : State} (h : ¬ s.Locked) : s.forked = none :=
  Option.not_isSome_iff_eq_none.mp fun hforked => h (Or.inl hforked)

/-- What is known does not depend on children other than the helper. -/
lemma At.children {s : State} {waiting : Option (List ℕ)} {location : Location}
    (h : At s waiting location) {child : ℕ → Option Child} {pid : ℕ → ℕ}
    (hchild : ∀ p, s.helper = some p → s.child p = some .exited → child p = some .exited) :
    At { s with child, pid } waiting location := by
  cases location with
  | reported p => exact ⟨h.1, h.2.1, hchild p h.2.1 h.2.2⟩
  | _ => exact h

/-- One event -/
lemma foldlM_next {g g' : Expected} {e : Event} (h : g.next e = some g') :
    [e].foldlM Expected.next g = some g' := by
  rw [List.foldlM_cons, h]
  rfl

namespace Inv

variable {s : State} {g : Expected}

/-- `interrupt`, as far as `vfork` -/
lemma interrupt (h : Inv s g) (hlocked : ¬ s.Locked) {p : ℕ}
    (hfresh : s.signaled = 0 ∧ s.waitState = 2 → s.child p = none ∧ p ≠ 0) :
    Inv (s.interrupt p) { g with pending := true } := by
  have hforked := not_forked hlocked
  have hwaiter := h.waiter
  rw [State.interrupt]
  split_ifs with hsignaled hstate
  · obtain ⟨hchild, hp⟩ := hfresh ⟨hsignaled, hstate⟩
    have hnone := helper_none hforked (Int.le_of_eq hsignaled)
    have htable : Table (Function.update s.child p (some .running)) s.pid g.exited (some p) :=
      h.table.fork hchild hp fun q hq => Or.inl (Option.some_inj.mp hq).symm
    refine ⟨h.pid, htable, iff_of_true rfl (Or.inr rfl), h.range, fun _ => hsignaled, ?_⟩
    change At _ g.waiting s.waiter
    cases hw : s.waiter with
    | condition =>
      rw [hw] at hwaiter
      exact absurd (hstate.symm.trans hwaiter.2.1) (by decide)
    | reaping => exact absurd (Or.inr hw) hlocked
    | reported q =>
      rw [hw] at hwaiter
      exact absurd (hnone.symm.trans hwaiter.2.1) (Option.some_ne_none q).symm
    | _ =>
      rw [hw] at hwaiter
      exact hwaiter
  · have hnone : State.helper { s with signaled := -1 } = none := by
      rw [State.helper]
      simp only [hforked]
      rfl
    have htable : Table s.child s.pid g.exited (State.helper { s with signaled := -1 }) :=
      h.table.of_helper fun q hq => absurd (hnone.symm.trans hq) (Option.some_ne_none q).symm
    refine ⟨h.pid, htable, iff_of_true rfl (Or.inl (Int.neg_ne_zero.mpr Int.one_ne_zero)),
      Int.le_refl _, fun hsome => ?_, ?_⟩
    · change s.forked.isSome at hsome
      rw [hforked] at hsome
      exact absurd hsome Bool.false_ne_true
    · change At _ g.waiting s.waiter
      cases hw : s.waiter with
      | condition =>
        rw [hw] at hwaiter
        exact ⟨hwaiter.1, hwaiter.2.1, Int.neg_nonpos_of_nonneg Int.one_nonneg, hforked⟩
      | reaping => exact absurd (Or.inr hw) hlocked
      | blocked processes =>
        rw [hw] at hwaiter
        exact absurd hwaiter.2.1 hstate
      | reported q =>
        rw [hw] at hwaiter
        have hnone := helper_none hforked (Int.le_of_eq hsignaled)
        exact absurd (hnone.symm.trans hwaiter.2.1) (Option.some_ne_none q).symm
      | _ =>
        rw [hw] at hwaiter
        exact hwaiter
  · exact ⟨h.pid, h.table, iff_of_true rfl (Or.inl hsignaled), h.range, h.forked, hwaiter⟩

/-- The pid of the helper is known. -/
lemma leave (h : Inv s g) {p : ℕ} (hforked : s.forked = some p) :
    Inv { s with signaled := p, forked := none } g := by
  have hsome : s.forked.isSome := by rw [hforked]; rfl
  have hp := h.table.ne_zero (h.table.helper p (helper_forked hforked)).1
  have hpos : (0 : ℤ) < p := by omega
  have hhelper : State.helper { s with signaled := p, forked := none } = s.helper := by
    rw [helper_signaled rfl hpos, helper_forked hforked]
    rfl
  have htable : Table s.child s.pid g.exited
      (State.helper { s with signaled := p, forked := none }) := hhelper ▸ h.table
  have hwaiter := h.waiter
  refine ⟨h.pid, htable, iff_of_true (h.pending.mpr (Or.inr hsome)) (Or.inl (Int.ne_of_gt hpos)),
    Int.le_of_lt (Int.lt_trans (Int.neg_neg_of_pos Int.one_pos) hpos),
    fun hfalse => absurd hfalse Bool.false_ne_true, ?_⟩
  change At _ g.waiting s.waiter
  cases hw : s.waiter with
  | condition =>
    rw [hw] at hwaiter
    exact absurd (hforked.symm.trans hwaiter.2.2.2) (Option.some_ne_none p)
  | reaping =>
    rw [hw] at hwaiter
    exact absurd (hforked.symm.trans hwaiter.2.2) (Option.some_ne_none p)
  | blocked processes =>
    rw [hw] at hwaiter
    refine ⟨hwaiter.1, hwaiter.2.1, fun heq => ?_⟩
    change (p : ℤ) = -1 at heq
    omega
  | reported q =>
    rw [hw] at hwaiter
    exact ⟨hwaiter.1, hhelper.trans hwaiter.2.1, hwaiter.2.2⟩
  | _ =>
    rw [hw] at hwaiter
    exact hwaiter

/-- The thread goes on. -/
lemma moveTo (h : Inv s g) {waitState : ℕ} {waiter : Location} {waiting : Option (List ℕ)}
    (hwaiter : At { s with waitState, waiter } waiting waiter) :
    Inv { s with waitState, waiter } { g with waiting } :=
  ⟨h.pid, h.table, h.pending, h.range, h.forked, hwaiter⟩

/-- An interrupt without a helper is used up. -/
lemma consume (h : Inv s g) (hforked : s.forked = none) {waitState : ℕ} :
    Inv { s with signaled := 0, waitState, waiter := .idle }
      { g with waiting := none, pending := false } := by
  have hnone : State.helper { s with signaled := 0, waitState, waiter := .idle } = none :=
    helper_none hforked (Int.le_refl 0)
  have htable : Table s.child s.pid g.exited
      (State.helper { s with signaled := 0, waitState, waiter := .idle }) :=
    h.table.of_helper fun q hq => absurd (hnone.symm.trans hq) (Option.some_ne_none q).symm
  refine ⟨h.pid, htable, iff_of_false Bool.false_ne_true ?_,
    Int.neg_nonpos_of_nonneg Int.one_nonneg, fun _ => rfl, rfl⟩
  rintro (hne | hsome)
  · exact hne rfl
  · change s.forked.isSome at hsome
    rw [hforked] at hsome
    exact Bool.false_ne_true hsome

/-- An interrupt is used up with its helper. -/
lemma consumeHelper (h : Inv s g) (hforked : s.forked = none) (hpos : 0 < s.signaled) {waitState : ℕ} :
    Inv { s with
      child := Function.update s.child s.signaled.toNat none
      signaled := 0
      waitState
      waiter := .idle }
      { g with waiting := none, pending := false } := by
  have htable := h.table
  rw [helper_signaled hforked hpos] at htable
  have hbase : Inv { s with signaled := 0, waitState, waiter := .idle }
      { g with waiting := none, pending := false } := h.consume hforked
  have hnone : State.helper { s with
      child := Function.update s.child s.signaled.toNat none
      signaled := 0
      waitState
      waiter := .idle } = none := helper_none hforked (Int.le_refl 0)
  exact ⟨h.pid, hnone ▸ htable.reap, hbase.pending, hbase.range, hbase.forked, rfl⟩

/-- The helper has exited and is waited for: the call returns 0. -/
lemma waitSignaled (h : Inv s g) (hforked : s.forked = none) (hpos : 0 < s.signaled)
    (hwaiting : g.waiting.isSome) {s₁ : State} (hrun : s.waitSignaled = some s₁) :
    s.child s.signaled.toNat = some .exited
      ∧ Inv { s₁ with waitState := 0, waiter := .idle }
        { g with waiting := none, pending := false }
      ∧ g.next (.ret none) = some { g with waiting := none, pending := false } := by
  have hchild := (h.table.helper _ (helper_signaled hforked hpos)).1
  have hpending := h.pending.mpr (Or.inl (Int.ne_of_gt hpos))
  rw [State.waitSignaled] at hrun
  cases hstate : s.child s.signaled.toNat with
  | none =>
    rw [hstate] at hchild
    exact absurd hchild Bool.false_ne_true
  | some c =>
    rw [hstate] at hrun
    cases c with
    | running => exact absurd hrun.symm (Option.some_ne_none s₁)
    | exited =>
      obtain rfl := Option.some_inj.mp hrun
      exact ⟨rfl, h.consumeHelper hforked hpos, if_pos ⟨hwaiting, hpending⟩⟩

/-- The first critical section -/
lemma enter (h : Inv s g) (hlocked : ¬ s.Locked) {processes : List ℕ}
    (hw : s.waiter = .entering processes) :
    ∃ g', (s.enter processes).2.foldlM Expected.next g = some g' ∧ Inv (s.enter processes).1 g' := by
  have hforked := not_forked hlocked
  have hwaiting : g.waiting = some processes := by
    have hwaiter := h.waiter
    rwa [hw] at hwaiter
  rw [State.enter]
  split_ifs with hzero hnil hone
  · refine ⟨g, rfl, h.moveTo ⟨?_, rfl, Int.le_of_eq hzero, hforked⟩⟩
    rw [hwaiting]
    rfl
  · refine ⟨g, rfl, h.moveTo ⟨hwaiting, rfl, fun heq => ?_⟩⟩
    exact absurd (hzero.symm.trans heq) (by decide)
  · refine ⟨{ g with waiting := none, pending := false }, ?_, h.consume hforked⟩
    have hret : g.next (.ret none) = some { g with waiting := none, pending := false } :=
      if_pos ⟨by rw [hwaiting]; rfl, h.pending.mpr (Or.inl hzero)⟩
    exact foldlM_next hret
  · have hrange := h.range
    refine ⟨g, rfl, h.moveTo ⟨by rw [hwaiting]; rfl, ?_, hforked⟩⟩
    change 0 < s.signaled
    omega

/-- A child is reported that is in the list, or is the helper. -/
lemma report (h : Inv s g) {processes : List ℕ} (hw : s.waiter = .blocked processes) {p : ℕ}
    (hchild : s.child p = some .exited)
    (hfits : (∃ o ∈ processes, s.pid o = p) ∨ s.helper = some p) :
    ∃ g', (s.report processes p).2.foldlM Expected.next g = some g'
      ∧ Inv (s.report processes p).1 g' := by
  have hwaiter := h.waiter
  rw [hw] at hwaiter
  obtain ⟨hwaiting, -, -⟩ := hwaiter
  have hp0 : p ≠ 0 := h.table.ne_zero (by rw [hchild]; rfl)
  rw [State.report]
  cases hfind : processes.find? fun process => s.pid process = p with
  | some o =>
    have hmem := List.mem_of_find?_eq_some hfind
    have hpid : s.pid o = p := by simpa using List.find?_some hfind
    have hret : g.next (.ret (some o)) = some { g with waiting := none } := by
      refine if_pos ⟨⟨processes, hwaiting, hmem⟩, ?_, ?_⟩
      · rw [h.pid, hpid]
        exact hp0
      · rw [h.pid, hpid]
        exact h.table.exited p hchild
    exact ⟨{ g with waiting := none }, foldlM_next hret, h.moveTo rfl⟩
  | none =>
    have hhelper : s.helper = some p := by
      refine hfits.resolve_left ?_
      rintro ⟨o, ho, hpid⟩
      exact absurd (decide_eq_true hpid) (List.find?_eq_none.mp hfind o ho)
    refine ⟨g, rfl, h.moveTo ⟨by rw [hwaiting]; rfl, hhelper, hchild⟩⟩

end Inv

/-- **A step that is right** -/
theorem fitMove_spec {s s' : State} {g : Expected} (h : Inv s g) {m : Move} {es : List Event}
    (hm : fitMove s m = some (s', es)) :
    ∃ g', es.foldlM Expected.next g = some g' ∧ Inv s' g' := by
  rw [fitMove] at hm
  split_ifs at hm with hright
  obtain ⟨hallowed, hfits⟩ := hright
  have hwaiter := h.waiter
  cases m with
  | start o p =>
    rw [move] at hm
    split_ifs at hm with hguard
    obtain ⟨-, hchild, hp0, -⟩ := hguard
    obtain ⟨rfl, rfl⟩ := Prod.mk.inj (Option.some_inj.mp hm)
    have hne : ∀ q, s.child q = some .exited → q ≠ p := fun q hq =>
      Table.ne_of_none hchild (by rw [hq]; rfl)
    refine ⟨_, rfl, by rw [h.pid], h.table.start hchild hp0, h.pending, h.range, h.forked,
      hwaiter.children fun q _ hq => ?_⟩
    rw [Function.update_of_ne (hne q hq)]
    exact hq
  | exit p =>
    rw [move] at hm
    split_ifs at hm with hchild
    obtain ⟨rfl, rfl⟩ := Prod.mk.inj (Option.some_inj.mp hm)
    refine ⟨_, rfl, h.pid, h.table.exit hchild, h.pending, h.range, h.forked,
      hwaiter.children fun q _ hq => ?_⟩
    by_cases hqp : q = p
    · rw [hqp, Function.update_self]
    · rw [Function.update_of_ne hqp]
      exact hq
  | join o =>
    rw [move] at hm
    split_ifs at hm with hguard
    obtain ⟨rfl, rfl⟩ := Prod.mk.inj (Option.some_inj.mp hm)
    refine ⟨_, rfl, by rw [h.pid], h.table.join hguard.1, h.pending, h.range, h.forked,
      hwaiter.children fun q hhelper hq => ?_⟩
    rw [Function.update_of_ne (Ne.symm ((h.table.helper q hhelper).2 o))]
    exact hq
  | interrupt p =>
    rw [move] at hm
    split_ifs at hm with hguard
    obtain ⟨rfl, rfl⟩ := Prod.mk.inj (Option.some_inj.mp hm)
    exact ⟨_, rfl, h.interrupt hguard.1 hguard.2⟩
  | leave =>
    rw [move] at hm
    split at hm
    · rename_i p hforked
      obtain ⟨rfl, rfl⟩ := Prod.mk.inj (Option.some_inj.mp hm)
      exact ⟨g, rfl, h.leave hforked⟩
    · exact absurd hm.symm (Option.some_ne_none _)
  | call processes =>
    rw [move] at hm
    split_ifs at hm with hidle
    obtain ⟨rfl, rfl⟩ := Prod.mk.inj (Option.some_inj.mp hm)
    rw [hidle] at hwaiter
    have hcall : g.next (.call processes) = some { g with waiting := some processes } :=
      if_pos hwaiter
    exact ⟨{ g with waiting := some processes }, foldlM_next hcall, h.moveTo rfl⟩
  | enter =>
    rw [move] at hm
    split at hm
    · rename_i processes hw
      split_ifs at hm with hlocked
      have hspec := h.enter hlocked hw
      rwa [Option.some_inj.mp hm] at hspec
    · exact absurd hm.symm (Option.some_ne_none _)
  | wake =>
    rw [move] at hm
    split_ifs at hm with hguard
    obtain ⟨hw, hlocked⟩ := hguard
    rw [hw] at hwaiter
    rw [State.wake] at hm
    split_ifs at hm with hzero hneg
    · obtain ⟨rfl, rfl⟩ := Prod.mk.inj (Option.some_inj.mp hm)
      exact ⟨g, rfl, h⟩
    · obtain ⟨rfl, rfl⟩ := Prod.mk.inj (Option.some_inj.mp hm)
      have hret : g.next (.ret none) = some { g with waiting := none, pending := false } :=
        if_pos ⟨hwaiter.1, h.pending.mpr (Or.inl hzero)⟩
      exact ⟨{ g with waiting := none, pending := false }, foldlM_next hret,
        h.consume (not_forked hlocked)⟩
  | reap =>
    rw [move] at hm
    split_ifs at hm with hw
    rw [hw] at hwaiter
    obtain ⟨hwaiting, hpos, hforked⟩ := hwaiter
    obtain ⟨s₁, hrun, hm⟩ := Option.bind_eq_some_iff.mp hm
    obtain ⟨rfl, rfl⟩ := Prod.mk.inj (Option.some_inj.mp hm)
    obtain ⟨-, hinv, hret⟩ := h.waitSignaled hforked hpos hwaiting hrun
    exact ⟨_, foldlM_next hret, hinv⟩
  | waitid p =>
    rw [move] at hm
    split at hm
    · rename_i processes hw
      split_ifs at hm with hchild
      rw [Fits, inUse, hw] at hfits
      have hspec := h.report hw hchild hfits
      rwa [Option.some_inj.mp hm] at hspec
    · exact absurd hm.symm (Option.some_ne_none _)
  | waitidFails => exact absurd hallowed id
  | finish =>
    rw [move] at hm
    split at hm
    · rename_i p hw
      split_ifs at hm with hlocked
      have hforked := not_forked hlocked
      rw [hw] at hwaiter
      obtain ⟨hwaiting, hhelper, hexited⟩ := hwaiter
      have hpos : 0 < s.signaled := by
        refine Int.not_le.mp fun hle => ?_
        exact absurd ((helper_none hforked hle).symm.trans hhelper) (Option.some_ne_none p).symm
      have hp : (p : ℤ) = s.signaled := by
        have heq := Option.some_inj.mp ((helper_signaled hforked hpos).symm.trans hhelper)
        omega
      rw [State.finish, if_pos hp] at hm
      obtain ⟨s₁, hrun, hm⟩ := Option.bind_eq_some_iff.mp hm
      obtain ⟨rfl, rfl⟩ := Prod.mk.inj (Option.some_inj.mp hm)
      obtain ⟨-, hinv, hret⟩ := h.waitSignaled hforked hpos hwaiting hrun
      exact ⟨_, foldlM_next hret, hinv⟩
    · exact absurd hm.symm (Option.some_ne_none _)

/-! ## Interrupts make `wait` return -/

/-- How far the thread is from returning -/
def Location.rank : Location → ℕ
  | .idle => 0
  | .entering _ => 2
  | .condition => 1
  | .reaping => 1
  | .blocked _ => 2
  | .reported _ => 1

/-- The number of steps until an interrupted `wait` returns -/
def State.remaining (s : State) : ℕ :=
  (if s.helper.bind s.child = some .running then 1 else 0) + (if s.forked.isSome then 1 else 0)
    + s.waiter.rank

lemma remaining_le (s : State) : s.remaining ≤ 4 := by
  have hrank : s.waiter.rank ≤ 2 := by
    cases s.waiter <;> simp [Location.rank]
  rw [State.remaining]
  split_ifs <;> omega

/-- A state with an interrupt that is pending, and a `wait` that has not returned -/
structure Interrupted (s : State) (g : Expected) : Prop where
  inv : Inv s g
  pending : g.pending = true
  waiting : g.waiting.isSome

namespace Interrupted

variable {s s' : State} {g : Expected}

lemma not_idle (h : Interrupted s g) : s.waiter ≠ .idle := by
  intro hw
  have hwaiter := h.inv.waiter
  rw [hw] at hwaiter
  have hwaiting := h.waiting
  rw [show g.waiting = none from hwaiter] at hwaiting
  exact Bool.false_ne_true hwaiting

lemma signaled (h : Interrupted s g) (hforked : s.forked = none) : s.signaled ≠ 0 := by
  refine (h.inv.pending.mp h.pending).resolve_right fun hsome => ?_
  rw [hforked] at hsome
  exact Bool.false_ne_true hsome

/-- **One of the steps** can always be taken. -/
theorem enabled (h : Interrupted s g) : ∃ m, Internal s m ∧ (fitMove s m).isSome := by
  have hwaiter := h.inv.waiter
  cases hforked : s.forked with
  | some p =>
    refine ⟨.leave, trivial, ?_⟩
    rw [fitMove, if_pos ⟨trivial, trivial⟩, move, hforked]
    rfl
  | none =>
    have hunlocked : s.waiter ≠ .reaping → ¬ s.Locked := by
      rintro hne (hsome | hw)
      · rw [hforked] at hsome
        exact Bool.false_ne_true hsome
      · exact hne hw
    have hne := h.signaled hforked
    have hrange := h.inv.range
    by_cases hpos : 0 < s.signaled
    · have hhelper := helper_signaled hforked hpos
      have hchild := (h.inv.table.helper _ hhelper).1
      cases hstate : s.child s.signaled.toNat with
      | none =>
        rw [hstate] at hchild
        exact absurd hchild Bool.false_ne_true
      | some c =>
        cases c with
        | running =>
          refine ⟨.exit s.signaled.toNat, hhelper, ?_⟩
          rw [fitMove, if_pos ⟨trivial, trivial⟩, move, if_pos hstate]
          rfl
        | exited =>
          have hreap : s.waitSignaled.isSome := by
            rw [waitSignaled, hstate]
            rfl
          obtain ⟨s₁, hrun⟩ := Option.isSome_iff_exists.mp hreap
          cases hw : s.waiter with
          | idle => exact absurd hw h.not_idle
          | entering processes =>
            refine ⟨.enter, trivial, ?_⟩
            rw [fitMove, if_pos ⟨trivial, trivial⟩, move, hw]
            simp only [if_neg (hunlocked (by rw [hw]; exact Location.noConfusion)),
              Option.isSome_some]
          | condition =>
            rw [hw] at hwaiter
            exact absurd hpos (Int.not_lt.mpr hwaiter.2.2.1)
          | reaping =>
            refine ⟨.reap, trivial, ?_⟩
            rw [fitMove, if_pos ⟨trivial, trivial⟩, move, if_pos hw, State.reap, hrun]
            rfl
          | blocked processes =>
            refine ⟨.waitid s.signaled.toNat, trivial, ?_⟩
            rw [fitMove, if_pos ⟨trivial, Or.inr hhelper⟩, move, hw]
            simp only [if_pos hstate, Option.isSome_some]
          | reported p =>
            rw [hw] at hwaiter
            have hp : (p : ℤ) = s.signaled := by
              have heq := Option.some_inj.mp (hhelper.symm.trans hwaiter.2.1)
              omega
            refine ⟨.finish, trivial, ?_⟩
            rw [fitMove, if_pos ⟨trivial, trivial⟩, move, hw]
            simp only [if_neg (hunlocked (by rw [hw]; exact Location.noConfusion)),
              State.finish, if_pos hp, hrun]
            rfl
    · have hle := Int.not_lt.mp hpos
      have hone : s.signaled = -1 := by omega
      cases hw : s.waiter with
      | idle => exact absurd hw h.not_idle
      | entering processes =>
        refine ⟨.enter, trivial, ?_⟩
        rw [fitMove, if_pos ⟨trivial, trivial⟩, move, hw]
        simp only [if_neg (hunlocked (by rw [hw]; exact Location.noConfusion)),
          Option.isSome_some]
      | condition =>
        refine ⟨.wake, trivial, ?_⟩
        rw [fitMove, if_pos ⟨trivial, trivial⟩, move,
          if_pos ⟨hw, hunlocked (by rw [hw]; exact Location.noConfusion)⟩, State.wake,
          if_neg hne, if_pos (by omega)]
        rfl
      | reaping =>
        rw [hw] at hwaiter
        exact absurd hwaiter.2.1 hpos
      | blocked processes =>
        rw [hw] at hwaiter
        exact absurd hone hwaiter.2.2
      | reported p =>
        rw [hw] at hwaiter
        exact absurd ((helper_none hforked hle).symm.trans hwaiter.2.1)
          (Option.some_ne_none p).symm

/-- Until a `wait` returns, the interrupt is pending. -/
lemma events {es : List Event} (hret : ∀ r, Event.ret r ∉ es) {g g' : Expected}
    (hnext : es.foldlM Expected.next g = some g') (hpending : g.pending = true)
    (hwaiting : g.waiting.isSome) : g'.pending = true ∧ g'.waiting.isSome := by
  induction es generalizing g with
  | nil =>
    obtain rfl := Option.some_inj.mp hnext
    exact ⟨hpending, hwaiting⟩
  | cons e es ih =>
    obtain ⟨g₁, hg₁, hrest⟩ := Option.bind_eq_some_iff.mp hnext
    have hes : ∀ r, Event.ret r ∉ es := fun r hr => hret r (List.mem_cons_of_mem e hr)
    cases e with
    | start o p =>
      obtain rfl := Option.some_inj.mp hg₁
      exact ih hes hrest hpending hwaiting
    | exit p =>
      obtain rfl := Option.some_inj.mp hg₁
      exact ih hes hrest hpending hwaiting
    | join o =>
      obtain rfl := Option.some_inj.mp hg₁
      exact ih hes hrest hpending hwaiting
    | interrupt =>
      obtain rfl := Option.some_inj.mp hg₁
      exact ih hes hrest rfl hwaiting
    | call processes =>
      rw [Expected.next] at hg₁
      split_ifs at hg₁
      obtain rfl := Option.some_inj.mp hg₁
      exact ih hes hrest hpending rfl
    | ret r => exact absurd List.mem_cons_self (hret r)

/-- A step that is not counted -/
lemma remaining_eq {m : Move} (hm : ¬ Internal s m) (heq : s'.remaining = s.remaining) :
    s'.remaining + (if Internal s m then 1 else 0) ≤ s.remaining := by
  rw [if_neg hm]
  exact Nat.le_of_eq heq

/-- A step that may be counted -/
lemma remaining_lt {m : Move} (hlt : s'.remaining < s.remaining) :
    s'.remaining + (if Internal s m then 1 else 0) ≤ s.remaining := by
  split_ifs <;> omega

/-- Children other than the helper do not matter. -/
lemma remaining_children {child : ℕ → Option Child} {pid : ℕ → ℕ}
    (hchild : ∀ p, s.helper = some p → child p = s.child p) :
    State.remaining { s with child, pid } = s.remaining := by
  have hbind : s.helper.bind child = s.helper.bind s.child := by
    cases hhelper : s.helper with
    | none => rfl
    | some p => exact hchild p hhelper
  rw [State.remaining, State.remaining]
  change (if s.helper.bind child = some .running then 1 else 0) + _ + _ = _
  rw [hbind]

/-- An exit, which counts if it is that of the helper -/
lemma remaining_exit {p : ℕ} (hp : s.child p = some .running) :
    State.remaining { s with child := Function.update s.child p (some .exited) }
      + (if s.helper = some p then 1 else 0) ≤ s.remaining := by
  by_cases hhelper : s.helper = some p
  · have hbefore : s.helper.bind s.child = some .running := by rw [hhelper]; exact hp
    have hafter : s.helper.bind (Function.update s.child p (some .exited)) = some .exited := by
      rw [hhelper]
      exact Function.update_self p (some Child.exited) s.child
    rw [if_pos hhelper, State.remaining, State.remaining]
    change (if s.helper.bind (Function.update s.child p (some .exited)) = some .running
      then 1 else 0) + _ + _ + 1 ≤ _
    rw [if_pos hbefore, hafter, if_neg (by decide)]
    change 0 + (if s.forked.isSome then 1 else 0) + s.waiter.rank + 1 ≤ _
    omega
  · rw [if_neg hhelper]
    refine Nat.le_of_eq (remaining_children fun q hq => Function.update_of_ne ?_ ..)
    rintro rfl
    exact hhelper hq

/-- **A step** after which `wait` has not returned -/
theorem step (h : Interrupted s g) {m : Move} {es : List Event}
    (hm : fitMove s m = some (s', es)) (hret : ∀ r, Event.ret r ∉ es) :
    (∃ g', Interrupted s' g')
      ∧ s'.remaining + (if Internal s m then 1 else 0) ≤ s.remaining := by
  obtain ⟨g', hnext, hinv'⟩ := fitMove_spec h.inv hm
  obtain ⟨hpending, hwaiting⟩ := events hret hnext h.pending h.waiting
  refine ⟨⟨g', hinv', hpending, hwaiting⟩, ?_⟩
  have hwaiter := h.inv.waiter
  rw [fitMove] at hm
  split_ifs at hm with hright
  have hnoret : ∀ {s₁ : State} {r : Option ℕ}, s₁.ret r ≠ (s', es) := by
    intro s₁ r heq
    have hes : [Event.ret r] = es := congrArg Prod.snd heq
    exact hret r (hes ▸ List.mem_singleton_self _)
  cases m with
  | start o p =>
    rw [move] at hm
    split_ifs at hm with hguard
    obtain ⟨-, hchild, -, -⟩ := hguard
    obtain ⟨rfl, rfl⟩ := Prod.mk.inj (Option.some_inj.mp hm)
    refine remaining_eq id (remaining_children fun q hq => Function.update_of_ne ?_ ..)
    exact Table.ne_of_none hchild (h.inv.table.helper q hq).1
  | exit p =>
    rw [move] at hm
    split_ifs at hm with hchild
    obtain ⟨rfl, rfl⟩ := Prod.mk.inj (Option.some_inj.mp hm)
    exact remaining_exit hchild
  | join o =>
    rw [move] at hm
    split_ifs at hm with hguard
    obtain ⟨rfl, rfl⟩ := Prod.mk.inj (Option.some_inj.mp hm)
    refine remaining_eq id (remaining_children fun q hq => Function.update_of_ne ?_ ..)
    exact Ne.symm ((h.inv.table.helper q hq).2 o)
  | interrupt p =>
    rw [move] at hm
    split_ifs at hm with hguard
    obtain ⟨rfl, rfl⟩ := Prod.mk.inj (Option.some_inj.mp hm)
    refine remaining_eq id ?_
    rw [State.interrupt, if_neg (h.signaled (not_forked hguard.1))]
  | leave =>
    rw [move] at hm
    split at hm
    · rename_i p hforked
      obtain ⟨rfl, rfl⟩ := Prod.mk.inj (Option.some_inj.mp hm)
      have hp := h.inv.table.ne_zero (h.inv.table.helper p (helper_forked hforked)).1
      have hhelper : State.helper { s with signaled := p, forked := none } = s.helper := by
        rw [helper_signaled rfl (by change (0 : ℤ) < p; omega), helper_forked hforked]
        rfl
      refine remaining_lt ?_
      rw [State.remaining, State.remaining, hhelper, hforked]
      change (if s.helper.bind s.child = some .running then 1 else 0) + 0 + s.waiter.rank
        < _ + 1 + s.waiter.rank
      omega
    · exact absurd hm.symm (Option.some_ne_none _)
  | call processes =>
    rw [move] at hm
    split_ifs at hm with hidle
    exact absurd hidle h.not_idle
  | enter =>
    rw [move] at hm
    split at hm
    · rename_i processes hw
      split_ifs at hm with hlocked
      have henter := Option.some_inj.mp hm
      rw [State.enter, if_neg (h.signaled (not_forked hlocked))] at henter
      split_ifs at henter with hone
      · exact absurd henter hnoret
      · obtain ⟨rfl, rfl⟩ := Prod.mk.inj henter
        refine remaining_lt ?_
        rw [State.remaining, State.remaining, hw]
        exact Nat.le_refl _
    · exact absurd hm.symm (Option.some_ne_none _)
  | wake =>
    rw [move] at hm
    split_ifs at hm with hguard
    obtain ⟨hw, hlocked⟩ := hguard
    rw [State.wake, if_neg (h.signaled (not_forked hlocked))] at hm
    split_ifs at hm with hneg
    exact absurd (Option.some_inj.mp hm) hnoret
  | reap =>
    rw [move] at hm
    split_ifs at hm with hw
    obtain ⟨s₁, hrun, hm⟩ := Option.bind_eq_some_iff.mp hm
    exact absurd (Option.some_inj.mp hm) hnoret
  | waitid p =>
    rw [move] at hm
    split at hm
    · rename_i processes hw
      split_ifs at hm with hchild
      have hreport := Option.some_inj.mp hm
      rw [State.report] at hreport
      split at hreport
      · exact absurd hreport hnoret
      · obtain ⟨rfl, rfl⟩ := Prod.mk.inj hreport
        refine remaining_lt ?_
        rw [State.remaining, State.remaining, hw]
        exact Nat.le_refl _
    · exact absurd hm.symm (Option.some_ne_none _)
  | waitidFails => exact absurd hright.1 id
  | finish =>
    rw [move] at hm
    split at hm
    · rename_i p hw
      split_ifs at hm with hlocked
      rw [State.finish] at hm
      split_ifs at hm
      · obtain ⟨s₁, hrun, hm⟩ := Option.bind_eq_some_iff.mp hm
        exact absurd (Option.some_inj.mp hm) hnoret
      · exact absurd (Option.some_inj.mp hm) hnoret
    · exact absurd hm.symm (Option.some_ne_none _)

/-- **Steps** after which `wait` has not returned -/
theorem steps {ms : List Move} (h : Interrupted s g) {es : List Event}
    (hms : System.exec fitMove s ms = some (s', es)) (hret : ∀ r, Event.ret r ∉ es) :
    (∃ g', Interrupted s' g') ∧ internals s ms + s'.remaining ≤ s.remaining := by
  induction ms generalizing s g es with
  | nil =>
    obtain ⟨rfl, rfl⟩ := Prod.mk.inj (Option.some_inj.mp hms)
    exact ⟨⟨g, h⟩, Nat.le_of_eq (Nat.zero_add _)⟩
  | cons m ms ih =>
    obtain ⟨s₁, es₁, es₂, hm, hrest, rfl⟩ := System.exec_cons hms
    obtain ⟨⟨g₁, h₁⟩, hle₁⟩ := h.step hm fun r hr => hret r (List.mem_append_left es₂ hr)
    obtain ⟨hend, hle₂⟩ := ih h₁ hrest fun r hr => hret r (List.mem_append_right es₁ hr)
    have hinternals : internals s (m :: ms)
        = (if Internal s m then 1 else 0) + internals s₁ ms := by
      rw [internals, hm]
    exact ⟨hend, by omega⟩

end Interrupted

/-! ## Runs -/

/-- Runs whose steps are right -/
def system : System State Event where
  initial s := s = State.empty
  step s es s' := ∃ m, fitMove s m = some (s', es)

/-- The invariant holds at the beginning. -/
lemma empty_inv : Inv State.empty Expected.initial where
  pid := rfl
  table := {
    exited := fun _ hp => absurd hp.symm (Option.some_ne_none _)
    zero := rfl
    object := fun _ ho => absurd rfl ho
    distinct := fun _ _ ho _ => absurd rfl ho
    helper := fun p hp => absurd hp.symm (Option.some_ne_none p) }
  pending := iff_of_false Bool.false_ne_true fun h =>
    h.elim (fun hne => hne rfl) Bool.false_ne_true
  range := Int.neg_nonpos_of_nonneg Int.one_nonneg
  forked := fun _ => rfl
  waiter := rfl

/-- What is expected after more has happened -/
lemma Expected.after_append {trace es : List Event} {g : Expected} (h : Expected.after trace = some g) :
    Expected.after (trace ++ es) = es.foldlM Expected.next g := by
  rw [Expected.after, List.foldlM_append]
  exact congrArg (·.bind (es.foldlM Expected.next)) h

/-- The invariant holds along runs. -/
lemma run_inv {trace : List Event} {s : State} (h : system.Run trace s) :
    ∃ g, Expected.after trace = some g ∧ Inv s g := by
  refine @System.Run.invariant _ _ system (fun trace s => ∃ g, Expected.after trace = some g ∧ Inv s g)
    ?_ ?_ _ _ h
  · rintro s rfl
    exact ⟨_, rfl, empty_inv⟩
  · rintro trace s es s' ⟨g, hg, hinv⟩ ⟨m, hm⟩
    obtain ⟨g', hnext, hinv'⟩ := fitMove_spec hinv hm
    exact ⟨g', (Expected.after_append hg).trans hnext, hinv'⟩

/-- **What `wait` returns**, in runs whose steps are right: a process in the list that has exited, or 0
    for an interrupt that no other call was interrupted by.  While an interrupt is pending, a call
    returns after at most four steps of its own thread, of `interrupt` and of the helper, and one of
    these can always be taken. -/
theorem wait_expected {trace : List Event} {s : State} (h : system.Run trace s) :
    ∃ g, Expected.after trace = some g ∧
      (g.pending = true → g.waiting.isSome → ∀ ms s' es, System.exec fitMove s ms = some (s', es) →
        (∀ r, .ret r ∉ es) →
        internals s ms + s'.remaining ≤ 4 ∧ ∃ m, Internal s' m ∧ (fitMove s' m).isSome) := by
  obtain ⟨g, hg, hinv⟩ := run_inv h
  refine ⟨g, hg, fun hpending hwaiting ms s' es hms hret => ?_⟩
  obtain ⟨⟨g', h'⟩, hle⟩ := Interrupted.steps ⟨hinv, hpending, hwaiting⟩ hms hret
  exact ⟨Nat.le_trans hle (remaining_le s), h'.enabled⟩

/-- A process is started, `wait` is called for it, and is interrupted. -/
def interrupted : List Move := [.start 0 1, .call [0], .enter, .interrupt 2]

/-- `wait_expected` for a call that is interrupted -/
theorem wait_expected_interrupted :
    ∃ s g, system.Run [.start 0 1, .call [0], .interrupt] s
      ∧ Expected.after [.start 0 1, .call [0], .interrupt] = some g
      ∧ g.pending = true ∧ g.waiting = some [0]
      ∧ ∀ ms s' es, System.exec fitMove s ms = some (s', es) → (∀ r, .ret r ∉ es) →
        internals s ms + s'.remaining ≤ 4 ∧ ∃ m, Internal s' m ∧ (fitMove s' m).isSome := by
  have hmoves : (System.exec fitMove State.empty interrupted).map Prod.snd
      = some [.start 0 1, .call [0], .interrupt] := by decide
  obtain ⟨⟨s, trace⟩, hexec, htrace⟩ := Option.map_eq_some_iff.mp hmoves
  obtain rfl : trace = [.start 0 1, .call [0], .interrupt] := htrace
  have hempty : system.Run [] State.empty := .start rfl
  have hstep : ∀ s m s' es, fitMove s m = some (s', es) → system.step s es s' :=
    fun _ m _ _ hm => ⟨m, hm⟩
  have hrun : system.Run [.start 0 1, .call [0], .interrupt] s :=
    System.Run.exec hstep hempty hexec
  obtain ⟨g, hg, hreturns⟩ := wait_expected hrun
  have hexpected : (Expected.after [.start 0 1, .call [0], .interrupt]).map
      (fun g => (g.pending, g.waiting)) = some (true, some [0]) := by decide
  rw [hg] at hexpected
  obtain ⟨hpending, hwaiting⟩ := Prod.mk.inj (Option.some_inj.mp hexpected)
  exact ⟨s, g, hrun, hg, hpending, hwaiting, hreturns hpending (by rw [hwaiting]; rfl)⟩

/-- Two processes are started, `wait` is called for the first, and the second exits. -/
def unlisted : List Move :=
  [.start 0 1, .start 1 2, .call [0], .enter, .exit 2, .waitid 2, .finish]

/-- **A process that is not in the list** makes `wait` return 0, with no interrupt. -/
theorem unlisted_reported :
    ¬ ∀ ms s trace, (∀ m ∈ ms, Allowed m) → System.exec move State.empty ms = some (s, trace) →
      (Expected.after trace).isSome := by
  intro h
  have hmoves : (System.exec move State.empty unlisted).map Prod.snd
      = some [.start 0 1, .start 1 2, .call [0], .exit 2, .ret none] := by decide
  obtain ⟨⟨s, trace⟩, hexec, htrace⟩ := Option.map_eq_some_iff.mp hmoves
  obtain rfl : trace = [.start 0 1, .start 1 2, .call [0], .exit 2, .ret none] := htrace
  have hsome := h unlisted s _ (by decide) hexec
  exact absurd hsome (by decide)

end Nstd.ProcessWait
