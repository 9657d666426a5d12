import Nstd.Core.RefHeap
import Nstd.Core.SpinLock
import Nstd.Core.System

/-!
# The one `ThreadPool`

The first call of `startProc` makes the pool that all calls use.  Several threads may call it at the
same time.  Each step is one access to `_threadPool` or `_threadPoolLock`, or makes a pool.

* `Point`, `next` — where a call is, and its next step.
* `Inv` — the invariant: whoever has the lock and is about to make the pool finds none.
* **`one_pool`** — at most one pool is made, and it is the one that all calls get.
* **`pool_obtained`** — a call waits only while another has the lock, which gives it back.

A pool is made only by a thread that has the lock and has found none, and it is stored before the lock
is given back.
-/

namespace Nstd.PoolLock

open SpinLock

/-- Where a call of `startProc` is: the step that comes next -/
inductive Point
  /-- `threadPool = _threadPool` -/
  | read
  /-- `Atomic::testAndSet(_threadPoolLock) != 0` -/
  | spin
  /-- `threadPool = _threadPool` again -/
  | reread
  /-- `new Private::ThreadPool` -/
  | make
  /-- `Atomic::swap(_threadPool, threadPool)` -/
  | publish (threadPool : ℕ)
  /-- `_threadPoolLock = 0` -/
  | unlock (threadPool : ℕ)
  /-- The call goes on with its pool. -/
  | got (threadPool : ℕ)
  deriving DecidableEq

/-- `_threadPool`, `_threadPoolLock`, how many pools were made, and the calls.  A pool is told by how
    many there were before. -/
structure State where
  threadPool : Option ℕ
  threadPoolLock : Bool
  made : ℕ
  calls : List Point
  deriving DecidableEq

/-- The next step of a call, and the pool that it has got then -/
def next (s : State) : Point → Option (State × Point × List ℕ)
  | .read =>
    match s.threadPool with
    | some threadPool => some (s, .got threadPool, [threadPool])
    | none => some (s, .spin, [])
  | .spin =>
    if s.threadPoolLock then some (s, .spin, [])
    else some ({ s with threadPoolLock := true }, .reread, [])
  | .reread =>
    match s.threadPool with
    | some threadPool => some (s, .unlock threadPool, [])
    | none => some (s, .make, [])
  | .make => some ({ s with made := s.made + 1 }, .publish s.made, [])
  | .publish threadPool => some ({ s with threadPool := some threadPool }, .unlock threadPool, [])
  | .unlock threadPool => some ({ s with threadPoolLock := false }, .got threadPool, [threadPool])
  | .got _ => none

/-- What may happen: `startProc` is called, or a call takes a step. -/
inductive Move
  | call
  | step (i : ℕ)

/-- One step -/
def step (s : State) : Move → Option (State × List ℕ)
  | .call => some ({ s with calls := s.calls ++ [.read] }, [])
  | .step i => do
    let call ← s.calls[i]?
    let (s', call', es) ← next s call
    some ({ s' with calls := s.calls.set i call' }, es)

/-- All that is done with the pool; what is emitted are the pools that calls have got. -/
def system : System State ℕ where
  initial s := s = ⟨none, false, 0, []⟩
  step s es s' := ∃ m, step s m = some (s', es)

/-! ## At most one -/

/-- The call has the lock. -/
def Point.holds : Point → Bool
  | .read => false
  | .spin => false
  | .got _ => false
  | _ => true

/-- A pool was made that is not in `_threadPool` yet. -/
def Point.publishes : Point → Bool
  | .publish _ => true
  | _ => false

/-- What `_threadPool` is while a call is somewhere -/
def At (threadPool : Option ℕ) : Point → Prop
  | .make => threadPool = none
  | .publish _ => threadPool = none
  | .unlock got => threadPool = some got
  | .got got => threadPool = some got
  | _ => True

/-- **The invariant** -/
structure Inv (trace : List ℕ) (s : State) : Prop where
  locked : Locked Point.holds s.threadPoolLock s.calls
  calls : ∀ (i : ℕ) (call : Point), s.calls[i]? = some call → At s.threadPool call
  made_eq : s.made = s.threadPool.toList.length + s.calls.countP Point.publishes
  emitted : ∀ threadPool ∈ trace, s.threadPool = some threadPool

lemma calls_set {threadPool : Option ℕ} {calls : List Point} {i : ℕ} {call' : Point}
    (h : ∀ (j : ℕ) (call : Point), calls[j]? = some call → i ≠ j → At threadPool call)
    (hcall' : At threadPool call') (j : ℕ) (call : Point) (hj : (calls.set i call')[j]? = some call) :
    At threadPool call := by
  by_cases hij : i = j
  · subst hij
    rw [List.getElem?_set_self' ] at hj
    obtain ⟨_, -, rfl⟩ := Option.map_eq_some_iff.mp hj
    exact hcall'
  · rw [List.getElem?_set_ne hij] at hj
    exact h j call hj hij

/-- **A call that leaves `_threadPool` as it is** -/
lemma Inv.same {trace es : List ℕ} {s : State} {i : ℕ} {call call' : Point} {flag : Bool} {made : ℕ}
    (h : Inv trace s) (hcall : s.calls[i]? = some call)
    (hlocked : Locked Point.holds flag (s.calls.set i call')) (hat : At s.threadPool call')
    (hmade : made + call.publishes.toNat = s.made + call'.publishes.toNat)
    (hes : ∀ threadPool ∈ es, s.threadPool = some threadPool) :
    Inv (trace ++ es) ⟨s.threadPool, flag, made, s.calls.set i call'⟩ where
  locked := hlocked
  calls := calls_set (fun j call hj _ => h.calls j call hj) hat
  made_eq := by
    have hcount := countP_set_add hcall Point.publishes call'
    have := h.made_eq
    change made = s.threadPool.toList.length + (s.calls.set i call').countP Point.publishes
    omega
  emitted threadPool hmem := by
    rcases List.mem_append.mp hmem with hmem | hmem
    · exact h.emitted threadPool hmem
    · exact hes threadPool hmem

/-- **The pool is published**, which nobody else is about to do. -/
lemma Inv.publish {trace : List ℕ} {s : State} {i threadPool : ℕ} (h : Inv trace s)
    (hcall : s.calls[i]? = some (.publish threadPool)) :
    Inv trace { s with
      threadPool := some threadPool, calls := s.calls.set i (.unlock threadPool) } where
  locked := h.locked.same hcall rfl
  calls := by
    have hnone := h.calls i _ hcall
    refine calls_set (fun j call hj hne => ?_) rfl
    have hat := h.calls j call hj
    cases call with
    | make => exact absurd (h.locked.alone hcall hj rfl rfl) hne
    | publish other => exact absurd (h.locked.alone hcall hj rfl rfl) hne
    | unlock got => exact absurd (hat.symm.trans hnone) (Option.some_ne_none got)
    | got got => exact absurd (hat.symm.trans hnone) (Option.some_ne_none got)
    | _ => trivial
  made_eq := by
    have hnone := h.calls i _ hcall
    have hcount := countP_set_add hcall Point.publishes (.unlock threadPool)
    have hmade := h.made_eq
    rw [show s.threadPool = none from hnone] at hmade
    simp only [Point.publishes, Bool.toNat_true, Bool.toNat_false, Option.toList_none,
      List.length_nil, Option.toList_some, List.length_singleton] at hcount hmade ⊢
    omega
  emitted got hgot := absurd ((h.calls i _ hcall).symm.trans (h.emitted got hgot)) nofun

/-- **A call** takes a step. -/
theorem Inv.next {trace es : List ℕ} {s s' : State} {i : ℕ} {call call' : Point} (h : Inv trace s)
    (hcall : s.calls[i]? = some call) (hnext : next s call = some (s', call', es)) :
    Inv (trace ++ es) { s' with calls := s.calls.set i call' } := by
  have hat := h.calls i call hcall
  cases call with
  | read =>
    rw [PoolLock.next] at hnext
    cases hpool : s.threadPool with
    | none =>
      rw [hpool] at hnext
      obtain ⟨rfl, rfl, rfl⟩ := by simpa using hnext
      exact h.same hcall (h.locked.same hcall rfl) trivial rfl nofun
    | some threadPool =>
      rw [hpool] at hnext
      obtain ⟨rfl, rfl, rfl⟩ := by simpa using hnext
      refine h.same hcall (h.locked.same hcall rfl) hpool rfl fun got hgot => ?_
      rw [List.mem_singleton.mp hgot, hpool]
  | spin =>
    rw [PoolLock.next] at hnext
    split_ifs at hnext with hflag
    · obtain ⟨rfl, rfl, rfl⟩ := by simpa using hnext
      exact h.same hcall (h.locked.same hcall rfl) trivial rfl nofun
    · obtain ⟨rfl, rfl, rfl⟩ := by simpa using hnext
      have hlocked := h.locked
      rw [Bool.eq_false_iff.mpr hflag] at hlocked
      exact h.same hcall (hlocked.acquire hcall rfl rfl) trivial rfl nofun
  | reread =>
    rw [PoolLock.next] at hnext
    cases hpool : s.threadPool with
    | none =>
      rw [hpool] at hnext
      obtain ⟨rfl, rfl, rfl⟩ := by simpa using hnext
      exact h.same hcall (h.locked.same hcall rfl) hpool rfl nofun
    | some threadPool =>
      rw [hpool] at hnext
      obtain ⟨rfl, rfl, rfl⟩ := by simpa using hnext
      exact h.same hcall (h.locked.same hcall rfl) hpool rfl nofun
  | make =>
    obtain ⟨rfl, rfl, rfl⟩ := by simpa [PoolLock.next] using hnext
    exact h.same hcall (h.locked.same hcall rfl) hat rfl nofun
  | publish threadPool =>
    obtain ⟨rfl, rfl, rfl⟩ := by simpa [PoolLock.next] using hnext
    rw [List.append_nil]
    exact h.publish hcall
  | unlock threadPool =>
    obtain ⟨rfl, rfl, rfl⟩ := by simpa [PoolLock.next] using hnext
    refine h.same hcall (h.locked.release hcall rfl rfl) hat rfl fun got hgot => ?_
    rw [List.mem_singleton.mp hgot]
    exact hat
  | got threadPool => cases hnext

lemma step_eq {s s' : State} {i : ℕ} {es : List ℕ} (h : step s (.step i) = some (s', es)) :
    ∃ call s₁ call', s.calls[i]? = some call ∧ next s call = some (s₁, call', es)
      ∧ s' = { s₁ with calls := s.calls.set i call' } := by
  obtain ⟨call, hcall, h⟩ := Option.bind_eq_some_iff.mp h
  obtain ⟨⟨s₁, call', es₁⟩, hnext, hs'⟩ := Option.bind_eq_some_iff.mp h
  obtain ⟨rfl, rfl⟩ := Prod.mk.inj (Option.some_inj.mp hs')
  exact ⟨call, s₁, call', hcall, hnext, rfl⟩

/-- **One step** -/
theorem Inv.step {trace es : List ℕ} {s s' : State} {m : Move} (h : Inv trace s)
    (hstep : step s m = some (s', es)) : Inv (trace ++ es) s' := by
  cases m with
  | call =>
    obtain ⟨rfl, rfl⟩ := Prod.mk.inj (Option.some_inj.mp hstep)
    rw [List.append_nil]
    refine ⟨h.locked.append rfl, fun i call hcall => ?_, ?_, h.emitted⟩
    · rcases List.mem_append.mp (List.mem_of_getElem? hcall) with hmem | hmem
      · obtain ⟨j, hj⟩ := List.getElem?_of_mem hmem
        exact h.calls j call hj
      · rw [List.mem_singleton.mp hmem]
        trivial
    · rw [List.countP_append]
      exact h.made_eq
  | step i =>
    obtain ⟨call, s₁, call', hcall, hnext, rfl⟩ := step_eq hstep
    exact h.next hcall hnext

lemma inv_of_run {trace : List ℕ} {s : State} (h : system.Run trace s) : Inv trace s := by
  refine h.invariant (fun s hs => ?_) fun trace s es s' hinv hstep => ?_
  · subst hs
    exact ⟨rfl, fun i call hcall => by simp at hcall, rfl, nofun⟩
  · obtain ⟨m, hstep⟩ := hstep
    exact hinv.step hstep

/-- **At most one pool** is made, and all calls get the one that `_threadPool` is, whatever the order of
    their steps. -/
theorem one_pool {trace : List ℕ} {s : State} (h : system.Run trace s) :
    s.made ≤ 1 ∧ ∀ threadPool ∈ trace, s.threadPool = some threadPool := by
  have hinv := inv_of_run h
  refine ⟨?_, hinv.emitted⟩
  rw [hinv.made_eq]
  by_cases hpublish : s.calls.countP Point.publishes = 0
  · rw [hpublish]
    cases s.threadPool <;> simp
  · obtain ⟨call, hmem, hcall⟩ := List.countP_pos_iff.mp (Nat.pos_of_ne_zero hpublish)
    obtain ⟨i, hi⟩ := List.getElem?_of_mem hmem
    have hat := hinv.calls i call hi
    cases call with
    | publish threadPool =>
      have hle : s.calls.countP Point.publishes ≤ s.calls.countP Point.holds :=
        List.countP_mono_left fun call _ hcall => by
          cases call with
          | publish _ => rfl
          | _ => exact absurd hcall Bool.false_ne_true
      rw [hinv.locked] at hle
      rw [show s.threadPool = none from hat]
      exact (Nat.zero_add _).symm ▸ Nat.le_trans hle (Bool.toNat_le _)
    | _ => exact absurd hcall Bool.false_ne_true

/-- The moves of two calls that begin at the same time; one waits until the other has made the pool. -/
def racing : List Move :=
  [.call, .call, .step 0, .step 1, .step 1, .step 0, .step 1, .step 1, .step 1, .step 1, .step 0, .step 0,
    .step 0]

/-- Both of them get it. -/
theorem one_pool_racing : ∃ s, system.Run [0, 0] s ∧ s.made ≤ 1 := by
  have hstep : ∀ s m s' es, step s m = some (s', es) → system.step s es s' :=
    fun _ m _ _ hm => ⟨m, hm⟩
  have hrun := System.Run.exec hstep (.start rfl)
    (show System.exec step ⟨none, false, 0, []⟩ racing = some (_, [0, 0]) from rfl)
  exact ⟨_, hrun, (one_pool hrun).1⟩

/-! ## Waiting for it -/

/-- The steps that are left for a call, at most, if it finds the lock free -/
def Point.rank : Point → ℕ
  | .read => 6
  | .spin => 5
  | .reread => 4
  | .make => 3
  | .publish _ => 2
  | .unlock _ => 1
  | .got _ => 0

/-- A call takes a step, and does not only see that another has the lock. -/
def Progress (s s' : State) : Prop := s' ≠ s ∧ ∃ i es, step s (.step i) = some (s', es)

/-- A step brings a call nearer to its pool, unless it has tested a lock that is taken. -/
lemma next_rank {s s' : State} {call call' : Point} {es : List ℕ}
    (h : next s call = some (s', call', es)) :
    call'.rank < call.rank ∨ s' = s ∧ call' = call ∧ call = .spin ∧ s.threadPoolLock = true := by
  cases call with
  | spin =>
    rw [next] at h
    split_ifs at h with hflag
    · obtain ⟨rfl, rfl, -⟩ := by simpa using h
      exact .inr ⟨rfl, rfl, rfl, hflag⟩
    · obtain ⟨-, rfl, -⟩ := by simpa using h
      exact .inl (by decide)
  | read | reread =>
    rw [next] at h
    cases hpool : s.threadPool <;> rw [hpool] at h <;> obtain ⟨-, rfl, -⟩ := by simpa using h
    all_goals exact .inl (by simp [Point.rank])
  | make | publish | unlock =>
    obtain ⟨-, rfl, -⟩ := by simpa [next] using h
    exact .inl (by simp [Point.rank])
  | got threadPool => cases h

lemma Progress.rank_lt {s s' : State} (h : Progress s s') :
    (s'.calls.map Point.rank).sum < (s.calls.map Point.rank).sum := by
  obtain ⟨hne, i, es, hstep⟩ := h
  obtain ⟨call, s₁, call', hcall, hnext, rfl⟩ := step_eq hstep
  rcases next_rank hnext with hlt | ⟨rfl, rfl, -⟩
  · have hsum := Heap.sum_map_set Point.rank hcall call'
    change ((s.calls.set i call').map Point.rank).sum < _
    omega
  · obtain ⟨hi, rfl⟩ := List.getElem?_eq_some_iff.mp hcall
    exact absurd (by rw [List.set_getElem_self]) hne

/-- A call that has not got the pool can go on, unless it waits for the lock. -/
lemma exists_progress {s : State} {i : ℕ} {call : Point} (hcall : s.calls[i]? = some call)
    (hgot : ∀ threadPool, call ≠ .got threadPool)
    (hspin : call = .spin → s.threadPoolLock = false) : ∃ s', Progress s s' := by
  have hnext : (next s call).isSome := by
    cases call with
    | got threadPool => exact absurd rfl (hgot threadPool)
    | read | reread => rw [next]; cases s.threadPool <;> rfl
    | spin => rw [next, hspin rfl]; rfl
    | _ => rfl
  obtain ⟨⟨s₁, call', es⟩, hnext⟩ := Option.isSome_iff_exists.mp hnext
  have hstep : step s (.step i) = some ({ s₁ with calls := s.calls.set i call' }, es) := by
    rw [step, hcall]
    simp only [Option.bind_eq_bind, Option.bind_some, hnext]
  refine ⟨_, fun heq => ?_, i, es, hstep⟩
  rcases next_rank hnext with hlt | ⟨-, -, rfl, hflag⟩
  · have hsum := Heap.sum_map_set Point.rank hcall call'
    have hcalls : s.calls.set i call' = s.calls := congrArg State.calls heq
    rw [hcalls] at hsum
    omega
  · exact absurd ((hspin rfl).symm.trans hflag) Bool.false_ne_true

/-- **A call gets the pool**: the calls cannot go on for ever without waiting, and when none of them can
    go on all of them have got it. -/
theorem pool_obtained {trace : List ℕ} {s : State} (h : system.Run trace s) :
    (¬ ∃ f : ℕ → State, f 0 = s ∧ ∀ i, Progress (f i) (f (i + 1)))
      ∧ ((∀ s', ¬ Progress s s') → ∀ call ∈ s.calls,
        ∃ threadPool, call = .got threadPool ∧ s.threadPool = some threadPool) := by
  have hinv := inv_of_run h
  constructor
  · rintro ⟨f, -, hf⟩
    have hlt : ∀ s s', True → Progress s s' →
        True ∧ (s'.calls.map Point.rank).sum < (s.calls.map Point.rank).sum :=
      fun s s' _ hstep => ⟨trivial, hstep.rank_lt⟩
    exact not_endless (fun s : State => (s.calls.map Point.rank).sum) hlt trivial hf
  · intro hrest call hmem
    obtain ⟨i, hcall⟩ := List.getElem?_of_mem hmem
    by_contra hnot
    have hgot : ∀ threadPool, call ≠ .got threadPool := by
      rintro threadPool rfl
      exact hnot ⟨threadPool, rfl, hinv.calls i _ hcall⟩
    cases hflag : s.threadPoolLock with
    | false =>
      obtain ⟨s', hs'⟩ := exists_progress hcall hgot fun _ => hflag
      exact hrest s' hs'
    | true =>
      -- whoever has the lock can go on
      have hlocked := hinv.locked
      rw [hflag] at hlocked
      obtain ⟨j, holder, hj, hholds⟩ := hlocked.holder
      have hgot' : ∀ threadPool, holder ≠ .got threadPool := by
        rintro threadPool rfl
        exact Bool.false_ne_true hholds
      have hspin : holder = .spin → s.threadPoolLock = false := by
        rintro rfl
        exact absurd hholds Bool.false_ne_true
      obtain ⟨s', hs'⟩ := exists_progress hj hgot' hspin
      exact hrest s' hs'

/-- One call has the lock, and another waits for it. -/
theorem pool_obtained_racing : ∃ s, system.Run [] s ∧ s.threadPoolLock = true
    ∧ ¬ ∃ f : ℕ → State, f 0 = s ∧ ∀ i, Progress (f i) (f (i + 1)) := by
  have hstep : ∀ s m s' es, step s m = some (s', es) → system.step s es s' :=
    fun _ m _ _ hm => ⟨m, hm⟩
  have hrun := System.Run.exec hstep (.start rfl)
    (show System.exec step ⟨none, false, 0, []⟩ (racing.take 6) = some (_, []) from rfl)
  exact ⟨_, hrun, rfl, (pool_obtained hrun).1⟩

end Nstd.PoolLock
