/-!
# Systems that take step after step

* `System` — the states a run may begin in, and what a step does and emits.
* `System.Run` — a run, by what was emitted and where it ended.
* **`System.Run.invariant`** — what every step preserves holds in every state reached.
* **`System.Run.simulation`** — a run of one system is a run of another with the same emissions.
* `exists_foldlM` — steps that succeed and preserve something may be taken one after another.
* `not_endless` — steps that lessen a measure cannot go on for ever.
* `System.exec` — several moves after each other, where what a move does is computed; `exec_cons`
  takes the first from the others.
* `System.Run.exec`, `System.Run.foldlM` — moves that can happen prolong a run.
-/

namespace Nstd

/-- **Steps that succeed** and preserve something may be taken one after another. -/
theorem exists_foldlM {S M : Type} {step : S → M → Option S} {inv : S → Prop}
    (hstep : ∀ s m, inv s → ∃ s', step s m = some s' ∧ inv s') (ms : List M) {s : S}
    (hs : inv s) : ∃ s', ms.foldlM step s = some s' ∧ inv s' := by
  induction ms generalizing s with
  | nil => exact ⟨s, rfl, hs⟩
  | cons m ms ih =>
    obtain ⟨s₁, hm, hs₁⟩ := hstep s m hs
    obtain ⟨s', hrest, hs'⟩ := ih hs₁
    exact ⟨s', by rw [List.foldlM_cons, hm]; exact hrest, hs'⟩

/-- **Steps that lessen a measure** cannot go on for ever. -/
theorem not_endless {S : Type} {step : S → S → Prop} {inv : S → Prop} (μ : S → Nat)
    (hstep : ∀ s s', inv s → step s s' → inv s' ∧ μ s' < μ s) {f : Nat → S} (h₀ : inv (f 0)) :
    ¬ ∀ i, step (f i) (f (i + 1)) := by
  intro hf
  have hinv : ∀ i, inv (f i) := by
    intro i
    induction i with
    | zero => exact h₀
    | succ i ih => exact (hstep _ _ ih (hf i)).1
  have hle : ∀ i, μ (f i) + i ≤ μ (f 0) := by
    intro i
    induction i with
    | zero => exact Nat.le_refl _
    | succ i ih =>
      have hlt := (hstep _ _ (hinv i) (hf i)).2
      omega
  have := hle (μ (f 0) + 1)
  omega

/-- A system with states `S` whose steps emit events of `E` -/
structure System (S E : Type) where
  initial : S → Prop
  step : S → List E → S → Prop

namespace System

variable {S G E M : Type}

/-- A run has emitted `trace` and is in a certain state. -/
inductive Run (system : System S E) : List E → S → Prop
  | start {s : S} : system.initial s → Run system [] s
  | next {trace es : List E} {s s' : S} : Run system trace s → system.step s es s' →
      Run system (trace ++ es) s'

/-- **What steps preserve** holds along runs. -/
theorem Run.invariant {system : System S E} {inv : List E → S → Prop}
    (hinit : ∀ s, system.initial s → inv [] s)
    (hstep : ∀ trace s es s', inv trace s → system.step s es s' → inv (trace ++ es) s')
    {trace : List E} {s : S} (h : system.Run trace s) : inv trace s := by
  induction h with
  | start hs => exact hinit _ hs
  | next _ hs ih => exact hstep _ _ _ _ ih hs

/-- **A simulation** takes runs to runs. -/
theorem Run.simulation {concrete : System S E} {abstract : System G E} {refines : S → G → Prop}
    (hinit : ∀ s, concrete.initial s → ∃ g, abstract.initial g ∧ refines s g)
    (hstep : ∀ s g es s', refines s g → concrete.step s es s' →
      ∃ g', abstract.step g es g' ∧ refines s' g')
    {trace : List E} {s : S} (h : concrete.Run trace s) :
    ∃ g, abstract.Run trace g ∧ refines s g := by
  induction h with
  | start hs =>
    obtain ⟨g, hg, hrefines⟩ := hinit _ hs
    exact ⟨g, .start hg, hrefines⟩
  | next _ hs ih =>
    obtain ⟨g, hrun, hrefines⟩ := ih
    obtain ⟨g', hg', hrefines'⟩ := hstep _ _ _ _ hrefines hs
    exact ⟨g', .next hrun hg', hrefines'⟩

/-- Several moves after each other; `none` if one of them cannot happen -/
def exec (step : S → M → Option (S × List E)) (s : S) : List M → Option (S × List E)
  | [] => some (s, [])
  | m :: ms => do
    let (s, es) ← step s m
    let (s, es') ← exec step s ms
    some (s, es ++ es')

/-- **The first of several moves**, and the others -/
theorem exec_cons {step : S → M → Option (S × List E)} {s s' : S} {m : M} {ms : List M}
    {es : List E} (h : exec step s (m :: ms) = some (s', es)) :
    ∃ s₁ es₁ es₂, step s m = some (s₁, es₁) ∧ exec step s₁ ms = some (s', es₂) ∧
      es = es₁ ++ es₂ := by
  rw [exec] at h
  obtain ⟨⟨s₁, es₁⟩, hm, h⟩ := Option.bind_eq_some_iff.mp h
  obtain ⟨⟨s₂, es₂⟩, hrest, h⟩ := Option.bind_eq_some_iff.mp h
  obtain ⟨rfl, rfl⟩ := Prod.mk.inj (Option.some_inj.mp h)
  exact ⟨s₁, es₁, es₂, hm, hrest, rfl⟩

/-- Moves that can happen prolong a run. -/
theorem Run.exec {system : System S E} {step : S → M → Option (S × List E)}
    (hstep : ∀ s m s' es, step s m = some (s', es) → system.step s es s') {ms : List M} :
    ∀ {trace es : List E} {s s' : S}, system.Run trace s → exec step s ms = some (s', es) →
      system.Run (trace ++ es) s' := by
  induction ms with
  | nil =>
    intro trace es s s' hrun h
    obtain ⟨rfl, rfl⟩ := Prod.mk.inj (Option.some_inj.mp h)
    rwa [List.append_nil]
  | cons m ms ih =>
    intro trace es s s' hrun h
    obtain ⟨s₁, es₁, es₂, hm, hrest, rfl⟩ := exec_cons h
    rw [← List.append_assoc]
    exact ih (.next hrun (hstep _ _ _ _ hm)) hrest

/-- Moves that can happen prolong a run that emits them. -/
theorem Run.foldlM {system : System S M} {step : S → M → Option S} {ms : List M}
    (hstep : ∀ m ∈ ms, ∀ s s', step s m = some s' → system.step s [m] s') :
    ∀ {trace : List M} {s s' : S}, system.Run trace s → ms.foldlM step s = some s' →
      system.Run (trace ++ ms) s' := by
  induction ms with
  | nil =>
    intro trace s s' hrun h
    obtain rfl := Option.some_inj.mp h
    rwa [List.append_nil]
  | cons m ms ih =>
    intro trace s s' hrun h
    obtain ⟨s₁, hm, hrest⟩ := Option.bind_eq_some_iff.mp h
    have hnext := hrun.next (hstep m List.mem_cons_self s s₁ hm)
    rw [List.append_cons]
    exact ih (fun m' hm' => hstep m' (List.mem_cons_of_mem m hm')) hnext hrest

end System

end Nstd
