/-!
# Calls that can fail

The calls of a parser after each other, as `do` puts them together.

* `Ends` — what holds of the result of a call, or of its error.
* `Ends.bind`, `Ends.mono` — the rules for it.
* `EndsAlike` — the same of calls with a parameter that matters in results and errors only.
-/

namespace Nstd

variable {ε α β : Type}

@[simp] theorem ok_bind (a : α) (f : α → Except ε β) : (Except.ok a >>= f) = f a := rfl

@[simp] theorem error_bind (e : ε) (f : α → Except ε β) :
    ((Except.error e : Except ε α) >>= f) = .error e := rfl

/-- If a call and what is done after it are fine, the call is. -/
theorem exists_of_bind_ok {x : Except ε α} {f : α → Except ε β} {b : β}
    (h : (x >>= f) = .ok b) : ∃ a, x = .ok a ∧ f a = .ok b := by
  cases x with
  | error e => exact absurd h (by simp)
  | ok a => exact ⟨a, rfl, h⟩

theorem bind_ne_error {x : Except ε α} {f : α → Except ε β} {e : ε} (hx : x ≠ .error e)
    (hf : ∀ a, x = .ok a → f a ≠ .error e) : (x >>= f) ≠ .error e := by
  cases x with
  | error d =>
    intro h
    exact hx (congrArg Except.error (Except.error.inj h))
  | ok a => exact hf a rfl

/-! ## How calls end -/

/-- A call ends with a result that is `ok`, or with an error that is `err`. -/
inductive Ends (ok : α → Prop) (err : ε → Prop) : Except ε α → Prop
  | ok {a : α} : ok a → Ends ok err (.ok a)
  | error {e : ε} : err e → Ends ok err (.error e)

variable {ok ok₁ : α → Prop} {ok' : β → Prop} {err : ε → Prop} {x : Except ε α}

/-- What is done after a call -/
theorem Ends.bind {f : α → Except ε β} (hx : Ends ok err x) (hf : ∀ a, ok a → Ends ok' err (f a)) :
    Ends ok' err (x >>= f) := by
  cases hx with
  | ok ha => exact hf _ ha
  | error he => exact .error he

theorem Ends.mono (hx : Ends ok err x) (h : ∀ a, ok a → ok₁ a) : Ends ok₁ err x := by
  cases hx with
  | ok ha => exact .ok (h _ ha)
  | error he => exact .error he

theorem Ends.ok_or_error (hx : Ends ok err x) : (∃ a, x = .ok a ∧ ok a) ∨ ∃ e, x = .error e ∧ err e := by
  cases hx with
  | ok ha => exact Or.inl ⟨_, rfl, ha⟩
  | error he => exact Or.inr ⟨_, rfl, he⟩

theorem Ends.of_ok {a : α} (hx : Ends ok err (.ok a : Except ε α)) : ok a := by
  cases hx with
  | ok ha => exact ha

theorem Ends.of_error {e : ε} (hx : Ends ok err (.error e : Except ε α)) : err e := by
  cases hx with
  | error he => exact he

/-! ## Calls with a parameter -/

section

variable {ρ ι β' : Type} {place : ρ → α → β} {raise : ρ → ι → ε} {err : ι → Prop}

/-- Whatever the parameter `r` is, a call ends with the same result or the same error, apart from how
    `r` stands in it. -/
inductive EndsAlike (place : ρ → α → β) (raise : ρ → ι → ε) (ok : α → Prop) (err : ι → Prop)
    (f : ρ → Except ε β) : Prop
  | ok {a : α} : ok a → (∀ r, f r = .ok (place r a)) → EndsAlike place raise ok err f
  | error {i : ι} : err i → (∀ r, f r = .error (raise r i)) → EndsAlike place raise ok err f

variable {f g : ρ → Except ε β}

theorem EndsAlike.bind {α' : Type} {place' : ρ → α' → β'} {ok' : α' → Prop}
    {h : ρ → β → Except ε β'} (hf : EndsAlike place raise ok err f)
    (hh : ∀ a, ok a → EndsAlike place' raise ok' err fun r => h r (place r a)) :
    EndsAlike place' raise ok' err fun r => f r >>= h r := by
  rcases hf with ⟨ha, hf⟩ | ⟨hi, hf⟩
  · rcases hh _ ha with ⟨hb, hg⟩ | ⟨hi, hg⟩
    · exact .ok hb fun r => by rw [hf, ok_bind, hg]
    · exact .error hi fun r => by rw [hf, ok_bind, hg]
  · exact .error hi fun r => by rw [hf, error_bind]

/-- A choice that does not depend on the parameter, though how it is decided may mention it -/
theorem EndsAlike.ite {c : Prop} {d : ρ → Decidable c} (hf : c → EndsAlike place raise ok err f)
    (hg : ¬ c → EndsAlike place raise ok err g) :
    EndsAlike place raise ok err fun r => @ite _ c (d r) (f r) (g r) := by
  by_cases hc : c
  · simp only [if_pos hc]
    exact hf hc
  · simp only [if_neg hc]
    exact hg hc

/-- A call without the parameter -/
theorem Ends.alike {err' : ε → Prop} (hx : Ends ok err' x)
    (h : ∀ e, err' e → ∃ i, err i ∧ ∀ r, e = raise r i) :
    EndsAlike (fun _ a => a) raise ok err fun _ => x := by
  rcases hx with ha | he
  · exact .ok ha fun _ => rfl
  · obtain ⟨i, hi, heq⟩ := h _ he
    exact .error hi fun r => congrArg _ (heq r)

end

end Nstd
