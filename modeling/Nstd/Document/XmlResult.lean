import Nstd.Document.XmlReading

/-!
# The result of the XML parser

* `Agree` — a call with fewer calls inside it, and one with more.
* **`parse_agree`** — the result does not depend on how many calls are enough.
-/

namespace Nstd.Xml

/-- `x` ran out of calls, or `y` has the same result. -/
def Agree {α : Type} (x y : Except Failure α) : Prop := x = .error .outOfCalls ∨ x = y

lemma Agree.refl {α : Type} (x : Except Failure α) : Agree x x := Or.inr rfl

lemma Agree.bind {α β : Type} {x y : Except Failure α} {f g : α → Except Failure β}
    (h : Agree x y) (hf : ∀ a, Agree (f a) (g a)) : Agree (x >>= f) (y >>= g) := by
  rcases h with rfl | rfl
  · exact Or.inl rfl
  · cases x with
    | error e => exact Or.inr rfl
    | ok a => exact hf a

lemma Agree.ite {α : Type} {c : Prop} [Decidable c] {x y z w : Except Failure α}
    (h : Agree x y) (h' : Agree z w) :
    Agree (if c then x else z) (if c then y else w) := by
  by_cases hc : c
  · rwa [if_pos hc, if_pos hc]
  · rwa [if_neg hc, if_neg hc]

/-- Two calls that return the same thing -/
lemma Agree.ok_unique {α : Type} {f : ℕ → Except Failure α} (hf : ∀ n m, n ≤ m → Agree (f n) (f m))
    {n m : ℕ} {a b : α} (hn : f n = .ok a) (hm : f m = .ok b) : a = b := by
  have key : ∀ {n m : ℕ} {a b : α}, n ≤ m → f n = .ok a → f m = .ok b → a = b := by
    intro n m a b hle hn hm
    rcases hf n m hle with h | h
    · exact absurd (hn.symm.trans h) (by simp)
    · exact Except.ok.inj (hn.symm.trans (h.trans hm))
  rcases Nat.le_total n m with hle | hle
  · exact key hle hn hm
  · exact (key hle hm hn).symm

lemma Agree.ok_mono {α : Type} {f : ℕ → Except Failure α} (hf : ∀ n m, n ≤ m → Agree (f n) (f m))
    {n m : ℕ} {a : α} (hle : n ≤ m) (hn : f n = .ok a) : f m = .ok a := by
  rcases hf n m hle with h | h
  · exact absurd (hn.symm.trans h) (by simp)
  · exact h.symm.trans hn

/-! ## The parser -/

lemma parseAttributes_agree {n m : ℕ} (hle : n ≤ m) :
    ∀ p as, Agree (parseAttributes n p as) (parseAttributes m p as) := by
  induction n generalizing m with
  | zero =>
    intro p as
    exact Or.inl rfl
  | succ n ih =>
    intro p as
    obtain ⟨m, rfl⟩ : ∃ k, m = k + 1 := ⟨m - 1, by omega⟩
    have hrest := ih (Nat.le_of_succ_le_succ hle)
    rw [parseAttributes, parseAttributes]
    refine .bind (.refl _) fun q => .ite (.refl _) (.ite (.refl _) (.ite ?_ (hrest q as)))
    refine .bind (.refl _) fun r => .ite (.refl _) (.bind (.refl _) fun s => .ite (.refl _) ?_)
    exact hrest s _

/-- Elements and their content, with `n` calls inside each other and with `m` -/
structure Settled (n m : ℕ) : Prop where
  element : ∀ p e, Agree (parseElement n p e) (parseElement m p e)
  content : ∀ p c, Agree (parseContent n p c) (parseContent m p c)

lemma settled_all {n m : ℕ} (hle : n ≤ m) : Settled n m := by
  induction n generalizing m with
  | zero => exact ⟨fun p e => Or.inl rfl, fun p c => Or.inl rfl⟩
  | succ n ih =>
    obtain ⟨m, rfl⟩ : ∃ k, m = k + 1 := ⟨m - 1, by omega⟩
    have hle' := Nat.le_of_succ_le_succ hle
    have hrest := ih hle'
    refine ⟨fun p e => ?_, fun p c => ?_⟩
    · rw [parseElement, parseElement]
      refine .bind (.refl _) fun q => .ite (.refl _) ?_
      refine .bind (parseAttributes_agree hle' q _) fun r => .ite ?_ (.refl _)
      exact .bind (hrest.content _ _) fun s => .refl _
    · rw [parseContent, parseContent]
      rcases readToken p with (q | _) | q
      · exact .bind (.refl _) fun r => hrest.content _ _
      · exact Or.inl rfl
      · refine .ite (.refl _) (.ite ?_ ?_)
        · exact .bind (hrest.element q _) fun r => hrest.content _ _
        · exact .bind (.refl _) fun r => hrest.content _ _

lemma skipInstruction_agree (startPos : Position) {n m : ℕ} (hle : n ≤ m) :
    ∀ p, Agree (skipInstruction startPos n p) (skipInstruction startPos m p) := by
  induction n generalizing m with
  | zero =>
    intro p
    exact Or.inl rfl
  | succ n ih =>
    intro p
    obtain ⟨m, rfl⟩ : ∃ k, m = k + 1 := ⟨m - 1, by omega⟩
    rw [skipInstruction, skipInstruction]
    rcases findOneOf id [ch '\r', ch '\n', ch '?'] p.pos.pos with _ | e
    · exact .refl _
    · exact .ite (.refl _) (ih (Nat.le_of_succ_le_succ hle) _)

lemma skipInstructions_agree {n m : ℕ} (hle : n ≤ m) :
    ∀ p, Agree (skipInstructions n p) (skipInstructions m p) := by
  induction n generalizing m with
  | zero =>
    intro p
    exact Or.inl rfl
  | succ n ih =>
    intro p
    obtain ⟨m, rfl⟩ : ∃ k, m = k + 1 := ⟨m - 1, by omega⟩
    have hle' := Nat.le_of_succ_le_succ hle
    rw [skipInstructions, skipInstructions]
    exact .ite (.bind (skipInstruction_agree p.pos hle' _) fun q => ih hle' _) (.refl _)

/-- **The result of the parser** does not depend on the number of calls. -/
theorem parse_agree {n m : ℕ} (hle : n ≤ m) (data : CString) (element : Element) :
    Agree (parse n data element) (parse m data element) := by
  rw [parse, parse]
  refine .bind (skipInstructions_agree hle _) fun p => .bind (.refl _) fun q => .ite (.refl _) ?_
  exact (settled_all hle).element q element

end Nstd.Xml
