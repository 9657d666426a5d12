import Mathlib.Algebra.Ring.Int.Defs
import Mathlib.Algebra.Ring.Nat
import Mathlib.Tactic.SplitIfs

/-!
# Conversions between integer types

* `IntegerType`, `convert` — types of integers, and what conversion to one makes of a number.
* `Fits`, `modulus` — a type has a number; conversion keeps numbers modulo something.
* `convert_congr`, `eq_of_emod_eq` — conversion depends on the number modulo that only, and a type has one
  number for each.
* `Equals` — a comparison that converts its right operand to the type of the left one.
* **`Agree.equals_symm`**, **`Agree.equals_trans`** — the operands for which this is an equivalence.
-/

namespace Nstd

/-- Types of integers: truth values, and those with a number of each residue, around zero or from zero
    on -/
inductive IntegerType
  | bool
  | signed (m : ℕ)
  | unsigned (m : ℕ)

namespace IntegerType

/-- What is left of a number -/
def convert : IntegerType → ℤ → ℤ
  | bool, n => if n = 0 then 0 else 1
  | signed m, n => n.bmod m
  | unsigned m, n => n % m

/-- The type has the number. -/
def Fits (t : IntegerType) (n : ℤ) : Prop := t.convert n = n

instance (t : IntegerType) (n : ℤ) : Decidable (t.Fits n) := inferInstanceAs (Decidable (_ = _))

/-- What conversion counts modulo -/
def modulus : IntegerType → Option ℕ
  | bool => none
  | signed m => some m
  | unsigned m => some m

variable {t t' : IntegerType} {m : ℕ} {n n' : ℤ}

lemma convert_emod (h : t.modulus = some m) (n : ℤ) : t.convert n % m = n % m := by
  cases t with
  | bool => exact nomatch h
  | signed m =>
    obtain rfl := Option.some.inj h
    exact Int.bmod_emod
  | unsigned m =>
    obtain rfl := Option.some.inj h
    exact Int.emod_emod n m

/-- Conversion depends on the number modulo `m` only. -/
lemma convert_congr (h : t.modulus = some m) (hn : n % m = n' % m) : t.convert n = t.convert n' := by
  cases t with
  | bool => exact nomatch h
  | signed m =>
    obtain rfl := Option.some.inj h
    rw [convert, convert, ← Int.emod_bmod, hn, Int.emod_bmod]
  | unsigned m =>
    obtain rfl := Option.some.inj h
    exact hn

/-- A type has one number for each residue. -/
lemma eq_of_emod_eq (h : t.modulus = some m) (hfits : t.Fits n) (hfits' : t.Fits n')
    (hn : n % m = n' % m) : n = n' :=
  hfits.symm.trans ((convert_congr h hn).trans hfits')

/-! ## Comparing numbers -/

/-- A number of a type -/
structure Number where
  type : IntegerType
  n : ℤ
  fits : type.Fits n

/-- The right operand is converted to the type of the left one. -/
def Number.Equals (x y : Number) : Prop := x.n = x.type.convert y.n

/-- Each of the types has both numbers, or they count modulo the same. -/
def Number.Agree (x y : Number) : Prop :=
  (x.type.Fits y.n ∧ y.type.Fits x.n) ∨ ∃ m, x.type.modulus = some m ∧ y.type.modulus = some m

lemma Number.Equals.refl (x : Number) : x.Equals x := x.fits.symm

/-- Numbers that agree are equal if they are the same, modulo what both types count modulo. -/
lemma Number.Agree.cases {x y : Number} (h : x.Agree y) (hxy : x.Equals y) :
    x.n = y.n ∨ ∃ m : ℕ, x.type.modulus = some m ∧ y.type.modulus = some m ∧ x.n % m = y.n % m := by
  rcases h with ⟨hfits, -⟩ | ⟨m, hx, hy⟩
  · exact Or.inl (hxy.trans hfits)
  · exact Or.inr ⟨m, hx, hy, (congrArg (· % (m : ℤ)) hxy).trans (convert_emod hx y.n)⟩

lemma Number.Equals.of_emod {x y : Number} {m : ℕ} (hx : x.type.modulus = some m)
    (h : x.n % m = y.n % m) : x.Equals y :=
  x.fits.symm.trans (convert_congr hx h)

/-- **Symmetry** -/
theorem Number.Agree.equals_symm {x y : Number} (h : x.Agree y) (hxy : x.Equals y) : y.Equals x := by
  rcases h.cases hxy with heq | ⟨m, hx, hy, hmod⟩
  · rw [Number.Equals, heq]
    exact y.fits.symm
  · exact Number.Equals.of_emod hy hmod.symm

/-- **Transitivity** -/
theorem Number.Agree.equals_trans {x y z : Number} (hx : x.Agree y) (hy : y.Agree z) (h : x.Agree z)
    (hxy : x.Equals y) (hyz : y.Equals z) : x.Equals z := by
  -- the outer two are the same number, or the same modulo what one of them counts modulo
  have hcases : x.n = z.n ∨ ∃ m : ℕ, (x.type.modulus = some m ∨ z.type.modulus = some m) ∧
      x.n % m = z.n % m := by
    rcases hx.cases hxy with heq | ⟨m, hxm, hym, hmod⟩
    · rcases hy.cases hyz with heq' | ⟨m', -, hzm, hmod'⟩
      · exact Or.inl (heq.trans heq')
      · exact Or.inr ⟨m', Or.inr hzm, heq ▸ hmod'⟩
    · rcases hy.cases hyz with heq' | ⟨m', hym', -, hmod'⟩
      · exact Or.inr ⟨m, Or.inl hxm, heq' ▸ hmod⟩
      · obtain rfl := Option.some.inj (hym.symm.trans hym')
        exact Or.inr ⟨m, Or.inl hxm, hmod.trans hmod'⟩
  rcases h with ⟨hfits, hfits'⟩ | ⟨k, hxk, hzk⟩
  · -- both types have both numbers, so that they are the same
    have heq : x.n = z.n := by
      rcases hcases with heq | ⟨m, hxm | hzm, hmod⟩
      · exact heq
      · exact eq_of_emod_eq hxm x.fits hfits hmod
      · exact eq_of_emod_eq hzm hfits' z.fits hmod
    exact heq.trans hfits.symm
  · rcases hcases with heq | ⟨m, hm, hmod⟩
    · exact Number.Equals.of_emod hxk (congrArg (· % (k : ℤ)) heq)
    · obtain rfl : k = m := by
        rcases hm with hxm | hzm
        · exact Option.some.inj (hxk.symm.trans hxm)
        · exact Option.some.inj (hzk.symm.trans hzm)
      exact Number.Equals.of_emod hxk hmod

end IntegerType

end Nstd
