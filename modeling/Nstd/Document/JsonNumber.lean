import Mathlib.Algebra.Ring.Nat
import Mathlib.Data.List.TakeWhile
import Nstd.Document.JsonGrammar

/-!
# Integers in JSON texts

* `intVariant` — the value of an integer: `int` if it fits, `int64` otherwise.
* `scalar_digits`, `scalar_minus` — the parser reads digits, with or without a minus sign, as the
  integer that they stand for, as long as it is one of 64 bits.
* `scalar_intText` — so it reads what `printf` writes.
-/

namespace Nstd.Json

/-- The value of an integer -/
def intVariant {D : Type} (n : Int) : Variant D :=
  if - 2 ^ 31 ≤ n ∧ n < 2 ^ 31 then .int (Int32.ofInt n) else .int64 (Int64.ofInt n)

lemma intVariant_int {D : Type} (n : Int32) : intVariant (D := D) n.toInt = .int n := by
  have h₁ := n.le_toInt
  have h₂ := n.toInt_lt
  rw [intVariant, if_pos ⟨h₁, h₂⟩, Int32.ofInt_toInt]

lemma intVariant_int64 {D : Type} {n : Int64} (hn : n.toInt < - 2 ^ 31 ∨ 2 ^ 31 ≤ n.toInt) :
    intVariant (D := D) n.toInt = .int64 n := by
  rw [intVariant, if_neg (by omega), Int64.ofInt_toInt]

variable {D : Type} [DoubleText D]

lemma toInt32_toInt64_iff {n : Int} (hlow : - 2 ^ 63 ≤ n) (hhigh : n < 2 ^ 63) :
    (Int64.ofInt n).toInt32.toInt64 = Int64.ofInt n ↔ - 2 ^ 31 ≤ n ∧ n < 2 ^ 31 := by
  rw [Int64.toInt32_ofInt]
  constructor
  · intro h
    have hn : (Int64.ofInt n).toInt = n := Int64.toInt_ofInt_of_le hlow hhigh
    rw [← h, Int32.toInt_toInt64] at hn
    have h₁ := (Int32.ofInt n).le_toInt
    have h₂ := (Int32.ofInt n).toInt_lt
    omega
  · rintro ⟨h₁, h₂⟩
    exact Int32.toInt64_ofInt (show -2 ^ 31 ≤ n by omega) (show n ≤ 2 ^ 31 - 1 by omega)

/-- What `readToken` makes of a number whose text is that of an integer of 64 bits -/
lemma numberValue_eq {s : List UInt8} {n : Int} (hs : toInt64 s = Int64.ofInt n)
    (hlow : - 2 ^ 63 ≤ n) (hhigh : n < 2 ^ 63) :
    (numberValue s false : Variant D) = intVariant n := by
  have hiff := toInt32_toInt64_iff hlow hhigh
  rw [numberValue, intVariant]
  simp only [Bool.false_eq_true, if_false, hs, Int64.toInt32_ofInt] at hiff ⊢
  by_cases h : - 2 ^ 31 ≤ n ∧ n < 2 ^ 31
  · rw [if_pos (hiff.mpr h), if_pos h]
  · rw [if_neg fun h' => h (hiff.mp h'), if_neg h]

lemma isDigit_plain : ∀ c, isDigit c → isSpace c = false ∧ c ≠ ch '-' ∧ c ≠ ch '+' ∧ c ≠ ch '.' ∧
    isNumberByte c ∧ startsNumber c :=
  forall_byte (by decide +kernel)

lemma toInt64_digits {s : List UInt8} (hs : ∀ c ∈ s, isDigit c) (hhigh : digitsValue s < 2 ^ 63) :
    toInt64 s = Int64.ofInt (digitsValue s) := by
  have hspace : s.dropWhile isSpace = s := by
    cases s with
    | nil => rfl
    | cons c s => simp [(isDigit_plain c (hs c List.mem_cons_self)).1]
  have hsign : ∀ c ∈ s.head?, c ≠ ch '-' ∧ c ≠ ch '+' := fun c hc =>
    have h := isDigit_plain c (hs c (List.mem_of_head? hc))
    ⟨h.2.1, h.2.2.1⟩
  have hminus : s.head? ≠ some (ch '-') := fun h => (hsign _ h).1 rfl
  have hplus : s.head? ≠ some (ch '+') := fun h => (hsign _ h).2 rfl
  have hall : s.takeWhile isDigit = s := List.takeWhile_eq_self_iff.mpr hs
  rw [toInt64, hspace, if_neg hminus, if_neg hplus, hall]
  congr 1
  omega

lemma toInt64_minus {s : List UInt8} (hs : ∀ c ∈ s, isDigit c) (hhigh : digitsValue s ≤ 2 ^ 63) :
    toInt64 (ch '-' :: s) = Int64.ofInt (- digitsValue s) := by
  have hspace : (ch '-' :: s).dropWhile isSpace = ch '-' :: s :=
    List.dropWhile_cons_of_neg (by decide)
  have hall : s.takeWhile isDigit = s := List.takeWhile_eq_self_iff.mpr hs
  rw [toInt64, hspace, List.head?_cons, if_pos rfl, List.tail_cons, hall]
  congr 1
  omega

/-- Digits are a number. -/
lemma scalar_digits {s : List UInt8} (hne : s ≠ []) (hs : ∀ c ∈ s, isDigit c)
    (hhigh : digitsValue s < 2 ^ 63) : Scalar s (ch '#') (intVariant (D := D) (digitsValue s)) := by
  obtain ⟨d, s', rfl⟩ := List.exists_cons_of_ne_nil hne
  have hpoint : ch '.' ∉ d :: s' := fun h => (isDigit_plain _ (hs _ h)).2.2.2.1 rfl
  have hd := isDigit_plain d (hs d List.mem_cons_self)
  rw [← numberValue_eq (toInt64_digits hs hhigh) (by omega) (by exact_mod_cast hhigh),
    ← decide_eq_false hpoint]
  exact .number ⟨d, rfl, hd.2.2.2.2.2⟩ fun c hc => (isDigit_plain c (hs c hc)).2.2.2.2.1

/-- A minus sign and digits are a number. -/
lemma scalar_minus {s : List UInt8} (hs : ∀ c ∈ s, isDigit c) (hhigh : digitsValue s ≤ 2 ^ 63) :
    Scalar (ch '-' :: s) (ch '#') (intVariant (D := D) (- digitsValue s)) := by
  have hminus : ch '-' ≠ ch '.' := by decide
  have hpoint : ch '.' ∉ ch '-' :: s := by
    intro h
    rcases List.mem_cons.mp h with h | h
    · exact hminus h.symm
    · exact (isDigit_plain _ (hs _ h)).2.2.2.1 rfl
  rw [← numberValue_eq (toInt64_minus hs hhigh) (by omega) (by omega), ← decide_eq_false hpoint]
  refine .number ⟨ch '-', rfl, by decide⟩ fun c hc => ?_
  rcases List.mem_cons.mp hc with rfl | hc
  · decide
  · exact (isDigit_plain c (hs c hc)).2.2.2.2.1

/-! ## What `printf` writes -/

lemma toNat_ch {c : Char} (hc : c.isDigit) : (ch c).toNat = c.toNat := by
  have h := (Char.isDigit_iff_toNat.mp hc).2
  have hnine : '9'.toNat = 57 := rfl
  rw [ch, UInt8.toNat_ofNat', Nat.mod_eq_of_lt (by omega)]

lemma isDigit_ch {c : Char} (hc : c.isDigit) : isDigit (ch c) := by
  obtain ⟨h₁, h₂⟩ := Char.isDigit_iff_toNat.mp hc
  rw [← toNat_ch hc] at h₁ h₂
  simpa [isDigit] using ⟨UInt8.le_iff_toNat_le.mpr h₁, UInt8.le_iff_toNat_le.mpr h₂⟩

lemma isDigit_toDigits {n : ℕ} {c : Char} (hc : c ∈ Nat.toDigits 10 n) : c.isDigit :=
  Nat.isDigit_of_mem_toDigits (by decide) (by decide) hc

lemma natText_isDigit (n : ℕ) : ∀ c ∈ natText n, isDigit c := by
  intro c hc
  obtain ⟨d, hd, rfl⟩ := List.mem_map.mp hc
  exact isDigit_ch (isDigit_toDigits hd)

lemma natText_ne_nil (n : ℕ) : natText n ≠ [] := by
  simp [natText]

lemma digitsValue_natText (n : ℕ) : digitsValue (natText n) = n := by
  have hfold := Nat.ofDigitChars_ten_toDigits (n := n)
  rw [Nat.ofDigitChars_eq_foldl] at hfold
  rw [digitsValue, natText, List.foldl_map]
  refine (List.foldl_ext _ _ _ fun k c hc => ?_).trans hfold
  rw [toNat_ch (isDigit_toDigits hc)]
  rfl

/-- **The parser reads** what `printf` writes for an integer. -/
theorem scalar_intText {n : Int} (hlow : - 2 ^ 63 ≤ n) (hhigh : n < 2 ^ 63) :
    Scalar (intText n) (ch '#') (intVariant (D := D) n) := by
  have hvalue := digitsValue_natText n.natAbs
  rw [intText]
  by_cases hneg : n < 0
  · have hscalar : Scalar (ch '-' :: natText n.natAbs) (ch '#')
        (intVariant (D := D) (- digitsValue (natText n.natAbs))) :=
      scalar_minus (natText_isDigit _) (by omega)
    rw [if_pos hneg]
    rwa [hvalue, show - (n.natAbs : Int) = n by omega] at hscalar
  · have hscalar : Scalar (natText n.natAbs) (ch '#')
        (intVariant (D := D) (digitsValue (natText n.natAbs))) :=
      scalar_digits (natText_ne_nil _) (natText_isDigit _) (by omega)
    rw [if_neg hneg]
    rwa [hvalue, show (n.natAbs : Int) = n by omega] at hscalar

end Nstd.Json
