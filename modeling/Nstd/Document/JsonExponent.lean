import Mathlib.Data.Rat.Cast.Order
import Mathlib.Algebra.Order.Field.Basic
import Mathlib.Tactic.NormNum
import Mathlib.Tactic.Ring
import Nstd.Document.JsonEscape
import Nstd.Document.JsonReuse
import Nstd.Document.JsonStandard

/-!
# Numbers with an exponent

* `Exponent`, `Literal` — the numbers of RFC 8259 without a decimal point, with the integer in front
  of the exponent and the exponent.
* `parse_literal` — `Json::parse` reads the integer in front of the exponent, or the nearest one of
  64 bits.
* `saturated_eq_iff` — when this is the value of the number.
* **`parse_number_iff`** — the value is read exactly if the exponent changes nothing, or if it is the
  largest or the smallest integer.

The scanner takes the whole literal, but only a point makes it a double; else it is read as an integer,
which ends at the exponent.
-/

namespace Nstd.Json

/-! ## Literals -/

/-- What may stand behind an integer instead of a fraction, with the power of ten -/
inductive Exponent : List UInt8 → Int → Prop
  | none : Exponent [] 0
  | plain {c : UInt8} {s : List UInt8} : c = ch 'e' ∨ c = ch 'E' → s ≠ [] → (∀ d ∈ s, isDigit d) →
      Exponent (c :: s) (digitsValue s)
  | plus {c : UInt8} {s : List UInt8} : c = ch 'e' ∨ c = ch 'E' → s ≠ [] → (∀ d ∈ s, isDigit d) →
      Exponent (c :: ch '+' :: s) (digitsValue s)
  | minus {c : UInt8} {s : List UInt8} : c = ch 'e' ∨ c = ch 'E' → s ≠ [] → (∀ d ∈ s, isDigit d) →
      Exponent (c :: ch '-' :: s) (- digitsValue s)

/-- A number without a decimal point that stands for `m * 10 ^ e` -/
def Literal (t : List UInt8) (m e : Int) : Prop :=
  ∃ x y, t = x ++ y ∧ StandardInteger x m ∧ Exponent y e

/-- A value is this integer, as an integer or as a double that stands for it. -/
def Exactly {D : Type} (stands : D → Int → Prop) : Variant D → Int → Prop
  | .int k, n => k.toInt = n
  | .uint k, n => k.toNat = n
  | .int64 k, n => k.toInt = n
  | .uint64 k, n => k.toNat = n
  | .double d, n => stands d n
  | _, _ => False

/-- The nearest integer of 64 bits -/
def saturated (n : Int) : Int := max (- 2 ^ 63) (min (2 ^ 63 - 1) n)

lemma saturated_bounds (n : Int) : - 2 ^ 63 ≤ saturated n ∧ saturated n < 2 ^ 63 := by
  rw [saturated]
  omega

/-! ## What is read -/

lemma digits_bytes {s : List UInt8} (hs : ∀ d ∈ s, isDigit d) :
    ∀ d ∈ s, isNumberByte d ∧ d ≠ ch '.' := by
  intro d hd
  obtain ⟨-, -, -, hpoint, hbyte, -⟩ := isDigit_plain d (hs d hd)
  exact ⟨hbyte, hpoint⟩

/-- An exponent does not begin with a digit, and has no point. -/
lemma Exponent.bytes {y : List UInt8} {e : Int} (h : Exponent y e) :
    (∀ c ∈ y.head?, isDigit c = false) ∧ ∀ c ∈ y, isNumberByte c ∧ c ≠ ch '.' := by
  have hletter : ∀ c, c = ch 'e' ∨ c = ch 'E' →
      isDigit c = false ∧ isNumberByte c ∧ c ≠ ch '.' := forall_byte (by decide +kernel)
  have hsign : ∀ c, c = ch '+' ∨ c = ch '-' → isNumberByte c ∧ c ≠ ch '.' :=
    forall_byte (by decide +kernel)
  cases h with
  | none => exact ⟨by simp, List.forall_mem_nil _⟩
  | plain hc _ hs =>
    exact ⟨by simpa using (hletter _ hc).1,
      List.forall_mem_cons.mpr ⟨(hletter _ hc).2, digits_bytes hs⟩⟩
  | plus hc _ hs =>
    exact ⟨by simpa using (hletter _ hc).1, List.forall_mem_cons.mpr ⟨(hletter _ hc).2,
      List.forall_mem_cons.mpr ⟨hsign _ (.inl rfl), digits_bytes hs⟩⟩⟩
  | minus hc _ hs =>
    exact ⟨by simpa using (hletter _ hc).1, List.forall_mem_cons.mpr ⟨(hletter _ hc).2,
      List.forall_mem_cons.mpr ⟨hsign _ (.inr rfl), digits_bytes hs⟩⟩⟩

/-- `atoll` stops where the digits end. -/
lemma takeWhile_digits {s y : List UInt8} (hs : ∀ c ∈ s, isDigit c)
    (hy : ∀ c ∈ y.head?, isDigit c = false) : (s ++ y).takeWhile isDigit = s := by
  rw [List.takeWhile_append_of_pos hs]
  cases y with
  | nil => simp
  | cons c y =>
    have hc : isDigit c = false := hy c rfl
    rw [List.takeWhile_cons_of_neg (by simp [hc]), List.append_nil]

/-- **What `atoll` makes of an integer**, whatever is behind it -/
lemma toInt64_integer {x y : List UInt8} {m : Int} (hx : StandardInteger x m)
    (hy : ∀ c ∈ y.head?, isDigit c = false) : toInt64 (x ++ y) = Int64.ofInt (saturated m) := by
  cases hx with
  | plain hd =>
    obtain ⟨hne, hs, rfl⟩ := standardDigits_isDigit hd
    obtain ⟨c, s, rfl⟩ := List.exists_cons_of_ne_nil hne
    obtain ⟨hspace, hminus, hplus, -⟩ := isDigit_plain c (hs c List.mem_cons_self)
    have hdrop : (c :: s ++ y).dropWhile isSpace = c :: s ++ y :=
      List.dropWhile_cons_of_neg (by simp [hspace])
    rw [toInt64, hdrop, if_neg (by simpa using hminus), if_neg (by simpa using hplus),
      takeWhile_digits hs hy, saturated]
  | @minus s n hd =>
    obtain ⟨-, hs, rfl⟩ := standardDigits_isDigit hd
    have hdrop : (ch '-' :: s ++ y).dropWhile isSpace = ch '-' :: s ++ y :=
      List.dropWhile_cons_of_neg (by decide)
    rw [toInt64, hdrop, List.cons_append, List.head?_cons, if_pos rfl, List.tail_cons,
      takeWhile_digits hs hy, saturated]

variable {D : Type} [DoubleText D]

/-- A number without a point is a token. -/
lemma Literal.scalar {t : List UInt8} {m e : Int} (h : Literal t m e) :
    Scalar t (ch '#') (intVariant (D := D) (saturated m)) := by
  obtain ⟨x, y, rfl, hx, hy⟩ := h
  obtain ⟨hhead, hbytes⟩ := hy.bytes
  obtain ⟨hlow, hhigh⟩ := saturated_bounds m
  have hinteger : (∃ c ∈ x.head?, startsNumber c) ∧ ∀ c ∈ x, isNumberByte c ∧ c ≠ ch '.' := by
    cases hx with
    | plain hd =>
      obtain ⟨hne, hs, -⟩ := standardDigits_isDigit hd
      obtain ⟨c, s, rfl⟩ := List.exists_cons_of_ne_nil hne
      exact ⟨⟨c, rfl, (isDigit_plain c (hs c List.mem_cons_self)).2.2.2.2.2⟩, digits_bytes hs⟩
    | minus hd =>
      obtain ⟨-, hs, -⟩ := standardDigits_isDigit hd
      exact ⟨⟨ch '-', rfl, by decide⟩, List.forall_mem_cons.mpr ⟨by decide, digits_bytes hs⟩⟩
  obtain ⟨⟨c, hc, hstart⟩, hx'⟩ := hinteger
  have hall : ∀ c ∈ x ++ y, isNumberByte c ∧ c ≠ ch '.' := List.forall_mem_append.mpr ⟨hx', hbytes⟩
  have hpoint : ch '.' ∉ x ++ y := fun hmem => (hall _ hmem).2 rfl
  rw [← numberValue_eq (toInt64_integer hx hhead) hlow hhigh, ← decide_eq_false hpoint]
  exact .number ⟨c, List.mem_head?_append_of_mem_head? hc, hstart⟩ fun c hc => (hall c hc).1

/-- **What is read of a number** is the integer in front of the exponent, or the nearest one. -/
theorem parse_literal {t : List UInt8} {m e : Int} (h : Literal t m e) (result : Variant D) :
    ∃ q : Private D, parse (cString t) result = .ok (q, intVariant (saturated m)) := by
  have hscalar := h.scalar (D := D)
  have hdata : (cString t).bytes = [] ++ t ++ [] := by
    rw [cString_noNul hscalar.noNul, List.append_nil, List.nil_append]
  obtain ⟨q, hq, -⟩ := parse_value hdata .nil (.scalar hscalar) .nil
  exact ⟨q, scalar_value hdata .nil hscalar hq result⟩

/-! ## When it is the value -/

/-- A value read for an integer is that integer. -/
lemma exactly_intVariant {D : Type} (stands : D → Int → Prop) {k n : Int} (hlow : - 2 ^ 63 ≤ k)
    (hhigh : k < 2 ^ 63) : Exactly stands (intVariant k) n ↔ k = n := by
  rw [intVariant]
  split_ifs with h
  · rw [Exactly, Int32.toInt_ofInt_of_le h.1 h.2]
  · rw [Exactly, Int64.toInt_ofInt_of_le hlow hhigh]

/-- The nearest integer to `m` is the value `m * 10 ^ e` if the power of ten changes nothing or the
    value is one of the two ends: with a power above 1 or below it, one of `m` and the value is ten
    times an integer that is at least as far from zero as the other. -/
lemma saturated_eq_iff {m e n : Int} (hvalue : (m : ℚ) * 10 ^ e = n) (hlow : - 2 ^ 63 ≤ n)
    (hhigh : n < 2 ^ 63) :
    saturated m = n ↔ m = 0 ∨ e = 0 ∨ n = 2 ^ 63 - 1 ∨ n = - 2 ^ 63 := by
  have hpower : ∀ (a : Int) (k : ℕ), ∃ b, a * 10 ^ (k + 1) = 10 * b ∧ (0 ≤ a → a ≤ b) ∧
      (a ≤ 0 → b ≤ a) := by
    intro a k
    have hone : (1 : Int) ≤ 10 ^ k := one_le_pow₀ (by norm_num)
    refine ⟨a * 10 ^ k, by ring, fun ha => ?_, fun ha => ?_⟩
    · exact le_mul_of_one_le_right ha hone
    · exact mul_le_of_one_le_right ha hone
  rw [saturated]
  rcases lt_trichotomy e 0 with he | rfl | he
  · obtain ⟨k, rfl⟩ : ∃ k : ℕ, e = - ((k + 1 : ℕ) : Int) := ⟨e.natAbs - 1, by omega⟩
    have hm : m = n * 10 ^ (k + 1) := by
      rw [zpow_neg, zpow_natCast, ← div_eq_mul_inv, div_eq_iff (by positivity)] at hvalue
      exact_mod_cast hvalue
    obtain ⟨b, hb, hpos, hneg⟩ := hpower n k
    rw [hb] at hm
    omega
  · have hm : m = n := by simpa using hvalue
    omega
  · obtain ⟨k, rfl⟩ : ∃ k : ℕ, e = ((k + 1 : ℕ) : Int) := ⟨e.natAbs - 1, by omega⟩
    have hn : n = m * 10 ^ (k + 1) := by
      rw [zpow_natCast] at hvalue
      exact_mod_cast hvalue.symm
    obtain ⟨b, hb, hpos, hneg⟩ := hpower m k
    rw [hb] at hn
    omega

/-- **When a number has the value that it stands for**, an integer of 64 bits -/
theorem parse_number_iff (stands : D → Int → Prop) {t : List UInt8} {m e n : Int}
    (h : Literal t m e) (hvalue : (m : ℚ) * 10 ^ e = n) (hlow : - 2 ^ 63 ≤ n) (hhigh : n < 2 ^ 63)
    (result : Variant D) :
    (∃ (q : Private D) (v : Variant D), parse (cString t) result = .ok (q, v) ∧ Exactly stands v n) ↔
      m = 0 ∨ e = 0 ∨ n = 2 ^ 63 - 1 ∨ n = - 2 ^ 63 := by
  obtain ⟨hlow', hhigh'⟩ := saturated_bounds m
  obtain ⟨q, hq⟩ := parse_literal h result
  rw [← saturated_eq_iff hvalue hlow hhigh, ← exactly_intVariant stands hlow' hhigh', hq]
  constructor
  · rintro ⟨q', v, heq, hv⟩
    obtain ⟨rfl, rfl⟩ := Prod.mk.inj (Except.ok.inj heq)
    exact hv
  · exact fun hv => ⟨q, _, rfl, hv⟩

lemma literal_hundred : Literal (bytes "1e2") 1 2 :=
  ⟨[ch '1'], [ch 'e', ch '2'], rfl, .plain (.digits (by decide) (by decide) (by simp)),
    .plain (Or.inl rfl) (by decide) (forall_mem_of_all rfl)⟩

theorem parse_number_iff_hundred : (∃ (q : Private (List UInt8)) (v : Variant (List UInt8)),
    parse (cString (bytes "1e2")) .null = .ok (q, v) ∧ Exactly (fun _ _ => True) v 100) ↔
      (1 : Int) = 0 ∨ (2 : Int) = 0 ∨ (100 : Int) = 2 ^ 63 - 1 ∨ (100 : Int) = - 2 ^ 63 :=
  parse_number_iff _ literal_hundred (by norm_num) (by norm_num) (by norm_num) _

/-- `1e2` is an integer, and is read as another one. -/
theorem parse_number_hundred : Literal (bytes "1e2") 1 2 ∧
    ((1 : Int) : ℚ) * 10 ^ (2 : Int) = (100 : Int) ∧ ¬ ∃ (q : Private (List UInt8))
      (v : Variant (List UInt8)), parse (cString (bytes "1e2")) .null = .ok (q, v) ∧
        Exactly (fun _ _ => True) v 100 := by
  refine ⟨literal_hundred, by norm_num, ?_⟩
  rintro ⟨q, v, hv, hexact⟩
  obtain ⟨q', hq⟩ := parse_literal literal_hundred (.null : Variant (List UInt8))
  obtain ⟨-, rfl⟩ := Prod.mk.inj (Except.ok.inj (hq.symm.trans hv))
  rw [exactly_intVariant _ (saturated_bounds 1).1 (saturated_bounds 1).2] at hexact
  exact absurd hexact (by decide)

end Nstd.Json
