import Mathlib.Algebra.Ring.Int.Defs
import Mathlib.Algebra.Ring.Nat
import Nstd.Core.Bytes

/-!
# Line ends

A line ends with a line feed, with a carriage return, or with both after each other.

* `EndsLine` — whether a byte ends a line.
* `lineEnds` — how many lines a part of a text ends.
* `lineEnds_append` — the parts of a text, one after the other.
* `lineEnds_eq_zero` — a part without carriage returns and line feeds.
* `further` — an `int` that is counted up; `further_toInt_eq_iff` says when it is the number of a line.
-/

namespace Nstd

/-- The byte `c` ends a line if the text `s` is behind it: of a carriage return and the line feed behind
    it, the line feed does. -/
def EndsLine (c : UInt8) (s : List UInt8) : Prop :=
  c = ch '\n' ∨ c = ch '\r' ∧ s.head? ≠ some (ch '\n')

instance (c : UInt8) (s : List UInt8) : Decidable (EndsLine c s) :=
  inferInstanceAs (Decidable (_ ∨ _))

/-- The lines that `u` ends, where `s` is behind `u` -/
def lineEnds : List UInt8 → List UInt8 → ℕ
  | [], _ => 0
  | c :: u, s => (if EndsLine c (u ++ s) then 1 else 0) + lineEnds u s

@[simp] lemma lineEnds_nil (s : List UInt8) : lineEnds [] s = 0 := rfl

lemma lineEnds_cons (c : UInt8) (u s : List UInt8) :
    lineEnds (c :: u) s = (if EndsLine c (u ++ s) then 1 else 0) + lineEnds u s := rfl

lemma lineEnds_append (u v s : List UInt8) :
    lineEnds (u ++ v) s = lineEnds u (v ++ s) + lineEnds v s := by
  induction u with
  | nil => rw [List.nil_append, lineEnds_nil, Nat.zero_add]
  | cons c u ih =>
    rw [List.cons_append, lineEnds_cons, lineEnds_cons, ih, List.append_assoc, Nat.add_assoc]

lemma endsLine_lf (s : List UInt8) : EndsLine (ch '\n') s := Or.inl rfl

lemma endsLine_cr {s : List UInt8} (hs : s.head? ≠ some (ch '\n')) : EndsLine (ch '\r') s :=
  Or.inr ⟨rfl, hs⟩

lemma not_endsLine_crlf (s : List UInt8) : ¬ EndsLine (ch '\r') (ch '\n' :: s) := by
  rintro (h | ⟨-, h⟩)
  · exact absurd h (by decide)
  · exact h rfl

lemma not_endsLine {c : UInt8} (hcr : c ≠ ch '\r') (hlf : c ≠ ch '\n') (s : List UInt8) :
    ¬ EndsLine c s := by
  rintro (h | ⟨h, -⟩)
  · exact hlf h
  · exact hcr h

lemma lineEnds_eq_zero {u : List UInt8} (hu : ∀ c ∈ u, c ≠ ch '\r' ∧ c ≠ ch '\n') (s : List UInt8) :
    lineEnds u s = 0 := by
  induction u with
  | nil => rfl
  | cons c u ih =>
    obtain ⟨hcr, hlf⟩ := hu c List.mem_cons_self
    rw [lineEnds_cons, if_neg (not_endsLine hcr hlf _), Nat.zero_add,
      ih fun d hd => hu d (List.mem_cons_of_mem _ hd)]

/-! ## One byte -/

lemma lineEnds_lf (s : List UInt8) : lineEnds [ch '\n'] s = 1 := by
  rw [lineEnds_cons, if_pos (endsLine_lf _), lineEnds_nil]

lemma lineEnds_cr {s : List UInt8} (hs : s.head? ≠ some (ch '\n')) : lineEnds [ch '\r'] s = 1 := by
  rw [lineEnds_cons, List.nil_append, if_pos (endsLine_cr hs), lineEnds_nil]

lemma lineEnds_crlf (s : List UInt8) : lineEnds [ch '\r'] (ch '\n' :: s) = 0 := by
  rw [lineEnds_cons, List.nil_append, if_neg (not_endsLine_crlf s), lineEnds_nil]

lemma lineEnds_other {c : UInt8} (hcr : c ≠ ch '\r') (hlf : c ≠ ch '\n') (s : List UInt8) :
    lineEnds [c] s = 0 := by
  rw [lineEnds_cons, if_neg (not_endsLine hcr hlf _), lineEnds_nil]

lemma lineEnds_singleton_eq_zero (c : UInt8) (s : List UInt8) : lineEnds [c] s = 0 ↔ ¬ EndsLine c s := by
  rw [lineEnds_cons, List.nil_append, lineEnds_nil, Nat.add_zero]
  by_cases h : EndsLine c s <;> simp [h]

/-! ## Counting in an `int` -/

/-- The `int` that `line` is after it was counted up `n` times; the largest one wraps. -/
def further (line : Int32) : ℕ → Int32
  | 0 => line
  | n + 1 => further line n + 1

@[simp] lemma further_zero (line : Int32) : further line 0 = line := rfl

lemma further_one (line : Int32) : further line 1 = line + 1 := rfl

lemma further_further (line : Int32) (n m : ℕ) : further (further line n) m = further line (n + m) := by
  induction m with
  | zero => rfl
  | succ m ih => rw [further, ih, ← Nat.add_assoc, further]

lemma further_toInt (n : ℕ) : (further 1 n).toInt = ((n + 1 : ℕ) : Int).bmod (2 ^ 32) := by
  induction n with
  | zero => rfl
  | succ n ih =>
    rw [further, Int32.toInt_add, ih, show (1 : Int32).toInt = 1 from rfl, Int.bmod_add_bmod]
    rfl

/-- **An `int` that is counted up from 1** is the number of a line if it was counted as often as lines
    end in front of that one, and if the number is an `int`. -/
lemma further_toInt_eq_iff {n m : ℕ} (h : n ≤ m) :
    (further 1 n).toInt = 1 + m ↔ n = m ∧ 1 + m < 2 ^ 31 := by
  rw [further_toInt, Int.bmod_def]
  split_ifs with hsmall
  · omega
  · omega

end Nstd
