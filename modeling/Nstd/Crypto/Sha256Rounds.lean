import Mathlib.Data.Fintype.Basic
import Mathlib.Tactic.FinCases
import Nstd.Crypto.Sha256
import Nstd.Crypto.Sha256Standard

/-!
# The rounds of `Sha256`

`Transform` turns the names of its eight variables instead of moving them, and keeps only the last 16 words
that are made from a block.

* `Ch_eq`, `Maj_eq` — functions on words, which are computed in another way.
* `K_eq`, `reset_eq` — the tables hold roots of prime numbers.
* `Tracks` — the arrays `T` and `W` after some rounds; `Tracks.round`.
* **`writeByteBlock_eq`** — a block of the buffer is compressed.
-/

namespace Nstd.Sha256

open Rings Sha256Standard

/-! ## Functions on words -/

lemma S0_eq (x : UInt32) : S0 x = bigSigma0 x := rfl

lemma S1_eq (x : UInt32) : S1 x = bigSigma1 x := rfl

lemma s0_eq (x : UInt32) : s0 x = smallSigma0 x := rfl

lemma s1_eq (x : UInt32) : s1 x = smallSigma1 x := rfl

/-- Words that have the same bits are the same. -/
lemma eq_of_bits {x y : UInt32} (h : ∀ i < 32, x.toBitVec.getLsbD i = y.toBitVec.getLsbD i) : x = y :=
  UInt32.toBitVec_inj.mp (BitVec.eq_of_getLsbD_eq h)

lemma Ch_eq (x y z : UInt32) : Ch x y z = choose x y z := by
  refine eq_of_bits fun i hi => ?_
  simp only [Ch, choose, UInt32.toBitVec_xor, UInt32.toBitVec_and, UInt32.toBitVec_not,
    BitVec.getLsbD_xor, BitVec.getLsbD_and, BitVec.getLsbD_not, hi, decide_true, Bool.true_and]
  cases x.toBitVec.getLsbD i <;> cases y.toBitVec.getLsbD i <;> cases z.toBitVec.getLsbD i <;> rfl

lemma Maj_eq (x y z : UInt32) : Maj x y z = majority x y z := by
  refine eq_of_bits fun i _ => ?_
  simp only [Maj, majority, UInt32.toBitVec_xor, UInt32.toBitVec_and, UInt32.toBitVec_or,
    BitVec.getLsbD_xor, BitVec.getLsbD_and, BitVec.getLsbD_or]
  cases x.toBitVec.getLsbD i <;> cases y.toBitVec.getLsbD i <;> cases z.toBitVec.getLsbD i <;> rfl

/-! ## Tables -/

/-- The integer part of the `k`-th root of a number below `8 ^ k` -/
def wholeRoot (k p : ℕ) : ℕ := (List.range 18).countP fun i => (i + 1) ^ k ≤ p

/-- A word is the first bits of a root. -/
lemma rootBits_eq_word {k p q : ℕ} {x : UInt32} (hk : k ≠ 0)
    (hle : (q * 2 ^ 32 + x.toNat) ^ k ≤ p * 2 ^ (32 * k))
    (hlt : p * 2 ^ (32 * k) < (q * 2 ^ 32 + x.toNat + 1) ^ k) : x = rootBits k p := by
  rw [rootBits_eq hk hle hlt, ← UInt32.toNat_inj, UInt32.toNat_ofNat', Nat.mul_add_mod_self_right]
  exact (Nat.mod_eq_of_lt x.toNat_lt).symm

/-- **The table `K`** holds the first bits of the cube roots of the first prime numbers. -/
lemma K_eq (t : Fin 64) : K.get t = Sha256Standard.K t.val := by
  have hroots : ∀ t : Fin 64,
      (wholeRoot 3 (primes.getD t.val 0) * 2 ^ 32 + (K.get t).toNat) ^ 3
        ≤ primes.getD t.val 0 * 2 ^ (32 * 3)
      ∧ primes.getD t.val 0 * 2 ^ (32 * 3)
        < (wholeRoot 3 (primes.getD t.val 0) * 2 ^ 32 + (K.get t).toNat + 1) ^ 3 := by
    rw [primes_eq]
    decide +kernel
  exact rootBits_eq_word (by decide) (hroots t).1 (hroots t).2

/-- **The words of `reset`** are the first bits of the square roots of the first prime numbers. -/
lemma reset_eq (p : Sha256) (k : Fin 8) : p.reset.state.get k = initial k := by
  have hstate : p.reset.state = (reset ⟨.replicate 8 0, 0, .replicate 64 0⟩).state := rfl
  have hroots : ∀ k : Fin 8,
      (wholeRoot 2 (primes.getD k.val 0) * 2 ^ 32
          + ((reset ⟨.replicate 8 0, 0, .replicate 64 0⟩).state.get k).toNat) ^ 2
        ≤ primes.getD k.val 0 * 2 ^ (32 * 2)
      ∧ primes.getD k.val 0 * 2 ^ (32 * 2)
        < (wholeRoot 2 (primes.getD k.val 0) * 2 ^ 32
          + ((reset ⟨.replicate 8 0, 0, .replicate 64 0⟩).state.get k).toNat + 1) ^ 2 := by
    rw [primes_eq]
    decide +kernel
  rw [hstate]
  exact rootBits_eq_word (by decide) (hroots k).1 (hroots k).2

/-! ## Rounds -/

/-- The arrays `T` and `W` after `t` rounds -/
structure Tracks (H : Words) (block : List UInt8) (t : ℕ) (work : Work) : Prop where
  vars : Turned (Fin.ofNat 8 t) work.1 (vars H block t)
  words : Window (schedule block) t work.2

variable {H : Words} {block : List UInt8}

/-- **What a round does** with the variables, whose names are turned behind it -/
lemma mix_turned {t : ℕ} {j : Fin 4} {i : Fin 16} (ht : t = i.val + 16 * j.val) {T : Vector UInt32 8}
    {v : Words} (h : Turned (Fin.ofNat 8 t) T v) (w : UInt32) :
    Turned (Fin.ofNat 8 (t + 1)) (mix j i w T) (round (Sha256Standard.K t) w v) := by
  have hvar : ∀ k : Fin 8, var i.val k.val = k - Fin.ofNat 8 t := by
    intro k
    have hmod : Fin.ofNat 8 i.val = Fin.ofNat 8 t := Fin.ext (by simp [ht]; omega)
    rw [var, hmod, Fin.ofNat_val_eq_self]
  have hK : K.get ⟨i.val + 16 * j.val, by omega⟩ = Sha256Standard.K t := by rw [K_eq, ht]
  have hnext : Fin.ofNat 8 (t + 1) = Fin.ofNat 8 t + 1 := by
    refine Fin.ext ?_
    simp [Fin.val_add]
  rw [hnext]
  -- `h` is written, then `d`, then `h` again
  let x := v 7 + bigSigma1 (v 4) + choose (v 4) (v 5) (v 6) + Sha256Standard.K t + w
  have h₁ := h.set 7 x
  have h₂ := h₁.set 3 (v 3 + x)
  have h₃ := h₂.set 7 (x + (bigSigma0 (v 0) + majority (v 0) (v 1) (v 2)))
  have hmix : mix j i w T = (((T.setIfInBounds (7 - Fin.ofNat 8 t).val x).setIfInBounds
      (3 - Fin.ofNat 8 t).val (v 3 + x)).setIfInBounds (7 - Fin.ofNat 8 t).val
      (x + (bigSigma0 (v 0) + majority (v 0) (v 1) (v 2)))) := by
    have hx : T.get (7 - Fin.ofNat 8 t) + (S1 (T.get (4 - Fin.ofNat 8 t))
        + Ch (T.get (4 - Fin.ofNat 8 t)) (T.get (5 - Fin.ofNat 8 t)) (T.get (6 - Fin.ofNat 8 t))
        + K.get ⟨i.val + 16 * j.val, by omega⟩ + w) = x := by
      rw [h 4, h 5, h 6, h 7, hK, S1_eq, Ch_eq]
      simp only [x, UInt32.add_assoc]
    have hd : (T.setIfInBounds (7 - Fin.ofNat 8 t).val x).get (3 - Fin.ofNat 8 t) = v 3 := h₁ 3
    have ha := h₂ 0
    have hb := h₂ 1
    have hc := h₂ 2
    rw [mix, show var i.val 7 = 7 - Fin.ofNat 8 t from hvar 7,
      show var i.val 6 = 6 - Fin.ofNat 8 t from hvar 6,
      show var i.val 5 = 5 - Fin.ofNat 8 t from hvar 5,
      show var i.val 4 = 4 - Fin.ofNat 8 t from hvar 4,
      show var i.val 3 = 3 - Fin.ofNat 8 t from hvar 3,
      show var i.val 2 = 2 - Fin.ofNat 8 t from hvar 2,
      show var i.val 1 = 1 - Fin.ofNat 8 t from hvar 1,
      show var i.val 0 = 0 - Fin.ofNat 8 t from hvar 0, hx, hd, ha, hb, hc, S0_eq, Maj_eq]
    rfl
  have hround : round (Sha256Standard.K t) w v = fun k => Function.update (Function.update
      (Function.update v 7 x) 3 (v 3 + x)) 7
      (x + (bigSigma0 (v 0) + majority (v 0) (v 1) (v 2))) (k - 1) := by
    funext k
    fin_cases k <;> rfl
  rw [hmix, hround]
  exact h₃.turn

lemma schedule_of_lt {t : ℕ} (ht : t < 16) :
    schedule block t = UInt32.ofNat (bigEndian ((block.drop (4 * t)).take 4)) := by
  rw [schedule, if_pos ht]

lemma schedule_of_le {t : ℕ} (ht : 16 ≤ t) :
    schedule block t = smallSigma1 (schedule block (t - 2)) + schedule block (t - 7)
      + smallSigma0 (schedule block (t - 15)) + schedule block (t - 16) := by
  rw [schedule, if_neg (Nat.not_lt.mpr ht)]

/-- **The word of a round** takes the place of the oldest one. -/
lemma word_eq {t : ℕ} {j : Fin 4} {i : Fin 16} (ht : t = i.val + 16 * j.val)
    {data W : Vector UInt32 16} (hdata : ∀ i : Fin 16, data.get i = schedule block i.val)
    (h : Window (schedule block) t W) :
    (if j ≠ 0 then blk2 i W else blk0 data i W)
      = W.setIfInBounds (Fin.ofNat 16 t).val (schedule block t) := by
  have hi : i = Fin.ofNat 16 t := Fin.ext (by simp [ht]; omega)
  by_cases hj : j = 0
  · have hti : t = i.val := by rw [ht, hj]; rfl
    rw [if_neg (not_not.mpr hj), blk0, hdata, ← hti, ← hi, hti]
  · have h16 : 16 ≤ t := by
      have hpos : 0 < j.val := Nat.pos_of_ne_zero fun h0 => hj (Fin.ext h0)
      omega
    have hword : ∀ k, 0 < k → k ≤ 16 → W.get (word i.val k) = schedule block (t - k) := by
      intro k hpos hk
      rw [word, Fin.ofNat_val_eq_self, hi]
      exact h.get hpos hk (by omega)
    have hold : W.get i = schedule block (t - 16) := by
      rw [← hword 16 (by decide) (by decide)]
      refine congrArg W.get ?_
      rw [word, Fin.ofNat_val_eq_self]
      exact (sub_zero i).symm
    rw [if_pos hj, blk2, hold, hword 2 (by decide) (by decide), hword 7 (by decide) (by decide),
      hword 15 (by decide) (by decide), s1_eq, s0_eq, ← hi, schedule_of_le h16, UInt32.add_comm]

/-- **One round** -/
lemma Tracks.round {t : ℕ} {j : Fin 4} {i : Fin 16} (ht : t = i.val + 16 * j.val)
    {data : Vector UInt32 16} (hdata : ∀ i : Fin 16, data.get i = schedule block i.val) {work : Work}
    (h : Tracks H block t work) : Tracks H block (t + 1) (R data j work i) := by
  have hi : i = Fin.ofNat 16 t := Fin.ext (by simp [ht]; omega)
  have hW := word_eq ht hdata h.words
  have hw : (work.2.setIfInBounds (Fin.ofNat 16 t).val (schedule block t)).get i
      = schedule block t := by
    rw [get_setIfInBounds, if_pos hi]
  rw [R, hW, hw]
  exact ⟨mix_turned ht h.vars _, h.words.set⟩

/-- The first rounds of the inner loop -/
lemma Tracks.rounds {j : Fin 4} {data : Vector UInt32 16}
    (hdata : ∀ i : Fin 16, data.get i = schedule block i.val) {work : Work}
    (h : Tracks H block (16 * j.val) work) (n : ℕ) (hn : n ≤ 16) :
    Tracks H block (n + 16 * j.val) (rounds data j work n hn) := by
  induction n with
  | zero =>
    rw [Nat.zero_add]
    exact h
  | succ n ih =>
    have hround := (ih (by omega)).round (i := ⟨n, hn⟩) rfl hdata
    rw [Nat.add_right_comm] at hround
    exact hround

/-- **The compression** of a block, whose words are in `data` -/
lemma transform_eq {state : Vector UInt32 8} (W : Vector UInt32 16) {data : Vector UInt32 16}
    (hdata : ∀ i : Fin 16, data.get i = schedule block i.val) (k : Fin 8) :
    (Transform state W data).get k = compress state.get block k := by
  have hstart : Tracks state.get block 0 (state, W) := by
    refine ⟨fun k => ?_, .zero W⟩
    exact congrArg state.get (sub_zero k)
  have h₀ := (hstart.rounds (j := 0) hdata 16 le_rfl)
  have h₁ := (h₀.rounds (j := 1) hdata 16 le_rfl)
  have h₂ := (h₁.rounds (j := 2) hdata 16 le_rfl)
  have h₃ := (h₂.rounds (j := 3) hdata 16 le_rfl)
  have hk := h₃.vars k
  have hsub : k - Fin.ofNat 8 (16 + 16 * (3 : Fin 4).val) = k := sub_zero k
  rw [hsub] at hk
  rw [Transform, get_ofFn, compress]
  exact congrArg (state.get k + ·) hk

/-! ## Blocks -/

/-- Four bytes are a word. -/
lemma word_of_bytes (a b c d : UInt8) :
    (a.toUInt32 <<< 24) + (b.toUInt32 <<< 16) + (c.toUInt32 <<< 8) + d.toUInt32
      = UInt32.ofNat (bigEndian [a, b, c, d]) := by
  have ha := a.toNat_lt
  have hb := b.toNat_lt
  have hc := c.toNat_lt
  have hd := d.toNat_lt
  rw [← UInt32.toNat_inj]
  simp [bigEndian, UInt32.toNat_add, UInt32.toNat_shiftLeft, Nat.shiftLeft_eq]
  omega

lemma take_drop_four {l : List UInt8} {i : ℕ} (h : i + 4 ≤ l.length) :
    (l.drop i).take 4 = [l[i], l[i + 1], l[i + 2], l[i + 3]] := by
  refine List.ext_getElem (by simp; omega) fun k hk hk' => ?_
  rw [List.getElem_take, List.getElem_drop]
  match k, hk' with
  | 0, _ => rfl
  | 1, _ => rfl
  | 2, _ => rfl
  | 3, _ => rfl

/-- **A block of the buffer** is compressed. -/
theorem writeByteBlock_eq (p : Sha256) :
    (WriteByteBlock p).state.get = compress p.state.get p.buffer.toList := by
  funext k
  refine transform_eq _ (fun i => ?_) k
  have hlt : 4 * i.val + 4 ≤ p.buffer.toList.length := by
    rw [Vector.length_toList]
    omega
  rw [get_ofFn, schedule_of_lt i.isLt, take_drop_four hlt, ← word_of_bytes]
  simp [get_eq, Nat.mul_comm 4]

end Nstd.Sha256
