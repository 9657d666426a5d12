import Mathlib.Data.Fin.VecNotation
import Mathlib.Data.Nat.Prime.Basic
import Nstd.Core.Rings

/-!
# The hash SHA-256

What the hash is, without regard to how it is computed.

* `primes`, `rootBits` — the constants are the first bits of the roots of prime numbers.
* `schedule`, `vars`, `compress` — 64 words are made from a block, and mixed into eight words.
* `pad`, `digest` — a message is filled up to whole blocks, which are compressed one after the other.
* `primes_eq`, `rootBits_eq` — which numbers the constants are.
-/

namespace Nstd.Sha256Standard

/-! ## Functions on words -/

/-- A word is rotated to the right. -/
def rotr (n : ℕ) (x : UInt32) : UInt32 := ⟨x.toBitVec.rotateRight n⟩

def bigSigma0 (x : UInt32) : UInt32 := rotr 2 x ^^^ rotr 13 x ^^^ rotr 22 x

def bigSigma1 (x : UInt32) : UInt32 := rotr 6 x ^^^ rotr 11 x ^^^ rotr 25 x

def smallSigma0 (x : UInt32) : UInt32 := rotr 7 x ^^^ rotr 18 x ^^^ (x >>> 3)

def smallSigma1 (x : UInt32) : UInt32 := rotr 17 x ^^^ rotr 19 x ^^^ (x >>> 10)

/-- Each bit of `x` chooses one of `y` or of `z`. -/
def choose (x y z : UInt32) : UInt32 := (x &&& y) ^^^ (~~~x &&& z)

/-- Each bit is what most of the three have. -/
def majority (x y z : UInt32) : UInt32 := (x &&& y) ^^^ (x &&& z) ^^^ (y &&& z)

/-! ## Constants -/

/-- The first 64 prime numbers -/
def primes : List ℕ := (List.range 312).filter fun n => Nat.Prime n

/-- The first 32 bits behind the point of the `k`-th root of `p` -/
def rootBits (k p : ℕ) : UInt32 :=
  UInt32.ofNat (Nat.findGreatest (fun r => r ^ k ≤ p * 2 ^ (32 * k)) (p * 2 ^ 32))

def K (t : ℕ) : UInt32 := rootBits 3 (primes.getD t 0)

/-- Eight words -/
abbrev Words := Fin 8 → UInt32

def initial : Words := fun k => rootBits 2 (primes.getD k 0)

/-! ## Blocks -/

/-- A number of bytes, the first of which counts most -/
def bigEndian (bytes : List UInt8) : ℕ := bytes.foldl (fun x b => x * 256 + b.toNat) 0

/-- The bytes of a number -/
def bytesOf (n x : ℕ) : List UInt8 := (List.range n).map fun i => UInt8.ofNat (x / 256 ^ (n - 1 - i))

/-- The words of a block, and those made from them -/
def schedule (block : List UInt8) (t : ℕ) : UInt32 :=
  if t < 16 then UInt32.ofNat (bigEndian ((block.drop (4 * t)).take 4))
  else smallSigma1 (schedule block (t - 2)) + schedule block (t - 7)
    + smallSigma0 (schedule block (t - 15)) + schedule block (t - 16)
  termination_by t

local instance eight : NeZero 8 := ⟨by decide⟩

/-- One round on the words `a` to `h` -/
def round (k w : UInt32) (v : Words) : Words :=
  let t1 := v 7 + bigSigma1 (v 4) + choose (v 4) (v 5) (v 6) + k + w
  let t2 := bigSigma0 (v 0) + majority (v 0) (v 1) (v 2)
  ![t1 + t2, v 0, v 1, v 2, v 3 + t1, v 4, v 5, v 6]

/-- The words after some rounds -/
def vars (H : Words) (block : List UInt8) : ℕ → Words
  | 0 => H
  | t + 1 => round (K t) (schedule block t) (vars H block t)

/-- A block is mixed into eight words. -/
def compress (H : Words) (block : List UInt8) : Words := fun k => H k + vars H block 64 k

/-! ## Messages -/

/-- What is behind a message of some length: one bit, zeros, and its length in bits -/
def padding (length : ℕ) : List UInt8 :=
  0x80 :: List.replicate ((119 - length % 64) % 64) 0 ++ bytesOf 8 (8 * length)

/-- The digest of a message -/
def digest (message : List UInt8) : List UInt8 :=
  let H := (Rings.chunks 64 (message ++ padding message.length)).foldl compress initial
  (List.finRange 8).flatMap fun k => bytesOf 4 (H k).toNat

/-! ## Which numbers the constants are -/

/-- A number below 324 is prime if no smaller one up to its root divides it. -/
lemma prime_iff {n : ℕ} (h : n < 324) :
    Nat.Prime n ↔ 2 ≤ n ∧ ∀ d < 18, 2 ≤ d → d * d ≤ n → n % d ≠ 0 := by
  rw [Nat.prime_def_le_sqrt]
  refine and_congr_right fun _ => ⟨fun hdvd d _ h2 hle hmod => ?_, fun hmod d h2 hle hdvd => ?_⟩
  · exact hdvd d h2 (Nat.le_sqrt.mpr hle) (Nat.dvd_of_mod_eq_zero hmod)
  · have hsq := Nat.le_sqrt.mp hle
    have hlt : d < 18 := by
      by_contra hge
      have hmul := Nat.mul_le_mul (not_lt.mp hge) (not_lt.mp hge)
      omega
    exact hmod d hlt h2 hsq (Nat.mod_eq_zero_of_dvd hdvd)

lemma primes_eq : primes = [2, 3, 5, 7, 11, 13, 17, 19, 23, 29, 31, 37, 41, 43, 47, 53, 59, 61, 67, 71, 73,
    79, 83, 89, 97, 101, 103, 107, 109, 113, 127, 131, 137, 139, 149, 151, 157, 163, 167, 173, 179, 181,
    191, 193, 197, 199, 211, 223, 227, 229, 233, 239, 241, 251, 257, 263, 269, 271, 277, 281, 283, 293,
    307, 311] := by
  calc primes
      = (List.range 312).filter fun n => 2 ≤ n ∧ ∀ d < 18, 2 ≤ d → d * d ≤ n → n % d ≠ 0 :=
        List.filter_congr fun n hn => by
          rw [decide_eq_decide]
          exact prime_iff (by have := List.mem_range.mp hn; omega)
    _ = _ := by decide +kernel

/-- A root is between two numbers. -/
lemma rootBits_eq {k p r : ℕ} (hk : k ≠ 0) (hle : r ^ k ≤ p * 2 ^ (32 * k))
    (hlt : p * 2 ^ (32 * k) < (r + 1) ^ k) : rootBits k p = UInt32.ofNat r := by
  have hroot : Nat.findGreatest (fun r => r ^ k ≤ p * 2 ^ (32 * k)) (p * 2 ^ 32) = r := by
    refine Nat.findGreatest_eq_iff.mpr ⟨?_, fun _ => hle, fun m hm _ hm' => ?_⟩
    · refine (Nat.pow_le_pow_iff_left hk).mp (hle.trans ?_)
      rw [Nat.mul_pow, ← Nat.pow_mul]
      exact Nat.mul_le_mul_right _ (Nat.le_self_pow hk p)
    · have hpow := Nat.pow_le_pow_left (show r + 1 ≤ m from hm) k
      omega
  rw [rootBits, hroot]

end Nstd.Sha256Standard
