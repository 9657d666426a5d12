import Nstd.Core.Bytes

/-!
# Base64

* `alphabet`, `char`, `sextet` — the characters of RFC 4648 and their values.
* `encode` — six bits at a time, with padding up to a multiple of four characters.
* `octets` — eight bits at a time, from the values of the characters.
* **`encode_eq`** — an encoding is the characters of values that stand for the bytes, and padding.
-/

namespace Nstd.Base64

/-- Some characters from one on -/
def charsFrom (c : Char) (n : ℕ) : List UInt8 := (List.range n).map fun i => ch c + UInt8.ofNat i

/-- The characters, in the order of their values -/
def alphabet : List UInt8 :=
  charsFrom 'A' 26 ++ charsFrom 'a' 26 ++ charsFrom '0' 10 ++ [ch '+', ch '/']

/-- The character of a value -/
def char (v : UInt8) : UInt8 := alphabet.getD v.toNat 0

/-- The value of a character -/
def sextet (c : UInt8) : UInt8 := UInt8.ofNat (alphabet.idxOf c)

/-- The padded encoding of some bytes -/
def encode : List UInt8 → List UInt8
  | a :: b :: c :: s =>
    char (a / 4) :: char (a % 4 * 16 + b / 16) :: char (b % 16 * 4 + c / 64) :: char (c % 64) ::
      encode s
  | [a, b] => [char (a / 4), char (a % 4 * 16 + b / 16), char (b % 16 * 4), ch '=']
  | [a] => [char (a / 4), char (a % 4 * 16), ch '=', ch '=']
  | [] => []

/-- The bytes that some values stand for; bits that do not make a byte are left out. -/
def octets : List UInt8 → List UInt8
  | v₁ :: v₂ :: v₃ :: v₄ :: vs =>
    (v₁ * 4 + v₂ / 16) :: (v₂ % 16 * 16 + v₃ / 4) :: (v₃ % 4 * 64 + v₄) :: octets vs
  | [v₁, v₂, v₃] => [v₁ * 4 + v₂ / 16, v₂ % 16 * 16 + v₃ / 4]
  | [v₁, v₂] => [v₁ * 4 + v₂ / 16]
  | [_] => []
  | [] => []

/-! ## Characters -/

lemma char_spec (v : UInt8) (hv : v < 64) : char v ∈ alphabet ∧ sextet (char v) = v := by
  revert hv
  exact forall_byte (p := fun v => v < 64 → char v ∈ alphabet ∧ sextet (char v) = v)
    (by decide +kernel) v

lemma sextet_lt {c : UInt8} (hc : c ∈ alphabet) : sextet c < 64 :=
  forall_mem_of_all (p := fun c => sextet c < 64) (by decide +kernel) c hc

/-- Characters of values stand for them. -/
lemma map_char {vs : List UInt8} (hvs : ∀ v ∈ vs, v < 64) :
    (∀ c ∈ vs.map char, c ∈ alphabet) ∧ (vs.map char).map sextet = vs := by
  refine ⟨fun c hc => ?_, ?_⟩
  · obtain ⟨v, hv, rfl⟩ := List.mem_map.mp hc
    exact (char_spec v (hvs v hv)).1
  · rw [List.map_map]
    exact (List.map_congr_left fun v hv => (char_spec v (hvs v hv)).2).trans (List.map_id vs)

/-- Padding is no character. -/
lemma padding_not_mem : ch '=' ∉ alphabet := by decide

/-! ## Encodings -/

lemma length_octets (vs : List UInt8) : (octets vs).length = vs.length * 3 / 4 := by
  fun_induction octets vs with
  | case1 v₁ v₂ v₃ v₄ vs ih =>
    simp only [List.length_cons, ih]
    omega
  | case2 | case3 | case4 | case5 => simp

/-- What the first and the second value of a group have of its first byte -/
lemma first_byte (a b : UInt8) : a / 4 < 64 ∧ a % 4 * 16 + b / 16 < 64 ∧
    a / 4 * 4 + (a % 4 * 16 + b / 16) / 16 = a := by
  have ha := a.toNat_lt
  have hb := b.toNat_lt
  simp only [← UInt8.toNat_inj, UInt8.lt_iff_toNat_lt, UInt8.toNat_add, UInt8.toNat_mul,
    UInt8.toNat_div, UInt8.toNat_mod, UInt8.reduceToNat]
  omega

/-- What the second and the third value of a group have of its second byte -/
lemma second_byte (a b c : UInt8) : b % 16 * 4 + c / 64 < 64 ∧
    (a % 4 * 16 + b / 16) % 16 * 16 + (b % 16 * 4 + c / 64) / 4 = b := by
  have hb := b.toNat_lt
  have hc := c.toNat_lt
  simp only [← UInt8.toNat_inj, UInt8.lt_iff_toNat_lt, UInt8.toNat_add, UInt8.toNat_mul,
    UInt8.toNat_div, UInt8.toNat_mod, UInt8.reduceToNat]
  omega

/-- What the third and the fourth value of a group have of its third byte -/
lemma third_byte (b c : UInt8) : c % 64 < 64 ∧ (b % 16 * 4 + c / 64) % 4 * 64 + c % 64 = c := by
  have hc := c.toNat_lt
  simp only [← UInt8.toNat_inj, UInt8.lt_iff_toNat_lt, UInt8.toNat_add, UInt8.toNat_mul,
    UInt8.toNat_div, UInt8.toNat_mod, UInt8.reduceToNat]
  omega

/-- **An encoding** is the characters of values that stand for the bytes, and padding. -/
theorem encode_eq (b : List UInt8) : ∃ vs k, encode b = vs.map char ++ List.replicate k (ch '=')
    ∧ (∀ v ∈ vs, v < 64) ∧ octets vs = b ∧ k < 3 ∧ (vs.length + k) % 4 = 0 := by
  fun_induction encode b with
  | case1 a b c s ih =>
    obtain ⟨vs, k, htext, hvs, hoctets, hk, hlength⟩ := ih
    obtain ⟨h₁, h₂, ha⟩ := first_byte a b
    obtain ⟨h₃, hb⟩ := second_byte a b c
    obtain ⟨h₄, hc⟩ := third_byte b c
    refine ⟨a / 4 :: (a % 4 * 16 + b / 16) :: (b % 16 * 4 + c / 64) :: c % 64 :: vs, k, ?_, ?_, ?_,
      hk, ?_⟩
    · rw [htext]
      rfl
    · simpa only [List.forall_mem_cons] using ⟨h₁, h₂, h₃, h₄, hvs⟩
    · rw [octets, ha, hb, hc, hoctets]
    · simp only [List.length_cons]
      omega
  | case2 a b =>
    obtain ⟨h₁, h₂, ha⟩ := first_byte a b
    obtain ⟨h₃, hb⟩ := second_byte a b 0
    rw [UInt8.zero_div, UInt8.add_zero] at h₃ hb
    refine ⟨[a / 4, a % 4 * 16 + b / 16, b % 16 * 4], 1, rfl, ?_, ?_, by decide, by simp⟩
    · simpa only [List.forall_mem_cons] using ⟨h₁, h₂, h₃, List.forall_mem_nil _⟩
    · rw [octets, ha, hb]
  | case3 a =>
    obtain ⟨h₁, h₂, ha⟩ := first_byte a 0
    rw [UInt8.zero_div, UInt8.add_zero] at h₂ ha
    refine ⟨[a / 4, a % 4 * 16], 2, rfl, ?_, ?_, by decide, by simp⟩
    · simpa only [List.forall_mem_cons] using ⟨h₁, h₂, List.forall_mem_nil _⟩
    · rw [octets, ha]
  | case4 => exact ⟨[], 0, rfl, List.forall_mem_nil _, rfl, by decide, rfl⟩

end Nstd.Base64
