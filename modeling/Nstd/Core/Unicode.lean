import Mathlib.Data.Nat.Basic

/-!
# `Unicode::append`

The bytes that `Unicode::append` adds for a code point: one to four of them, or none from 0x110000
on.

* `append_toNat` — for a character they are its UTF-8 encoding.
* `mem_utf8EncodeChar` — the bytes of an encoding are the character itself or from 0x80 on.
-/

namespace Nstd.Unicode

/-- `Unicode::append` -/
def append (ch : ℕ) : List UInt8 :=
  if ch < 0x80 then [UInt8.ofNat ch]
  else if ch < 0x800 then
    [UInt8.ofNat ((ch >>> 6) ||| 0xC0), UInt8.ofNat ((ch &&& 0x3F) ||| 0x80)]
  else if ch < 0x10000 then
    [UInt8.ofNat ((ch >>> 12) ||| 0xE0), UInt8.ofNat (((ch >>> 6) &&& 0x3F) ||| 0x80),
      UInt8.ofNat ((ch &&& 0x3F) ||| 0x80)]
  else if ch < 0x110000 then
    [UInt8.ofNat ((ch >>> 18) ||| 0xF0), UInt8.ofNat (((ch >>> 12) &&& 0x3F) ||| 0x80),
      UInt8.ofNat (((ch >>> 6) &&& 0x3F) ||| 0x80), UInt8.ofNat ((ch &&& 0x3F) ||| 0x80)]
  else []

/-- The last bits of a number, and the mark of a byte that continues -/
lemma and_or_0x80 (n : ℕ) : (n &&& 0x3F) ||| 0x80 = n % 0x40 + 0x80 := by
  have hmark : ∀ i < 64, i ||| 0x80 = i + 0x80 := by decide
  rw [Nat.and_two_pow_sub_one_eq_mod n 6]
  exact hmark _ (Nat.mod_lt _ (by decide))

/-- The first bits of a number, and the mark of the first byte -/
lemma or_mark : (∀ i < 32, i ||| 0xC0 = i % 32 + 0xC0) ∧ (∀ i < 16, i ||| 0xE0 = i % 16 + 0xE0) ∧
    ∀ i < 8, i ||| 0xF0 = i % 8 + 0xF0 := by
  decide

/-- **The bytes of a character** are those of its encoding in UTF-8. -/
theorem append_toNat (c : Char) : append c.toNat = String.utf8EncodeChar c := by
  have hvalid : c.toNat < 0x110000 := by
    rcases c.valid with h | ⟨-, h⟩
    · exact Nat.lt_trans h (by decide)
    · exact h
  obtain ⟨htwo, hthree, hfour⟩ := or_mark
  rw [append, String.utf8EncodeChar]
  simp only [and_or_0x80, Nat.shiftRight_eq_div_pow, Char.toNat] at hvalid ⊢
  generalize c.val.toNat = n at hvalid ⊢
  by_cases h₁ : n < 0x80
  · rw [if_pos h₁, if_pos (show n ≤ 0x7f by omega)]
  rw [if_neg h₁, if_neg (show ¬ n ≤ 0x7f by omega)]
  by_cases h₂ : n < 0x800
  · rw [if_pos h₂, if_pos (show n ≤ 0x7ff by omega), htwo _ (by omega)]
  rw [if_neg h₂, if_neg (show ¬ n ≤ 0x7ff by omega)]
  by_cases h₃ : n < 0x10000
  · rw [if_pos h₃, if_pos (show n ≤ 0xffff by omega), hthree _ (by omega)]
  rw [if_neg h₃, if_pos hvalid, if_neg (show ¬ n ≤ 0xffff by omega), hfour _ (by omega)]

/-- The bytes of an encoding: the character itself, or bytes outside of ASCII -/
lemma mem_utf8EncodeChar {c : Char} {b : UInt8} (hb : b ∈ String.utf8EncodeChar c) :
    b.toNat = c.toNat ∨ 0x80 ≤ b.toNat := by
  rw [String.utf8EncodeChar] at hb
  simp only [Char.toNat] at hb ⊢
  generalize c.val.toNat = n at hb ⊢
  split_ifs at hb with h₁ h₂ h₃
  · obtain rfl := List.mem_singleton.mp hb
    left
    rw [UInt8.toNat_ofNat', Nat.mod_eq_of_lt (by omega)]
  all_goals
    right
    simp only [List.mem_cons, List.not_mem_nil, or_false] at hb
  · rcases hb with rfl | rfl <;> rw [UInt8.toNat_ofNat', Nat.mod_eq_of_lt (by omega)] <;> omega
  · rcases hb with rfl | rfl | rfl <;> rw [UInt8.toNat_ofNat', Nat.mod_eq_of_lt (by omega)] <;>
      omega
  · rcases hb with rfl | rfl | rfl | rfl <;>
      rw [UInt8.toNat_ofNat', Nat.mod_eq_of_lt (by omega)] <;> omega

end Nstd.Unicode
