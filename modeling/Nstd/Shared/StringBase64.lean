import Nstd.Core.Base64
import Nstd.Core.Pieces
import Nstd.Shared.StringReplace

/-!
# Decoding base64

* `base64de`, `decodeLoop`, `State.fromBase64` — `String::fromBase64`, with the memory that it writes
  to.
* `decodeLoop_run` — what the loop does with characters of the alphabet.
* **`fromBase64_encode`** — what was encoded comes back.
* **`fromBase64_strict_iff`** — which other inputs are rejected; `fromBase64_unpadded` is not.

Four characters are three bytes, so the loop never writes more than was reserved.  It stops at the first
`=`, whatever is behind it, and looks up bytes from 0x80 on behind its table.
-/

namespace Nstd.Strings

open Base64 (alphabet sextet octets sextet_lt)

/-! ## Functions -/

/-- The table of `fromBase64` -/
def base64de : List UInt8 := [
  -- control characters
  255, 255, 255, 255, 255, 255, 255, 255, 255, 255, 255, 255, 255, 255, 255, 255,
  255, 255, 255, 255, 255, 255, 255, 255, 255, 255, 255, 255, 255, 255, 255, 255,
  -- from the space on
  255, 255, 255, 255, 255, 255, 255, 255, 255, 255, 255, 62, 255, 255, 255, 63,
  52, 53, 54, 55, 56, 57, 58, 59, 60, 61, 255, 255, 255, 255, 255, 255,
  -- from the at sign on
  255, 0, 1, 2, 3, 4, 5, 6, 7, 8, 9, 10, 11, 12, 13, 14,
  15, 16, 17, 18, 19, 20, 21, 22, 23, 24, 25, 255, 255, 255, 255, 255,
  -- from the grave accent up to the last letter
  255, 26, 27, 28, 29, 30, 31, 32, 33, 34, 35, 36, 37, 38, 39, 40,
  41, 42, 43, 44, 45, 46, 47, 48, 49, 50, 51]

/-- `out[j] = c`, in the first `size` bytes of memory, which were reserved -/
def store (size : ℕ) (out : List UInt8) (j : ℕ) (c : UInt8) : Option (List UInt8) :=
  if j < size then some (out.set j c) else none

/-- `out[j] |= c` -/
def storeOr (size : ℕ) (out : List UInt8) (j : ℕ) (c : UInt8) : Option (List UInt8) := do
  let b ← out[j]?
  store size out j (b ||| c)

/-- The `switch` of `fromBase64`: `j`, and what is in memory -/
def decodeChar (size i j : ℕ) (out : List UInt8) (c : UInt8) : Option (ℕ × List UInt8) :=
  match i &&& 3 with
  | 0 => do
    let out ← store size out j (c <<< 2)
    some (j, out)
  | 1 => do
    let out ← storeOr size out j ((c >>> 4) &&& 0x3)
    let out ← store size out (j + 1) ((c &&& 0xF) <<< 4)
    some (j + 1, out)
  | 2 => do
    let out ← storeOr size out j ((c >>> 2) &&& 0xF)
    let out ← store size out (j + 1) ((c &&& 0x3) <<< 6)
    some (j + 1, out)
  | _ => do
    let out ← storeOr size out j c
    some (j + 1, out)

/-- The loop of `fromBase64` over what is left of the input: `j` and what is in memory, or nothing
    where it returns an empty string.  It fails where it reads behind the table or writes behind the
    bytes that were reserved. -/
def decodeLoop (size : ℕ) : List UInt8 → ℕ → ℕ → List UInt8 → Option (Option (ℕ × List UInt8))
  | [], _, j, out => some (some (j, out))
  | ch₁ :: s, i, j, out =>
    if ch₁.toInt8 > (ch 'z').toInt8 then some none
    else do
      let c ← base64de[ch₁.toNat]?
      if c = 255 then
        if ch₁ = ch '=' then some (some (j, out)) else some none
      else do
        let (j, out) ← decodeChar size i j out c
        decodeLoop size s (i + 1) j out

section

variable (memory : ℕ → ℕ → UInt8) (behind : ℕ → Behind)

/-- `return String()`, where the variable `result` is there -/
def State.returnEmpty (s : State) (result : ℕ) : Option State := do
  let s ← step memory s (.destroy result)
  step memory s (.construct result .default)

/-- What `fromBase64` returns after its loop; `result` is in `block`. -/
def State.returnDecoded (s : State) (result block : ℕ) : Option (ℕ × List UInt8) → Option State
  | none => s.returnEmpty memory result
  | some (j, str) => do
    let heap ← edit s.heap block fun content => some { content with str }
    step memory ⟨heap, s.vars⟩ (.op result (.resize j))

/-- `fromBase64`; the string that is returned is a new variable behind the others. -/
def State.fromBase64 (s : State) (x : ℕ) : Option State := do
  let result := s.vars.length
  let s ← step memory ⟨s.heap, s.vars ++ [none]⟩ (.construct result .default)
  let data ← s.get x
  let inlen ← lenOf s.heap data
  if inlen &&& 0x3 ≠ 0 then s.returnEmpty memory result
  else do
    let s ← step memory s (.op result (.reserve inlen))
    -- `operator char*` of the result, and `operator const char*` of the input
    let s ← step memory s (.op result .detach)
    let out ← s.get result
    let (s, str) ← s.constChars memory behind x
    let str ← memoryOf s.heap (behind x) str
    let bytes ← take str inlen
    let .block block := out | none
    let b ← s.heap.get? block
    let done ← decodeLoop inlen bytes 0 0 b.content.str
    s.returnDecoded memory result block done

end

/-! ## The table -/

lemma base64de_alphabet : ∀ c ∈ alphabet, ¬ c.toInt8 > (ch 'z').toInt8 ∧
    base64de[c.toNat]? = some (sextet c) ∧ sextet c ≠ 255 :=
  forall_mem_of_all (by decide +kernel)

lemma base64de_other : ∀ c,
    (c < 0x80 ∧ (c.toInt8 > (ch 'z').toInt8 ∨ base64de[c.toNat]? = some 255)) ∨
      (0x80 ≤ c ∧ ¬ c.toInt8 > (ch 'z').toInt8 ∧ base64de[c.toNat]? = none) ∨ c ∈ alphabet :=
  forall_byte (by decide +kernel)

/-! ## The loop -/

variable {size i : ℕ} {s out a : List UInt8} {c b v : UInt8}

/-- A character of the alphabet -/
lemma decodeLoop_char (hc : c ∈ alphabet) {j : ℕ} : decodeLoop size (c :: s) i j out =
    (decodeChar size i j out (sextet c)).bind fun r => decodeLoop size s (i + 1) r.1 r.2 := by
  obtain ⟨hlow, htable, hvalue⟩ := base64de_alphabet c hc
  rw [decodeLoop, if_neg hlow, htable]
  simp only [Option.bind_eq_bind, Option.bind_some, if_neg hvalue]

/-- Any other one ends the loop. -/
lemma decodeLoop_stop (hc : c ∉ alphabet) {j : ℕ} : decodeLoop size (c :: s) i j out =
    if c = ch '=' then some (some (j, out)) else if c < 0x80 then some none else none := by
  have hequals : base64de[(ch '=').toNat]? = some 255 ∧ ¬ (ch '=').toInt8 > (ch 'z').toInt8 := by
    decide
  by_cases heq : c = ch '='
  · subst heq
    rw [decodeLoop, if_neg hequals.2, hequals.1, if_pos rfl]
    rfl
  rw [if_neg heq]
  rcases base64de_other c with ⟨hsmall, habove | htable⟩ | ⟨hlarge, hlow, htable⟩ | hmem
  · rw [if_pos hsmall, decodeLoop, if_pos habove]
  · rw [if_pos hsmall, decodeLoop, htable]
    simp [heq]
  · rw [if_neg (UInt8.not_lt.mpr hlarge), decodeLoop, if_neg hlow, htable]
    rfl
  · exact absurd hmem hc

lemma store_eq (ha : a <+: out) (hroom : a.length < size) (hsize : size ≤ out.length) (c : UInt8) :
    ∃ out', store size out a.length c = some out' ∧ out'.length = out.length ∧ a ++ [c] <+: out' := by
  obtain ⟨rest, rfl⟩ := ha
  rw [List.length_append] at hsize
  obtain ⟨d, rest, rfl⟩ := List.exists_cons_of_length_pos (show 0 < rest.length by omega)
  refine ⟨_, if_pos hroom, List.length_set, ?_⟩
  rw [List.set_append_right _ _ (Nat.le_refl _), Nat.sub_self, List.set_cons_zero,
    List.prefix_append_right_inj]
  exact List.cons_prefix_cons.mpr ⟨rfl, List.nil_prefix⟩

lemma storeOr_eq (ha : a ++ [b] <+: out) (hroom : a.length < size) (hsize : size ≤ out.length)
    (c : UInt8) : ∃ out', storeOr size out a.length c = some out' ∧ out'.length = out.length ∧
      a ++ [b ||| c] <+: out' := by
  have hget : out[a.length]? = some b := by
    obtain ⟨rest, rfl⟩ := ha
    simp
  obtain ⟨out', hstore, hlength, hbegins⟩ :=
    store_eq ((List.prefix_append a [b]).trans ha) hroom hsize (b ||| c)
  exact ⟨out', by rw [storeOr, hget, Option.bind_eq_bind, Option.bind_some, hstore], hlength, hbegins⟩

/-- The first value of a group -/
lemma decodeChar_first (hi : i &&& 3 = 0) (ha : a <+: out) (hroom : a.length < size)
    (hsize : size ≤ out.length) (v : UInt8) : ∃ out', decodeChar size i a.length out v =
      some (a.length, out') ∧ out'.length = out.length ∧ a ++ [v <<< 2] <+: out' := by
  obtain ⟨out', hstore, hlength, hbegins⟩ := store_eq ha hroom hsize (v <<< 2)
  exact ⟨out', by simp [decodeChar, hi, hstore], hlength, hbegins⟩

/-- The second and the third value: bits are added to a byte, and others begin the next one. -/
lemma store_next (ha : a ++ [b] <+: out) (hroom : a.length + 1 < size) (hsize : size ≤ out.length)
    (c d : UInt8) : ∃ out', (do
        let out ← storeOr size out a.length c
        let out ← store size out (a.length + 1) d
        some (a.length + 1, out)) = some (a.length + 1, out') ∧ out'.length = out.length ∧
      a ++ [b ||| c, d] <+: out' := by
  obtain ⟨out₁, hor, hlength₁, hbegins₁⟩ := storeOr_eq ha (by omega) hsize c
  obtain ⟨out₂, hstore, hlength₂, hbegins₂⟩ := store_eq hbegins₁
    (show _ < size by rw [List.length_append]; exact hroom) (hlength₁ ▸ hsize) d
  rw [List.length_append, List.length_singleton] at hstore
  rw [List.append_assoc] at hbegins₂
  exact ⟨out₂, by simp [hor, hstore], hlength₂.trans hlength₁, hbegins₂⟩

lemma decodeChar_second (hi : i &&& 3 = 1) (ha : a ++ [b] <+: out) (hroom : a.length + 1 < size)
    (hsize : size ≤ out.length) (v : UInt8) : ∃ out', decodeChar size i a.length out v =
      some (a.length + 1, out') ∧ out'.length = out.length ∧
        a ++ [b ||| ((v >>> 4) &&& 0x3), (v &&& 0xF) <<< 4] <+: out' := by
  obtain ⟨out', hrun, hlength, hbegins⟩ :=
    store_next ha hroom hsize ((v >>> 4) &&& 0x3) ((v &&& 0xF) <<< 4)
  exact ⟨out', by rw [decodeChar, hi]; exact hrun, hlength, hbegins⟩

lemma decodeChar_third (hi : i &&& 3 = 2) (ha : a ++ [b] <+: out) (hroom : a.length + 1 < size)
    (hsize : size ≤ out.length) (v : UInt8) : ∃ out', decodeChar size i a.length out v =
      some (a.length + 1, out') ∧ out'.length = out.length ∧
        a ++ [b ||| ((v >>> 2) &&& 0xF), (v &&& 0x3) <<< 6] <+: out' := by
  obtain ⟨out', hrun, hlength, hbegins⟩ :=
    store_next ha hroom hsize ((v >>> 2) &&& 0xF) ((v &&& 0x3) <<< 6)
  exact ⟨out', by rw [decodeChar, hi]; exact hrun, hlength, hbegins⟩

/-- The fourth value -/
lemma decodeChar_fourth (hi : i &&& 3 = 3) (ha : a ++ [b] <+: out) (hroom : a.length < size)
    (hsize : size ≤ out.length) (v : UInt8) : ∃ out', decodeChar size i a.length out v =
      some (a.length + 1, out') ∧ out'.length = out.length ∧ a ++ [b ||| v] <+: out' := by
  obtain ⟨out', hor, hlength, hbegins⟩ := storeOr_eq ha hroom hsize v
  exact ⟨out', by simp [decodeChar, hi, hor], hlength, hbegins⟩

/-! ## Groups -/

/-- Shifts and masks of a value -/
lemma value_bits : ∀ v : UInt8, v < 64 → v <<< 2 = v * 4 ∧ (v >>> 4) &&& 0x3 = v / 16 ∧
    (v &&& 0xF) <<< 4 = v % 16 * 16 ∧ (v >>> 2) &&& 0xF = v / 4 ∧ (v &&& 0x3) <<< 6 = v % 4 * 64 :=
  forall_byte (by decide +kernel)

/-- Bits that do not overlap are added. -/
lemma or_eq_add {x y : UInt8} (k : ℕ) (hx : x.toNat % 2 ^ k = 0) (hy : y.toNat < 2 ^ k) :
    x ||| y = x + y := by
  have hshift := Nat.shiftLeft_add_eq_or_of_lt hy (x.toNat / 2 ^ k)
  rw [Nat.shiftLeft_eq, Nat.div_mul_cancel (Nat.dvd_of_mod_eq_zero hx), ← UInt8.toNat_or] at hshift
  rw [← UInt8.toNat_inj, UInt8.toNat_add, hshift, Nat.mod_eq_of_lt (x ||| y).toNat_lt]

/-- The bytes of a group -/
lemma group_bytes {v₁ v₂ v₃ v₄ : UInt8} (h₁ : v₁ < 64) (h₂ : v₂ < 64) (h₃ : v₃ < 64) (h₄ : v₄ < 64) :
    v₁ <<< 2 ||| ((v₂ >>> 4) &&& 0x3) = v₁ * 4 + v₂ / 16 ∧
      (v₂ &&& 0xF) <<< 4 ||| ((v₃ >>> 2) &&& 0xF) = v₂ % 16 * 16 + v₃ / 4 ∧
        (v₃ &&& 0x3) <<< 6 ||| v₄ = v₃ % 4 * 64 + v₄ := by
  obtain ⟨hhigh₁, -⟩ := value_bits v₁ h₁
  obtain ⟨-, hlow₂, hhigh₂, -⟩ := value_bits v₂ h₂
  obtain ⟨-, -, -, hlow₃, hhigh₃⟩ := value_bits v₃ h₃
  rw [hhigh₁, hlow₂, hhigh₂, hlow₃, hhigh₃]
  simp only [UInt8.lt_iff_toNat_lt, UInt8.reduceToNat] at h₁ h₂ h₃ h₄
  refine ⟨or_eq_add 2 ?_ ?_, or_eq_add 4 ?_ ?_, or_eq_add 6 ?_ ?_⟩
  · simp only [UInt8.toNat_mul, UInt8.reduceToNat]
    omega
  · simp only [UInt8.toNat_div, UInt8.reduceToNat]
    omega
  · simp only [UInt8.toNat_mul, UInt8.toNat_mod, UInt8.reduceToNat]
    omega
  · simp only [UInt8.toNat_div, UInt8.reduceToNat]
    omega
  · simp only [UInt8.toNat_mul, UInt8.toNat_mod, UInt8.reduceToNat]
    omega
  · exact h₄

lemma and_three (n : ℕ) : n &&& 3 = n % 4 := Nat.and_two_pow_sub_one_eq_mod n 2

variable {c₁ c₂ c₃ c₄ : UInt8}

lemma run_one (h₁ : c₁ ∈ alphabet) (hi : i % 4 = 0) (ha : a <+: out) (hroom : a.length < size)
    (hsize : size ≤ out.length) : ∃ out', decodeLoop size (c₁ :: s) i a.length out =
      decodeLoop size s (i + 1) a.length out' ∧ out'.length = out.length ∧
        a ++ [sextet c₁ <<< 2] <+: out' := by
  obtain ⟨out', hchar, hlength, hbegins⟩ :=
    decodeChar_first ((and_three i).trans hi) ha hroom hsize (sextet c₁)
  exact ⟨out', by rw [decodeLoop_char h₁, hchar, Option.bind_some], hlength, hbegins⟩

lemma run_two (h₁ : c₁ ∈ alphabet) (h₂ : c₂ ∈ alphabet) (hi : i % 4 = 0) (ha : a <+: out)
    (hroom : a.length + 1 < size) (hsize : size ≤ out.length) : ∃ out',
      decodeLoop size (c₁ :: c₂ :: s) i a.length out =
        decodeLoop size s (i + 2) (a.length + 1) out' ∧ out'.length = out.length ∧
          a ++ [sextet c₁ * 4 + sextet c₂ / 16, (sextet c₂ &&& 0xF) <<< 4] <+: out' := by
  obtain ⟨out₁, hrun, hlength₁, hbegins₁⟩ :=
    run_one (s := c₂ :: s) h₁ hi ha (Nat.lt_of_succ_lt hroom) hsize
  obtain ⟨out₂, hchar, hlength₂, hbegins₂⟩ := decodeChar_second (i := i + 1)
    (by rw [and_three]; omega) hbegins₁ hroom (hlength₁ ▸ hsize) (sextet c₂)
  rw [(group_bytes (sextet_lt h₁) (sextet_lt h₂) (sextet_lt h₂) (sextet_lt h₂)).1] at hbegins₂
  refine ⟨out₂, ?_, hlength₂.trans hlength₁, hbegins₂⟩
  rw [hrun, decodeLoop_char h₂, hchar, Option.bind_some]

lemma run_three (h₁ : c₁ ∈ alphabet) (h₂ : c₂ ∈ alphabet) (h₃ : c₃ ∈ alphabet) (hi : i % 4 = 0)
    (ha : a <+: out) (hroom : a.length + 2 < size) (hsize : size ≤ out.length) : ∃ out',
      decodeLoop size (c₁ :: c₂ :: c₃ :: s) i a.length out =
        decodeLoop size s (i + 3) (a.length + 2) out' ∧ out'.length = out.length ∧
          a ++ [sextet c₁ * 4 + sextet c₂ / 16, sextet c₂ % 16 * 16 + sextet c₃ / 4] ++
            [(sextet c₃ &&& 0x3) <<< 6] <+: out' := by
  obtain ⟨out₁, hrun, hlength₁, hbegins₁⟩ :=
    run_two (s := c₃ :: s) h₁ h₂ hi ha (Nat.lt_of_succ_lt hroom) hsize
  rw [List.append_cons] at hbegins₁
  have hlast : (a ++ [sextet c₁ * 4 + sextet c₂ / 16]).length = a.length + 1 := List.length_append
  obtain ⟨out₂, hchar, hlength₂, hbegins₂⟩ := decodeChar_third (i := i + 2)
    (by rw [and_three]; omega) hbegins₁ (show _ < size by rw [hlast]; exact hroom) (hlength₁ ▸ hsize) (sextet c₃)
  rw [(group_bytes (sextet_lt h₁) (sextet_lt h₂) (sextet_lt h₃) (sextet_lt h₃)).2.1] at hbegins₂
  rw [hlast] at hchar
  refine ⟨out₂, ?_, hlength₂.trans hlength₁, by simpa using hbegins₂⟩
  rw [hrun, decodeLoop_char h₃, hchar, Option.bind_some]

lemma run_four (h₁ : c₁ ∈ alphabet) (h₂ : c₂ ∈ alphabet) (h₃ : c₃ ∈ alphabet) (h₄ : c₄ ∈ alphabet)
    (hi : i % 4 = 0) (ha : a <+: out) (hroom : a.length + 2 < size) (hsize : size ≤ out.length) :
    ∃ out', decodeLoop size (c₁ :: c₂ :: c₃ :: c₄ :: s) i a.length out =
        decodeLoop size s (i + 4) (a.length + 3) out' ∧ out'.length = out.length ∧
          a ++ octets [sextet c₁, sextet c₂, sextet c₃, sextet c₄] <+: out' := by
  obtain ⟨out₁, hrun, hlength₁, hbegins₁⟩ :=
    run_three (s := c₄ :: s) h₁ h₂ h₃ hi ha hroom hsize
  have hlast : (a ++ [sextet c₁ * 4 + sextet c₂ / 16, sextet c₂ % 16 * 16 + sextet c₃ / 4]).length =
      a.length + 2 := List.length_append
  obtain ⟨out₂, hchar, hlength₂, hbegins₂⟩ := decodeChar_fourth (i := i + 3)
    (by rw [and_three]; omega) hbegins₁ (show _ < size by rw [hlast]; exact hroom) (hlength₁ ▸ hsize) (sextet c₄)
  rw [(group_bytes (sextet_lt h₁) (sextet_lt h₂) (sextet_lt h₃) (sextet_lt h₄)).2.2] at hbegins₂
  rw [hlast] at hchar
  refine ⟨out₂, ?_, hlength₂.trans hlength₁, by simpa [octets] using hbegins₂⟩
  rw [hrun, decodeLoop_char h₄, hchar, Option.bind_some]

/-- **Characters of the alphabet** are decoded, up to the bits that do not make a byte. -/
theorem decodeLoop_run {p : List UInt8} (hp : ∀ c ∈ p, c ∈ alphabet) (hi : i % 4 = 0)
    (ha : a <+: out) (hroom : a.length + p.length ≤ size) (hsize : size ≤ out.length) :
    ∃ i' out', decodeLoop size (p ++ s) i a.length out =
        decodeLoop size s i' (a ++ octets (p.map sextet)).length out' ∧
      a ++ octets (p.map sextet) <+: out' ∧ out'.length = out.length := by
  induction p using Base64.octets.induct generalizing i a out with
  | case1 c₁ c₂ c₃ c₄ p ih =>
    simp only [List.forall_mem_cons, List.length_cons] at hp hroom
    obtain ⟨h₁, h₂, h₃, h₄, hp⟩ := hp
    obtain ⟨out₁, hrun, hlength₁, hbegins₁⟩ :=
      run_four (s := p ++ s) h₁ h₂ h₃ h₄ hi ha (by omega) hsize
    have hlast : (a ++ octets [sextet c₁, sextet c₂, sextet c₃, sextet c₄]).length =
        a.length + 3 := List.length_append
    obtain ⟨i', out', hrest, hbegins, hlength⟩ := ih (i := i + 4) hp (by omega) hbegins₁
      (by rw [hlast]; omega) (hlength₁ ▸ hsize)
    rw [hlast] at hrest
    refine ⟨i', out', ?_, ?_, hlength.trans hlength₁⟩
    · simp only [List.cons_append, hrun, hrest, List.append_assoc]
      rfl
    · rw [List.append_assoc] at hbegins
      exact hbegins
  | case2 c₁ c₂ c₃ =>
    simp only [List.forall_mem_cons, List.length_cons, List.length_nil] at hp hroom
    obtain ⟨h₁, h₂, h₃, -⟩ := hp
    obtain ⟨out₁, hrun, hlength₁, hbegins₁⟩ := run_three (s := s) h₁ h₂ h₃ hi ha (by omega) hsize
    refine ⟨i + 3, out₁, ?_, (List.prefix_append _ _).trans hbegins₁, hlength₁⟩
    exact hrun.trans (by rw [List.length_append]; rfl)
  | case3 c₁ c₂ =>
    simp only [List.forall_mem_cons, List.length_cons, List.length_nil] at hp hroom
    obtain ⟨h₁, h₂, -⟩ := hp
    obtain ⟨out₁, hrun, hlength₁, hbegins₁⟩ := run_two (s := s) h₁ h₂ hi ha (by omega) hsize
    rw [List.append_cons] at hbegins₁
    refine ⟨i + 2, out₁, ?_, (List.prefix_append _ _).trans hbegins₁, hlength₁⟩
    exact hrun.trans (by rw [List.length_append]; rfl)
  | case4 c₁ =>
    simp only [List.forall_mem_cons, List.length_cons, List.length_nil] at hp hroom
    obtain ⟨out₁, hrun, hlength₁, hbegins₁⟩ := run_one (s := s) hp.1 hi ha (by omega) hsize
    refine ⟨i + 1, out₁, ?_, ?_, hlength₁⟩
    · exact hrun.trans (by rw [List.length_append]; rfl)
    · rw [List.map_cons, List.map_nil, octets, List.append_nil]
      exact (List.prefix_append _ _).trans hbegins₁
  | case5 => exact ⟨i, out, by simp [octets], by simpa [octets] using ha, rfl⟩

/-! ## Whole inputs -/

/-- What the loop comes to where it finds no character of the alphabet -/
def finish {β : Type} (rest : List UInt8) (done : β) : Option (Option β) :=
  match rest with
  | [] => some (some done)
  | c :: _ => if c = ch '=' then some (some done) else if c < 0x80 then some none else none

/-- **The loop**, over an input that begins with characters of the alphabet -/
theorem decodeLoop_eq {p rest : List UInt8} (hp : ∀ c ∈ p, c ∈ alphabet)
    (hrest : ∀ c ∈ rest.head?, c ∉ alphabet) (hsize : p.length ≤ size) (hout : size ≤ out.length) :
    ∃ out', decodeLoop size (p ++ rest) 0 0 out =
        finish rest ((octets (p.map sextet)).length, out') ∧
      octets (p.map sextet) <+: out' ∧ out'.length = out.length := by
  obtain ⟨i, out', hrun, hbegins, hlength⟩ := decodeLoop_run (s := rest) (i := 0) (a := []) hp rfl
    List.nil_prefix (by rw [List.length_nil, Nat.zero_add]; exact hsize) hout
  rw [List.nil_append] at hrun hbegins
  refine ⟨out', ?_, hbegins, hlength⟩
  rw [List.length_nil] at hrun
  rw [hrun]
  cases rest with
  | nil => rfl
  | cons c rest => exact decodeLoop_stop (hrest c rfl)

/-- The bytes of the string that is returned, if the function returns -/
def decoded (v : List UInt8) : Option (List UInt8) :=
  if v.length % 4 = 0 then
    (finish (v.dropWhile (· ∈ alphabet)) (octets ((v.takeWhile (· ∈ alphabet)).map sextet))).map
      (·.getD [])
  else some []

/-! ## The result -/

variable (memory : ℕ → ℕ → UInt8) {behind : ℕ → Behind} {st st' : State} {x r data : ℕ} {d : Data}

/-- A variable has a block that no other string points to. -/
structure State.Owns (s : State) (r data : ℕ) (d : Data) : Prop where
  get : s.get r = some (.block data)
  block : s.heap.get? data = some ⟨1, d⟩

lemma State.set_self {c : Cell} (hr : st.get r = some c) : st.vars.set r (some c) = st.vars := by
  have hvar := State.vars_of_get hr
  obtain ⟨hlt, hget⟩ := List.getElem?_eq_some_iff.mp hvar
  rw [← hget, List.set_getElem_self]

/-- The block is changed. -/
lemma State.Owns.change (ho : st.Owns r data d) (hs : st.Sound) {heap : Heap Data} {d' : Data}
    (hb : heap.get? data = some ⟨1, d'⟩) (hs' : heap.Sound (data :: st.rest r)) (hwf : Wf heap)
    (hkeep : Heap.Keeps (st.rest r) st.heap heap) :
    st.Leaves r ⟨heap, st.vars⟩ ∧ State.Owns ⟨heap, st.vars⟩ r data d' := by
  have hleaves := hs.leaves (some (.block data)) (State.vars_of_get ho.get) hs' hwf hkeep
  rw [State.set_self ho.get] at hleaves
  exact ⟨hleaves, ho.get, hb⟩

/-- It is kept by `detach` if it is large enough. -/
lemma State.Owns.detach (ho : st.Owns r data d) (hs : st.Sound) {n : ℕ} (hroom : n ≤ d.capacity) :
    ∃ heap str, Strings.detach memory st.heap (.block data) n n = some (heap, data) ∧
      st.Leaves r ⟨heap, st.vars⟩ ∧ State.Owns ⟨heap, st.vars⟩ r data { d with str, len := n } ∧
        ∀ a : List UInt8, a <+: d.str → a.length ≤ n → a <+: str := by
  obtain ⟨heap, str, hrun, hb, -, hbegins, hs', hwf, hkeep⟩ :=
    detach_here memory (hs.roots ho.get) hs.wf ho.block (Nat.le_refl n) hroom
  obtain ⟨hleaves, ho'⟩ := ho.change hs hb hs' hwf hkeep
  exact ⟨heap, str, hrun, hleaves, ho', hbegins⟩

/-- `reserve` gives an empty string such a block. -/
lemma State.Sound.reserve (hs : st.Sound) (hr : st.get r = some .empty) (n : ℕ) :
    ∃ st' data d, step memory st (.op r (.reserve n)) = some st' ∧ st.Leaves r st' ∧
      st'.Owns r data d ∧ d.len = 0 ∧ n ≤ d.capacity := by
  have hvar := State.vars_of_get hr
  obtain ⟨heap, data, d, hrun, hb, hlen, hroom, -, hs', hwf, hkeep⟩ :=
    detach_spec memory (hs.roots hr) hs.wf (Nat.zero_le n)
  refine ⟨⟨heap, st.vars.set r (some (.block data))⟩, data, d, ?_, hs.leaves _ hvar hs' hwf hkeep,
    ⟨State.get_set _ hvar, hb⟩, hlen, hroom⟩
  simp [step, hr, Op.run, Strings.reserve, lenOf, hrun]

lemma State.Owns.unshared (ho : st.Owns r data d) (hs : st.Sound) {k : ℕ} (hk : k ≠ r) :
    st.get k ≠ some (.block data) := fun hget =>
  ((hs.roots ho.get).unshared ho.block rfl).1
    (Heap.mem_roots_of_ne hk (State.vars_of_get hget) (List.mem_singleton_self data))

/-- `detach()` of another string does not touch it. -/
lemma State.Owns.detach_other (ho : st.Owns r data d) (hs : st.Sound) (hne : x ≠ r)
    (h : step memory st (.op x .detach) = some st') : st'.Owns r data d := by
  have hleaves : st.Leaves x st' := hs.leaves_of_step memory h
  have hget' : st'.get r = some (.block data) := (hleaves.get r (Ne.symm hne)).trans ho.get
  obtain ⟨v, hv⟩ := hleaves.sound.value hget'
  have hfits : (Cell.block data).Fits st'.heap v.length := by
    by_contra hnot
    obtain ⟨k, hk, hother⟩ := hleaves.sound.shared hv hget' hnot
    by_cases hkx : k = x
    · -- the other string has a block of its own now
      subst hkx
      have hlive : ∃ this, st.get k = some this := by
        rw [← Option.ne_none_iff_exists']
        intro hnone
        rw [step, hnone] at h
        obtain rfl := Option.some.inj h
        exact absurd (hnone.symm.trans hother) (Option.some_ne_none _).symm
      obtain ⟨this, hthis⟩ := hlive
      obtain ⟨u, hu⟩ := hs.value hthis
      obtain ⟨this', hthis', hshows⟩ := hs.value_iff.mp hu
      obtain rfl := Option.some.inj (hthis.symm.trans hthis')
      obtain ⟨data', hdetach, hnew⟩ := get_detached memory hthis h
      obtain ⟨h₁, data₁, d₁, hrun, hb, -⟩ :=
        detachAll_spec memory (hs.roots hthis) hs.wf hshows
      obtain ⟨rfl, rfl⟩ := Prod.mk.inj (Option.some.inj (hdetach.symm.trans hrun))
      have ho' : st'.Owns k data' d₁ := ⟨hnew, hb⟩
      exact ho'.unshared hleaves.sound (Ne.symm hk) (hget'.trans (hother.symm.trans hnew))
    · exact ho.unshared hs hk ((hleaves.get k hkx).symm.trans hother)
  obtain ⟨_, d', ⟨⟩, hb, -⟩ := hfits
  have hsame : st'.Has r (· = d) := hleaves.has r _ (Ne.symm hne) fun c hc => by
    obtain rfl := Option.some.inj (ho.get.symm.trans hc)
    exact Cell.has_block ho.block rfl
  obtain rfl : d' = d := hsame _ hget' data rfl _ hb
  exact ⟨hget', hb⟩

/-- Nor does `operator const char*`. -/
lemma State.Owns.constChars (ho : st.Owns r data d) (hs : st.Sound) (hne : x ≠ r) {c : Cell}
    (h : st.constChars memory behind x = some (st', c)) : st'.Owns r data d := by
  rcases State.constChars_of_some h with rfl | hdetach
  · exact ho
  · exact ho.detach_other memory hs hne hdetach

/-- `return String()` -/
lemma returnEmpty_spec (hs : st.Sound) {c : Cell} (hr : st.get r = some c) :
    ∃ st', st.returnEmpty memory r = some st' ∧ st.Leaves r st' ∧ st'.Value r [] := by
  obtain ⟨s₁, hdestroy, hleaves₁, -⟩ := step_spec memory hs (.destroy r)
  have hgone := State.get_destroyed memory hdestroy
  have hlt : r < s₁.vars.length := by
    rw [hleaves₁.length]
    exact State.get_lt hr
  have hvar : s₁.vars[r]? = some none := by
    rw [State.get, List.getElem?_eq_getElem hlt] at hgone
    rw [List.getElem?_eq_getElem hlt, show s₁.vars[r] = none from hgone]
  obtain ⟨s₂, hconstruct, hleaves₂, -⟩ := step_spec memory hleaves₁.sound (.construct r .default)
  refine ⟨s₂, by simp [State.returnEmpty, hdestroy, hconstruct], hleaves₁.trans hleaves₂, ?_⟩
  have hs₂ : s₂ = ⟨s₁.heap, s₁.vars.set r (some .empty)⟩ := by
    simpa [step, hvar, Init.run] using hconstruct.symm
  subst hs₂
  exact ⟨.empty, 0, [0], State.get_set _ hvar, rfl, rfl, rfl⟩

/-- The bytes of a string in a block -/
lemma State.Owns.value (ho : st.Owns r data d) {v : List UInt8} (hlen : d.len = v.length)
    (hbegins : v <+: d.str) : st.Value r v :=
  ⟨.block data, d.len, d.str, ho.get, by rw [lenOf, ho.block]; rfl, by rw [strOf, ho.block]; rfl,
    by rw [hlen]; exact List.prefix_iff_eq_take.mp hbegins⟩

/-- A string is constructed behind the others. -/
lemma push_default (hs : st.Sound) : ∃ s₁,
    step memory ⟨st.heap, st.vars ++ [none]⟩ (.construct st.vars.length .default) = some s₁ ∧
      s₁.Sound ∧ s₁.get st.vars.length = some .empty ∧ s₁.vars.length = st.vars.length + 1 ∧
      ∀ k, k ≠ st.vars.length → s₁.get k = st.get k ∧ ∀ v, st.Value k v → s₁.Value k v := by
  have hroom : (st.vars ++ [none])[st.vars.length]? = some none := by simp
  obtain ⟨s₁, hstep, hleaves, -⟩ :=
    step_spec memory (State.sound_push.mpr hs) (.construct st.vars.length .default)
  have hs₁ : s₁ = ⟨st.heap, (st.vars ++ [none]).set st.vars.length (some .empty)⟩ := by
    simpa [step, hroom, Init.run] using hstep.symm
  refine ⟨s₁, hstep, hleaves.sound, ?_, hleaves.length.trans (by simp), fun k hk => ⟨?_, ?_⟩⟩
  · rw [hs₁]
    exact State.get_set (s := ⟨st.heap, st.vars ++ [none]⟩) _ hroom
  · rw [hleaves.get k hk, State.get_push]
  · exact fun v hv => hleaves.value k v hk (State.value_push.mpr hv)

/-- The bytes that were written are those of the string that is returned. -/
lemma State.Owns.returnDecoded (ho : st.Owns r data d) (hs : st.Sound) {u str : List UInt8}
    (hbegins : u <+: str) (hlength : str.length = d.str.length) (hroom : u.length ≤ d.capacity) :
    ∃ st', st.returnDecoded memory r data (some (u.length, str)) = some st' ∧ st.Leaves r st' ∧
      st'.Value r u := by
  have hok := hs.wf data _ ho.block
  obtain ⟨heap, d', hedit, hd', hb, hs', hwf, hkeep⟩ := edit_spec
    (fun content => some { content with str }) (hs.roots ho.get) hs.wf ho.block
    ⟨_, rfl, ⟨hlength.trans hok.str, hok.len⟩⟩
  obtain rfl := Option.some.inj hd'
  obtain ⟨hleaves, ho'⟩ := ho.change hs hb hs' hwf hkeep
  obtain ⟨heap', str', hdetach, hleaves', ho'', hkept⟩ :=
    ho'.detach memory hleaves.sound (n := u.length) hroom
  refine ⟨_, ?_, hleaves.trans hleaves', ho''.value rfl (hkept u hbegins (Nat.le_refl _))⟩
  have hget : State.get ⟨heap, st.vars⟩ r = some (.block data) := ho'.get
  have hset := State.set_self hget
  simp only [State.returnDecoded, hedit, step, hget, Op.run, resize, hdetach, hset,
    Option.bind_eq_bind, Option.bind_some]

/-- **Up to the loop**: the input is read, and the result has a block with room for as many bytes. -/
lemma fromBase64_loop (behind : ℕ → Behind) (hs : st.Sound) {v : List UInt8} (hv : st.Value x v)
    (hlength : v.length % 4 = 0) : ∃ (s₁ : State) (data : ℕ) (d : Data), s₁.Sound ∧
      s₁.Owns st.vars.length data d ∧ v.length ≤ d.capacity ∧ (∀ k w, st.Value k w → k ≠ st.vars.length ∧ s₁.Value k w) ∧
      st.fromBase64 memory behind x = (decodeLoop v.length v 0 0 d.str).bind
        (s₁.returnDecoded memory st.vars.length data) := by
  obtain ⟨this, hx, hshows⟩ := hs.value_iff.mp hv
  have hfresh : ∀ k w, st.Value k w → k ≠ st.vars.length := fun k w hw => by
    obtain ⟨c, hc, -⟩ := hs.value_iff.mp hw
    exact Nat.ne_of_lt (State.get_lt hc)
  have hxr := hfresh x v hv
  obtain ⟨s₁, hpush, hs₁, hempty, -, hothers⟩ := push_default memory hs
  obtain ⟨s₂, data, d, hreserve, hleaves₂, ho₂, hlen, hroom⟩ := hs₁.reserve memory hempty v.length
  obtain ⟨heap, str, hdetach, hleaves₃, ho₃, -⟩ :=
    ho₂.detach memory hleaves₂.sound (n := 0) (Nat.zero_le _)
  have hleaves := hleaves₂.trans hleaves₃
  have hv₁ := (hothers x hxr).2 v hv
  obtain ⟨c, rest, hmemory⟩ := hleaves.sound.inMemory behind (hleaves.value x v hxr hv₁)
  obtain ⟨s₄, str', rest', hconst, hx₄, hleaves₄, hmemory₄, -⟩ :=
    constChars_spec memory hleaves.sound hmemory
  have ho₄ := ho₃.constChars memory hleaves.sound hxr hconst
  refine ⟨s₄, data, _, hleaves₄.sound, ho₄, hroom, fun k w hw => ⟨hfresh k w hw, ?_⟩, ?_⟩
  · have hw₃ := hleaves.value k w (hfresh k w hw) ((hothers k (hfresh k w hw)).2 w hw)
    exact hmemory₄.values hmemory.value hleaves₄ k w hw₃
  · have hx₁ : s₁.get x = some this := (hothers x hxr).1.trans hx
    have hlen₁ : lenOf s₁.heap this = some v.length := by
      obtain ⟨c, hc, hshows₁⟩ := hs₁.value_iff.mp hv₁
      obtain rfl := Option.some.inj (hx₁.symm.trans hc)
      exact hshows₁.1
    have hstep : step memory s₂ (.op st.vars.length .detach) = some ⟨heap, s₂.vars⟩ := by
      have hlen₂ : lenOf s₂.heap (.block data) = some 0 := by rw [lenOf, ho₂.block, ← hlen]; rfl
      simp only [step, ho₂.get, Op.run, detachAll, hlen₂, hdetach, State.set_self ho₂.get,
        Option.bind_eq_bind, Option.bind_some]
    have hmask : ¬ v.length &&& 0x3 ≠ 0 := by rw [and_three, hlength]; simp
    have htake : take (v ++ 0 :: rest') v.length = some v := take_eq (List.prefix_append v _)
    rw [State.fromBase64]
    simp only [hpush, hx₁, hlen₁, if_neg hmask, hreserve, hstep, ho₃.get, hconst,
      hmemory₄.cell hx₄, htake, ho₄.block, Option.bind_eq_bind, Option.bind_some]

/-- The loop decodes, rejects or fails. -/
lemma finish_cases (rest : List UInt8) :
    (∀ {β : Type} (done : β), finish rest done = some (some done)) ∨
      (∀ {β : Type} (done : β), finish rest done = some none) ∨
        ∀ {β : Type} (done : β), finish rest done = none := by
  cases rest with
  | nil => exact .inl fun _ => rfl
  | cons c rest =>
    by_cases heq : c = ch '='
    · exact .inl fun _ => if_pos heq
    · by_cases hsmall : c < 0x80
      · exact .inr (.inl fun _ => (if_neg heq).trans (if_pos hsmall))
      · exact .inr (.inr fun _ => (if_neg heq).trans (if_neg hsmall))

/-- **What `fromBase64` returns**, if it returns; it leaves all strings as they were. -/
theorem fromBase64_spec (behind : ℕ → Behind) (hs : st.Sound) {v : List UInt8} (hv : st.Value x v) :
    (∀ u, decoded v = some u → ∃ st', st.fromBase64 memory behind x = some st' ∧
      st'.Value st.vars.length u ∧ ∀ k w, st.Value k w → st'.Value k w) ∧
    (decoded v = none → st.fromBase64 memory behind x = none) := by
  by_cases hlength : v.length % 4 = 0
  · obtain ⟨s₁, data, d, hs₁, ho, hroom, hothers, hrun⟩ :=
      fromBase64_loop memory behind hs hv hlength
    have hsplit := List.takeWhile_append_dropWhile (p := (· ∈ alphabet)) (l := v)
    have hp : ∀ c ∈ v.takeWhile (· ∈ alphabet), c ∈ alphabet := fun c hc => by
      simpa using List.mem_takeWhile_imp hc
    have hrest : ∀ c ∈ (v.dropWhile (· ∈ alphabet)).head?, c ∉ alphabet := fun c hc => by
      simpa using not_of_mem_head_dropWhile hc
    have hstr := (hs₁.wf data _ ho.block).str
    dsimp only at hstr
    obtain ⟨out, hloop, hbegins, hout⟩ := decodeLoop_eq hp hrest
      (show _ ≤ v.length from (List.takeWhile_prefix _).length_le)
      (show v.length ≤ d.str.length by omega)
    rw [hsplit] at hloop
    rw [decoded, if_pos hlength, hrun, hloop]
    rcases finish_cases (v.dropWhile (· ∈ alphabet)) with hdone | hempty | hfail
    · rw [hdone, hdone]
      refine ⟨fun u hu => ?_, fun hnone => absurd hnone (by simp)⟩
      obtain rfl := Option.some.inj hu
      have hshort : (octets ((v.takeWhile (· ∈ alphabet)).map sextet)).length ≤ d.capacity := by
        have htake := (List.takeWhile_prefix (l := v) (· ∈ alphabet)).length_le
        rw [Base64.length_octets, List.length_map]
        omega
      obtain ⟨s₂, hreturn, hleaves, hvalue⟩ := ho.returnDecoded memory hs₁ hbegins hout hshort
      exact ⟨s₂, hreturn, hvalue, fun k w hw =>
        hleaves.value k w (hothers k w hw).1 (hothers k w hw).2⟩
    · rw [hempty, hempty]
      refine ⟨fun u hu => ?_, fun hnone => absurd hnone (by simp)⟩
      obtain rfl := Option.some.inj hu
      obtain ⟨s₂, hreturn, hleaves, hvalue⟩ := returnEmpty_spec memory hs₁ ho.get
      exact ⟨s₂, hreturn, hvalue, fun k w hw =>
        hleaves.value k w (hothers k w hw).1 (hothers k w hw).2⟩
    · rw [hfail, hfail]
      exact ⟨fun u hu => absurd hu (by simp), fun _ => rfl⟩
  · rw [decoded, if_neg hlength]
    refine ⟨fun u hu => ?_, fun hnone => absurd hnone (by simp)⟩
    obtain rfl := Option.some.inj hu
    obtain ⟨this, hx, hshows⟩ := hs.value_iff.mp hv
    obtain ⟨s₁, hpush, hs₁, hempty, -, hothers⟩ := push_default memory hs
    obtain ⟨s₂, hreturn, hleaves, hvalue⟩ := returnEmpty_spec memory hs₁ hempty
    have hxr : x ≠ st.vars.length := Nat.ne_of_lt (State.get_lt hx)
    obtain ⟨c, hc, hshows₁⟩ := hs₁.value_iff.mp ((hothers x hxr).2 v hv)
    have hmask : v.length &&& 0x3 ≠ 0 := by rw [and_three]; exact hlength
    refine ⟨s₂, ?_, hvalue, fun k w hw => ?_⟩
    · simp only [State.fromBase64, hpush, hc, hshows₁.1, if_pos hmask, hreturn, Option.bind_eq_bind,
        Option.bind_some]
    · obtain ⟨c, hc, -⟩ := hs.value_iff.mp hw
      have hk : k ≠ st.vars.length := Nat.ne_of_lt (State.get_lt hc)
      exact hleaves.value k w hk ((hothers k hk).2 w hw)

/-! ## The theorems -/

/-- The characters of the alphabet at the beginning of an input, and what is behind them -/
lemma decoded_append {p rest : List UInt8} (hp : ∀ c ∈ p, c ∈ alphabet)
    (hrest : ∀ c ∈ rest.head?, c ∉ alphabet) (hlength : (p ++ rest).length % 4 = 0) :
    decoded (p ++ rest) = (finish rest (octets (p.map sextet))).map (·.getD []) := by
  have hall : ∀ c ∈ p, decide (c ∈ alphabet) = true := fun c hc => by simpa using hp c hc
  have hstop : rest.takeWhile (· ∈ alphabet) = [] ∧ rest.dropWhile (· ∈ alphabet) = rest := by
    cases rest with
    | nil => exact ⟨rfl, rfl⟩
    | cons c rest =>
      have hc : ¬ decide (c ∈ alphabet) = true := by simpa using hrest c rfl
      exact ⟨List.takeWhile_cons_of_neg hc, List.dropWhile_cons_of_neg hc⟩
  rw [decoded, if_pos hlength, List.takeWhile_append_of_pos hall, List.dropWhile_append_of_pos hall,
    hstop.1, hstop.2, List.append_nil]

/-- An encoding is decoded. -/
lemma decoded_encode (b : List UInt8) : decoded (Base64.encode b) = some b := by
  obtain ⟨vs, k, htext, hvs, hoctets, -, hlength⟩ := Base64.encode_eq b
  obtain ⟨hchars, hvalues⟩ := Base64.map_char hvs
  have hrest : ∀ c ∈ (List.replicate k (ch '=')).head?, c ∉ alphabet := fun c hc => by
    obtain rfl := List.eq_of_mem_replicate (List.mem_of_head? hc)
    exact Base64.padding_not_mem
  have hfour : (vs.map Base64.char ++ List.replicate k (ch '=')).length % 4 = 0 := by
    simpa using hlength
  rw [htext, decoded_append hchars hrest hfour, hvalues, hoctets]
  cases k with
  | zero => rfl
  | succ k =>
    rw [List.replicate_succ, finish, if_pos rfl]
    rfl

/-- **Decoding an encoding.**  After any moves, whatever is behind attached strings: if a string is the
    encoding of some bytes, `fromBase64` writes nothing behind the bytes that it reserved, returns
    exactly the bytes and leaves all strings as they were. -/
theorem fromBase64_encode (behind : ℕ → Behind) (n : ℕ) (ms : List Move)
    (hs : ms.foldlM (step memory) (State.initial n) = some st) (b : List UInt8)
    (hv : st.Value x (Base64.encode b)) : ∃ st', st.fromBase64 memory behind x = some st' ∧
      st'.Value st.vars.length b ∧ ∀ k w, st.Value k w → st'.Value k w := by
  obtain ⟨s₁, hrun, hsound⟩ := State.Sound.run memory (n := n) ms
  obtain rfl := Option.some.inj (hrun.symm.trans hs)
  exact (fromBase64_spec memory behind hsound hv).1 b (decoded_encode b)

theorem fromBase64_encode_zero : ∃ s,
    [.construct 0 (.ofBytes (Base64.encode [0, 255]))].foldlM (step fun _ _ => 0)
      (State.initial 1) = some s ∧
    ∃ s', s.fromBase64 (fun _ _ => 0) (fun _ => ⟨0, []⟩) 0 = some s' ∧
      s'.Value s.vars.length [0, 255] ∧ ∀ k w, s.Value k w → s'.Value k w := by
  obtain ⟨s, hs, -⟩ := State.Sound.run (fun _ _ => 0) (n := 1)
    [.construct 0 (.ofBytes (Base64.encode [0, 255]))]
  have hv : s.Value 0 (Base64.encode [0, 255]) := by
    obtain rfl := Option.some.inj hs
    exact ⟨_, _, _, rfl, rfl, rfl, rfl⟩
  exact ⟨s, hs, fromBase64_encode _ _ 1 _ hs _ hv⟩

/-- Characters of the alphabet and at most two `=` behind them -/
structure Padded (p : List UInt8) (k : ℕ) (v : List UInt8) : Prop where
  text : v = p ++ List.replicate k (ch '=')
  chars : ∀ c ∈ p, c ∈ alphabet
  padding : k ≤ 2
  length : v.length % 4 = 0

/-- No memory is read or written that is not there; the result is empty, unless the input is padded
    base64, and then it has as many bytes as the length and the padding say. -/
def State.Strict (behind : ℕ → Behind) (s : State) (x : ℕ) (v : List UInt8) : Prop :=
  ∃ s' u, s.fromBase64 memory behind x = some s' ∧ s'.Value s.vars.length u ∧
    (u ≠ [] → ∃ p k, Padded p k v ∧ u.length = 3 * v.length / 4 - k) ∧
      ((¬ ∃ p k, Padded p k v) → u = [])

/-- It is enough to know the bytes that are returned. -/
lemma strict_iff (behind : ℕ → Behind) (hs : st.Sound) {v : List UInt8} (hv : st.Value x v) :
    st.Strict memory behind x v ↔ ∃ u, decoded v = some u ∧
      (u ≠ [] → ∃ p k, Padded p k v ∧ u.length = 3 * v.length / 4 - k) := by
  obtain ⟨hsome, hnone⟩ := fromBase64_spec memory behind hs hv
  constructor
  · rintro ⟨s', u, hrun, hu, hpadded, -⟩
    cases hdecoded : decoded v with
    | none => exact absurd (hrun.symm.trans (hnone hdecoded)) (Option.some_ne_none s')
    | some w =>
      obtain ⟨s'', hrun', hw, -⟩ := hsome w hdecoded
      obtain rfl := Option.some.inj (hrun.symm.trans hrun')
      exact ⟨w, rfl, hu.unique hw ▸ hpadded⟩
  · rintro ⟨u, hdecoded, hpadded⟩
    obtain ⟨s', hrun, hu, -⟩ := hsome u hdecoded
    refine ⟨s', u, hrun, hu, hpadded, fun hnot => ?_⟩
    by_contra hne
    obtain ⟨p, k, hp, -⟩ := hpadded hne
    exact hnot ⟨p, k, hp⟩

/-- The first byte that is not in the alphabet -/
lemma first_other {p p' rest rest' : List UInt8} {c c' : UInt8} (hp : ∀ a ∈ p, a ∈ alphabet)
    (hp' : ∀ a ∈ p', a ∈ alphabet) (hc : c ∉ alphabet) (hc' : c' ∉ alphabet)
    (h : p ++ c :: rest = p' ++ c' :: rest') : p = p' ∧ c = c' ∧ rest = rest' := by
  induction p generalizing p' with
  | nil =>
    cases p' with
    | nil =>
      obtain ⟨rfl, rfl⟩ := List.cons.inj h
      exact ⟨rfl, rfl, rfl⟩
    | cons d p' => exact absurd ((List.cons.inj h).1 ▸ hp' d List.mem_cons_self) hc
  | cons d p ih =>
    cases p' with
    | nil => exact absurd ((List.cons.inj h).1 ▸ hp d List.mem_cons_self) hc'
    | cons d' p' =>
      obtain ⟨rfl, htail⟩ := List.cons.inj h
      obtain ⟨rfl, rfl, rfl⟩ := ih (fun a ha => hp a (List.mem_cons_of_mem d ha))
        (fun a ha => hp' a (List.mem_cons_of_mem d ha)) htail
      exact ⟨rfl, rfl, rfl⟩

/-- An input that goes on behind its first `=` -/
lemma padded_iff {p rest : List UInt8} (hp : ∀ a ∈ p, a ∈ alphabet)
    (hlength : (p ++ ch '=' :: rest).length % 4 = 0) :
    (octets (p.map sextet) ≠ [] → ∃ p' k, Padded p' k (p ++ ch '=' :: rest) ∧
      (octets (p.map sextet)).length = 3 * (p ++ ch '=' :: rest).length / 4 - k) ↔
        (p.length ≤ 1 ∨ rest = [] ∨ rest = [ch '=']) := by
  have hoctets : (octets (p.map sextet)).length = p.length * 3 / 4 := by
    rw [Base64.length_octets, List.length_map]
  have hother : ch '=' ∉ alphabet := Base64.padding_not_mem
  rw [List.length_append, List.length_cons] at hlength
  constructor
  · intro h
    by_cases hshort : p.length ≤ 1
    · exact .inl hshort
    have hne : octets (p.map sextet) ≠ [] := by
      rw [← List.length_pos_iff, hoctets]
      omega
    obtain ⟨p', k, hpadded, -⟩ := h hne
    have htext := hpadded.text
    cases k with
    | zero =>
      have hmem : ch '=' ∈ p ++ ch '=' :: rest := List.mem_append_right _ List.mem_cons_self
      rw [htext, List.replicate_zero, List.append_nil] at hmem
      exact absurd (hpadded.chars _ hmem) hother
    | succ k =>
      obtain ⟨-, -, rfl⟩ := first_other hp hpadded.chars hother hother htext
      have hk := hpadded.padding
      obtain rfl | rfl : k = 0 ∨ k = 1 := by omega
      · exact .inr (.inl rfl)
      · exact .inr (.inr rfl)
  · rintro (hshort | rfl | rfl) hne
    · rw [← List.length_pos_iff, hoctets] at hne
      omega
    · refine ⟨p, 1, ⟨rfl, hp, by decide, by simpa using hlength⟩, ?_⟩
      rw [List.length_nil] at hlength
      rw [hoctets, List.length_append, List.length_cons, List.length_nil]
      omega
    · refine ⟨p, 2, ⟨rfl, hp, by decide, by simpa using hlength⟩, ?_⟩
      rw [List.length_singleton] at hlength
      rw [hoctets, List.length_append, List.length_cons, List.length_singleton]
      omega

/-- **The inputs** that are rejected as they should be, by their first byte that is not in the alphabet -/
lemma decoded_iff (v : List UInt8) :
    (∃ u, decoded v = some u ∧
      (u ≠ [] → ∃ p k, Padded p k v ∧ u.length = 3 * v.length / 4 - k)) ↔
    (v.length % 4 = 0 → ∀ p c rest, v = p ++ c :: rest → (∀ a ∈ p, a ∈ alphabet) → c ∉ alphabet →
      c < 0x80 ∧ (c = ch '=' → p.length ≤ 1 ∨ rest = [] ∨ rest = [ch '='])) := by
  by_cases hlength : v.length % 4 = 0
  swap
  · have hempty : decoded v = some [] := if_neg hlength
    exact ⟨fun _ h => absurd h hlength, fun _ => ⟨[], hempty, fun hne => absurd rfl hne⟩⟩
  rw [forall_prop_of_true hlength]
  by_cases hall : ∀ c ∈ v, c ∈ alphabet
  · have hdecoded : decoded v = some (octets (v.map sextet)) := by
      have h : decoded (v ++ []) = _ :=
        decoded_append hall (by simp) (by rwa [List.append_nil])
      rwa [List.append_nil] at h
    refine ⟨fun _ p c rest hv _ hc => ?_, fun _ => ⟨_, hdecoded, fun _ => ⟨v, 0, ?_, ?_⟩⟩⟩
    · exact absurd (hall c (hv ▸ List.mem_append_right _ List.mem_cons_self)) hc
    · exact ⟨(List.append_nil v).symm, hall, by decide, hlength⟩
    · rw [Base64.length_octets, List.length_map, Nat.mul_comm, Nat.sub_zero]
  · -- there is a first one
    have hsplit := List.takeWhile_append_dropWhile (p := (· ∈ alphabet)) (l := v)
    have hp : ∀ a ∈ v.takeWhile (· ∈ alphabet), a ∈ alphabet := fun a ha => by
      simpa using List.mem_takeWhile_imp ha
    obtain ⟨c, rest, hdrop⟩ : ∃ c rest, v.dropWhile (· ∈ alphabet) = c :: rest := by
      refine List.exists_cons_of_ne_nil fun hnil => hall ?_
      rw [hnil, List.append_nil] at hsplit
      exact hsplit ▸ hp
    have hc : c ∉ alphabet := by simpa using not_of_dropWhile hdrop
    rw [hdrop] at hsplit
    generalize v.takeWhile (· ∈ alphabet) = p at hsplit hp
    subst hsplit
    have hunique : (∀ p' c' rest', p ++ c :: rest = p' ++ c' :: rest' → (∀ a ∈ p', a ∈ alphabet) →
        c' ∉ alphabet → c' < 0x80 ∧ (c' = ch '=' → p'.length ≤ 1 ∨ rest' = [] ∨ rest' = [ch '='])) ↔
          c < 0x80 ∧ (c = ch '=' → p.length ≤ 1 ∨ rest = [] ∨ rest = [ch '=']) := by
      refine ⟨fun h => h p c rest rfl hp hc, fun h p' c' rest' hv hp' hc' => ?_⟩
      obtain ⟨rfl, rfl, rfl⟩ := first_other hp hp' hc hc' hv
      exact h
    rw [hunique, decoded_append hp (by simpa using hc) hlength, finish]
    by_cases heq : c = ch '='
    · subst heq
      have hsmall : ch '=' < 0x80 := by decide
      rw [if_pos rfl, and_iff_right hsmall, forall_prop_of_true rfl, ← padded_iff hp hlength]
      simp
    · rw [if_neg heq]
      by_cases hsmall : c < 0x80
      · rw [if_pos hsmall]
        simp [heq, hsmall]
      · rw [if_neg hsmall]
        simp [hsmall]

/-- **What `fromBase64` rejects.**  After any moves, whatever is behind attached strings: all other inputs
    are rejected exactly if the first byte that is not in the alphabet, in inputs whose length is a
    multiple of four, is below 0x80, and if it is a `=`, there is at most one character in front of it
    or nothing but one more `=` behind it. -/
theorem fromBase64_strict_iff (behind : ℕ → Behind) (n : ℕ) (ms : List Move)
    (hs : ms.foldlM (step memory) (State.initial n) = some st) {v : List UInt8} (hv : st.Value x v) :
    st.Strict memory behind x v ↔ (v.length % 4 = 0 → ∀ p c rest, v = p ++ c :: rest →
      (∀ a ∈ p, a ∈ alphabet) → c ∉ alphabet →
        c < 0x80 ∧ (c = ch '=' → p.length ≤ 1 ∨ rest = [] ∨ rest = [ch '='])) := by
  obtain ⟨s₁, hrun, hsound⟩ := State.Sound.run memory (n := n) ms
  obtain rfl := Option.some.inj (hrun.symm.trans hs)
  rw [strict_iff memory behind hsound hv, decoded_iff]

theorem fromBase64_strict_iff_padded : ∃ s,
    [.construct 0 (.ofBytes (bytes "AA=="))].foldlM (step fun _ _ => 0) (State.initial 1) = some s ∧
    (s.Strict (fun _ _ => 0) (fun _ => ⟨0, []⟩) 0 (bytes "AA==") ↔
      ((bytes "AA==").length % 4 = 0 → ∀ p c rest, bytes "AA==" = p ++ c :: rest →
        (∀ a ∈ p, a ∈ alphabet) → c ∉ alphabet →
          c < 0x80 ∧ (c = ch '=' → p.length ≤ 1 ∨ rest = [] ∨ rest = [ch '=']))) := by
  obtain ⟨s, hs, -⟩ := State.Sound.run (fun _ _ => 0) (n := 1)
    [.construct 0 (.ofBytes (bytes "AA=="))]
  have hv : s.Value 0 (bytes "AA==") := by
    obtain rfl := Option.some.inj hs
    exact ⟨_, _, _, rfl, rfl, rfl, rfl⟩
  exact ⟨s, hs, fromBase64_strict_iff _ _ 1 _ hs hv⟩

/-- `"AB=C"` is decoded. -/
theorem fromBase64_unpadded : ∃ s,
    [.construct 0 (.ofBytes (bytes "AB=C"))].foldlM (step fun _ _ => 0) (State.initial 1) = some s ∧
    s.Value 0 (bytes "AB=C") ∧ decoded (bytes "AB=C") = some [0] ∧
    ¬ s.Strict (fun _ _ => 0) (fun _ => ⟨0, []⟩) 0 (bytes "AB=C") := by
  obtain ⟨s, hs, hsound⟩ := State.Sound.run (fun _ _ => 0) (n := 1)
    [.construct 0 (.ofBytes (bytes "AB=C"))]
  have hv : s.Value 0 (bytes "AB=C") := by
    obtain rfl := Option.some.inj hs
    exact ⟨_, _, _, rfl, rfl, rfl, rfl⟩
  refine ⟨s, hs, hv, by decide +kernel, fun hstrict => ?_⟩
  rw [strict_iff _ _ hsound hv, decoded_iff] at hstrict
  have hend := (hstrict rfl [ch 'A', ch 'B'] (ch '=') [ch 'C'] rfl (by decide +kernel)
    Base64.padding_not_mem).2 rfl
  exact absurd hend (by decide)

end Nstd.Strings
