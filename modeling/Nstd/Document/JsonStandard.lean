import Nstd.Document.JsonNumber
import Nstd.Document.JsonText

/-!
# Standard JSON texts

The tokens of standard JSON, in UTF-8, without halves of surrogate pairs and with integers of 64
bits for numbers, and what they stand for.

* `StandardBody` — the inside of a string: characters and escapes.
* `StandardInteger` — an integer, without a fraction or an exponent.
* `standard_byParser` — the parser reads these tokens as what they stand for.
* **`standard_text`** — it accepts every standard text, and the result is what this stands for.

The proof is by induction on the grammar: a token is read whole, so what the parser sees next is the
text behind it.
-/

namespace Nstd.Json

/-- White space of the standard -/
def isStandardSpace (c : UInt8) : Bool := c = ch ' ' ∨ c = ch '\t' ∨ c = ch '\n' ∨ c = ch '\r'

/-- The first halves of surrogate pairs -/
def HighSurrogate (w : ℕ) : Prop := 0xD800 ≤ w ∧ w ≤ 0xDBFF

/-- The second halves of surrogate pairs -/
def LowSurrogate (w : ℕ) : Prop := 0xDC00 ≤ w ∧ w ≤ 0xDFFF

/-- The character of a surrogate pair -/
def pairChar (w₁ w₂ : ℕ) : Char := Char.ofNat (0x10000 + (w₁ - 0xD800) * 0x400 + (w₂ - 0xDC00))

/-- The inside of a string, with the bytes it stands for -/
inductive StandardBody : List UInt8 → List UInt8 → Prop
  | nil : StandardBody [] []
  | char {c : Char} {s v : List UInt8} : 0x20 ≤ c.toNat → c ≠ '"' → c ≠ '\\' → StandardBody s v →
      StandardBody (String.utf8EncodeChar c ++ s) (String.utf8EncodeChar c ++ v)
  | letter {c d : UInt8} {s v : List UInt8} : (c, d) ∈ simpleEscapes → StandardBody s v →
      StandardBody (ch '\\' :: c :: s) (d :: v)
  | unit {k s v : List UInt8} : HexDigits k → ¬ HighSurrogate (hexValue k) →
      ¬ LowSurrogate (hexValue k) → StandardBody s v →
      StandardBody (ch '\\' :: ch 'u' :: (k ++ s))
        (String.utf8EncodeChar (Char.ofNat (hexValue k)) ++ v)
  | pair {k₁ k₂ s v : List UInt8} : HexDigits k₁ → HighSurrogate (hexValue k₁) → HexDigits k₂ →
      LowSurrogate (hexValue k₂) → StandardBody s v →
      StandardBody (ch '\\' :: ch 'u' :: (k₁ ++ ch '\\' :: ch 'u' :: (k₂ ++ s)))
        (String.utf8EncodeChar (pairChar (hexValue k₁) (hexValue k₂)) ++ v)

/-- A zero, or digits that do not begin with one, with their number -/
inductive StandardDigits : List UInt8 → ℕ → Prop
  | zero : StandardDigits [ch '0'] 0
  | digits {c : UInt8} {s : List UInt8} : isDigit c → c ≠ ch '0' → (∀ d ∈ s, isDigit d) →
      StandardDigits (c :: s) (digitsValue (c :: s))

/-- An integer -/
inductive StandardInteger : List UInt8 → Int → Prop
  | plain {s : List UInt8} {n : ℕ} : StandardDigits s n → StandardInteger s n
  | minus {s : List UInt8} {n : ℕ} : StandardDigits s n → StandardInteger (ch '-' :: s) (- n)

/-- A scalar that is no string, with its value: integers are `int` if they fit and `int64`
    otherwise -/
inductive StandardScalar {D : Type} : List UInt8 → Variant D → Prop
  | true : StandardScalar (bytes "true") (.bool true)
  | false : StandardScalar (bytes "false") (.bool false)
  | null : StandardScalar (bytes "null") .null
  | int {x : List UInt8} {n : Int} : StandardInteger x n → - 2 ^ 31 ≤ n → n < 2 ^ 31 →
      StandardScalar x (.int (Int32.ofInt n))
  | int64 {x : List UInt8} {n : Int} : StandardInteger x n → - 2 ^ 63 ≤ n → n < 2 ^ 63 →
      ¬ (- 2 ^ 31 ≤ n ∧ n < 2 ^ 31) → StandardScalar x (.int64 (Int64.ofInt n))

/-- The tokens of the standard -/
def standard (D : Type) : Lexis D where
  space c := isStandardSpace c
  body := StandardBody
  scalar := StandardScalar

/-! ## Code units -/

lemma hexDigitValue_lt : ∀ c, isHexDigit c → hexDigitValue c < 16 :=
  forall_byte (by decide +kernel)

lemma hexValue_lt {k : List UInt8} (hk : HexDigits k) : hexValue k < 0x10000 := by
  obtain ⟨hlen, hall⟩ := hk
  match k, hlen with
  | [a, b, c, d], _ =>
    simp only [List.mem_cons, forall_eq_or_imp, List.not_mem_nil, false_imp_iff, implies_true,
      and_true] at hall
    have ha := hexDigitValue_lt a hall.1
    have hb := hexDigitValue_lt b hall.2.1
    have hc := hexDigitValue_lt c hall.2.2.1
    have hd := hexDigitValue_lt d hall.2.2.2
    simp only [hexValue, List.foldl_cons, List.foldl_nil]
    omega

lemma and_shiftLeft (w m i : ℕ) : w &&& (m <<< i) = ((w >>> i) &&& m) <<< i := by
  apply Nat.eq_of_testBit_eq
  intro j
  by_cases h : i ≤ j
  · simp [Nat.testBit_shiftLeft, Nat.testBit_shiftRight, h, Nat.add_sub_cancel' h]
  · simp [Nat.testBit_shiftLeft, h]

/-- The first six bits of a code unit -/
lemma and_0xFC00 (w : ℕ) : w &&& 0xFC00 = w / 0x400 % 0x40 * 0x400 := by
  rw [show (0xFC00 : ℕ) = (2 ^ 6 - 1) <<< 10 from rfl, and_shiftLeft,
    Nat.and_two_pow_sub_one_eq_mod, Nat.shiftLeft_eq, Nat.shiftRight_eq_div_pow]

/-- The first five bits of a code unit -/
lemma and_0xF800 (w : ℕ) : w &&& 0xF800 = w / 0x800 % 0x20 * 0x800 := by
  rw [show (0xF800 : ℕ) = (2 ^ 5 - 1) <<< 11 from rfl, and_shiftLeft,
    Nat.and_two_pow_sub_one_eq_mod, Nat.shiftLeft_eq, Nat.shiftRight_eq_div_pow]

lemma isHighSurrogate_iff {w : ℕ} (hw : w < 0x10000) : isHighSurrogate w ↔ HighSurrogate w := by
  simp only [isHighSurrogate, HighSurrogate, and_0xFC00, and_0xF800, decide_eq_true_eq]
  omega

lemma isLowSurrogate_iff {w : ℕ} (hw : w < 0x10000) : isLowSurrogate w ↔ LowSurrogate w := by
  simp only [isLowSurrogate, LowSurrogate, and_0xFC00, decide_eq_true_eq]
  omega

lemma surrogatePair_eq {w₁ w₂ : ℕ} (h₁ : HighSurrogate w₁) (h₂ : LowSurrogate w₂) :
    surrogatePair w₁ w₂ = 0x10000 + (w₁ - 0xD800) * 0x400 + (w₂ - 0xDC00) := by
  obtain ⟨hlow₁, hhigh₁⟩ := h₁
  obtain ⟨hlow₂, hhigh₂⟩ := h₂
  have hbits : ∀ w, w &&& 0x3FF = w % 0x400 := fun w => Nat.and_two_pow_sub_one_eq_mod w 10
  have hor : (w₂ % 0x400) ||| (w₁ % 0x400) <<< 10 = (w₁ % 0x400) * 0x400 + w₂ % 0x400 := by
    rw [Nat.or_comm, ← Nat.shiftLeft_add_eq_or_of_lt (Nat.mod_lt w₂ (by decide)), Nat.shiftLeft_eq]
  rw [surrogatePair, hbits, hbits, hor]
  omega

/-- What the parser appends for a code point is the encoding of its character. -/
lemma append_code {n : ℕ} (hn : n.isValidChar) :
    Unicode.append n = String.utf8EncodeChar (Char.ofNat n) := by
  have hchar : (Char.ofNat n).toNat = n := by
    rw [Char.ofNat, dif_pos hn]
    rfl
  rw [← Unicode.append_toNat, hchar]

/-! ## The parser and the standard -/

lemma isSpace_standard : ∀ c, isStandardSpace c → isSpace c :=
  forall_byte (by decide +kernel)

lemma standardDigits_isDigit {s : List UInt8} {n : ℕ} (h : StandardDigits s n) :
    s ≠ [] ∧ (∀ c ∈ s, isDigit c) ∧ n = digitsValue s := by
  cases h with
  | zero => exact ⟨by decide, by decide +kernel, rfl⟩
  | digits hc _ hs => exact ⟨by simp, by simpa using ⟨hc, hs⟩, rfl⟩

lemma scalar_integer {D : Type} [DoubleText D] {x : List UInt8} {n : Int}
    (h : StandardInteger x n) (hlow : - 2 ^ 63 ≤ n) (hhigh : n < 2 ^ 63) :
    Scalar x (ch '#') (intVariant (D := D) n) := by
  cases h with
  | plain hd =>
    obtain ⟨hne, hs, rfl⟩ := standardDigits_isDigit hd
    exact scalar_digits hne hs (by omega)
  | minus hd =>
    obtain ⟨-, hs, rfl⟩ := standardDigits_isDigit hd
    exact scalar_minus hs (by omega)

/-- Bytes that stand for themselves -/
lemma stringBody_plain {p : List UInt8} (hp : ∀ b ∈ p, b ≠ 0 ∧ b ≠ ch '"' ∧ b ≠ ch '\\' ∧
    b ≠ ch '\r' ∧ b ≠ ch '\n') {s v : List UInt8} (h : StringBody s v) :
    StringBody (p ++ s) (p ++ v) := by
  induction p with
  | nil => exact h
  | cons b p ih =>
    obtain ⟨h₀, hquote, hback, hcr, hlf⟩ := hp b List.mem_cons_self
    exact .plain h₀ hquote hback hcr hlf (ih fun c hc => hp c (List.mem_cons_of_mem b hc))

/-- A character that stands for itself -/
lemma stringBody_char {c : Char} (hc : 0x20 ≤ c.toNat) (hquote : c ≠ '"') (hback : c ≠ '\\')
    {s v : List UInt8} (h : StringBody s v) :
    StringBody (String.utf8EncodeChar c ++ s) (String.utf8EncodeChar c ++ v) := by
  have hplain : ∀ b : UInt8, 0x20 ≤ b.toNat → b.toNat ≠ 34 → b.toNat ≠ 92 →
      b ≠ 0 ∧ b ≠ ch '"' ∧ b ≠ ch '\\' ∧ b ≠ ch '\r' ∧ b ≠ ch '\n' :=
    forall_byte (by decide +kernel)
  have hquote' : c.toNat ≠ 34 := fun h => hquote (Char.toNat_inj.mp h)
  have hback' : c.toNat ≠ 92 := fun h => hback (Char.toNat_inj.mp h)
  refine stringBody_plain (fun b hb => ?_) h
  have hbyte := Unicode.mem_utf8EncodeChar hb
  exact hplain b (by omega) (by omega) (by omega)

lemma StandardBody.stringBody {b v : List UInt8} (h : StandardBody b v) : StringBody b v := by
  induction h with
  | nil => exact .nil
  | char hc hquote hback _ ih => exact stringBody_char hc hquote hback ih
  | letter hmem _ ih => exact .escape (.simple hmem) ih
  | @unit k s v hk hhigh hlow _ ih =>
    have hw := hexValue_lt hk
    have hvalid : (hexValue k).isValidChar := by
      simp only [HighSurrogate, LowSurrogate] at hhigh hlow
      simp only [Nat.isValidChar]
      omega
    rw [← append_code hvalid]
    have hno : isHighSurrogate (hexValue k) = false := by
      simpa using mt (isHighSurrogate_iff hw).mp hhigh
    exact .escape (.unit hk hno) ih
  | @pair k₁ k₂ s v hk₁ hhigh hk₂ hlow _ ih =>
    have hyes := (isHighSurrogate_iff (hexValue_lt hk₁)).mpr hhigh
    have hyes' := (isLowSurrogate_iff (hexValue_lt hk₂)).mpr hlow
    have hvalid : (0x10000 + (hexValue k₁ - 0xD800) * 0x400 +
        (hexValue k₂ - 0xDC00)).isValidChar := by
      simp only [HighSurrogate, LowSurrogate] at hhigh hlow
      simp only [Nat.isValidChar]
      omega
    rw [pairChar, ← append_code hvalid, ← surrogatePair_eq hhigh hlow]
    have hescape := StringBody.escape (.pair hk₁ hyes hk₂ hyes') ih
    simpa using hescape

/-- **The tokens of the standard** are tokens of the parser. -/
theorem standard_byParser {D : Type} [DoubleText D] : (standard D).ByParser := by
  refine ⟨fun h => isSpace_standard _ h, fun h => h.stringBody, ?_⟩
  intro x v h
  cases h with
  | true => exact .scalar .true
  | false => exact .scalar .false
  | null => exact .scalar .null
  | int hx hlow hhigh =>
    have hscalar := scalar_integer (D := D) hx (by omega) (by omega)
    rw [intVariant, if_pos ⟨hlow, hhigh⟩] at hscalar
    exact .scalar hscalar
  | int64 hx hlow hhigh hno =>
    have hscalar := scalar_integer (D := D) hx hlow hhigh
    rw [intVariant, if_neg hno] at hscalar
    exact .scalar hscalar

/-- **Every standard text is accepted**, and the result is what it stands for. -/
theorem standard_text {D : Type} [DoubleText D] {t : List UInt8} {v : Variant D}
    (h : StrictText (standard D) t v) :
    ∃ (noNul : 0 ∉ t) (q : Private D), parse ⟨t, noNul⟩ .null = .ok (q, v) := by
  obtain ⟨noNul, q, hq, -, -⟩ := parse_strictText standard_byParser h
  exact ⟨noNul, q, hq⟩

theorem standard_text_repeated : ∃ (noNul : 0 ∉ bytes "\x7b\"a\":1,\"a\":2\x7d")
    (q : Private (List UInt8)), parse ⟨bytes "\x7b\"a\":1,\"a\":2\x7d", noNul⟩ .null =
      .ok (q, .map [(bytes "a", .int 2)]) := by
  have hkey : StandardBody (String.utf8EncodeChar 'a' ++ []) (String.utf8EncodeChar 'a' ++ []) :=
    .char (by decide) (by decide) (by decide) .nil
  have hone : StrictValue (standard (List UInt8)) [ch '1'] (.int 1) :=
    .scalar (.int (.plain (.digits (by decide) (by decide) (by simp))) (by decide) (by decide))
  have htwo : StrictValue (standard (List UInt8)) [ch '2'] (.int 2) :=
    .scalar (.int (.plain (.digits (by decide) (by decide) (by simp))) (by decide) (by decide))
  have hnil : (standard (List UInt8)).White [] := List.forall_mem_nil _
  have hvalue := StrictValue.object
    (.more hnil hkey hnil hnil hone hnil (.last hnil hkey hnil hnil htwo hnil))
  exact standard_text ⟨[], _, [], rfl, hnil, hvalue, hnil⟩

end Nstd.Json
