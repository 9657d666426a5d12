import Nstd.Document.JsonWriter

/-!
# Strings in JSON texts

* `LegalBody`, `LegalLiteral` — the string literals of RFC 8259, over bytes: what stands for itself
  is not checked to be UTF-8.
* `legalLiteral_iff` — `appendEscapedString` writes a legal literal exactly for the strings without
  a control character.
* `readBack_iff` — `Json::parse` reads back exactly the strings of one line without a NUL.
* **`escaped_iff`** — a legal literal that is read back, exactly if no byte is below 0x20.

Only a quote and a backslash are escaped, and all other bytes are written as they are.
-/

namespace Nstd.Json

/-! ## Legal literals -/

/-- The inside of a string literal, up to its UTF-8 content -/
inductive LegalBody : List UInt8 → Prop
  | nil : LegalBody []
  | unescaped {c : UInt8} {b : List UInt8} : 0x20 ≤ c → c ≠ ch '"' → c ≠ ch '\\' → LegalBody b →
      LegalBody (c :: b)
  | letter {c : UInt8} {b : List UInt8} : c ∈ bytes "\"\\/bfnrt" → LegalBody b →
      LegalBody (ch '\\' :: c :: b)
  | unit {k b : List UInt8} : HexDigits k → LegalBody b →
      LegalBody (ch '\\' :: ch 'u' :: (k ++ b))

/-- A string literal, up to its UTF-8 content -/
def LegalLiteral (t : List UInt8) : Prop := ∃ b, t = literalText b ∧ LegalBody b

lemma LegalBody.printable {b : List UInt8} (h : LegalBody b) : ∀ c ∈ b, 0x20 ≤ c := by
  have hback : 0x20 ≤ ch '\\' := by decide
  have hu : 0x20 ≤ ch 'u' := by decide
  have hletters : ∀ c ∈ bytes "\"\\/bfnrt", 0x20 ≤ c := forall_mem_of_all rfl
  have hdigits : ∀ c, isHexDigit c → 0x20 ≤ c := forall_byte (by decide +kernel)
  induction h with
  | nil => exact List.forall_mem_nil _
  | unescaped hc _ _ _ ih => exact List.forall_mem_cons.mpr ⟨hc, ih⟩
  | letter hc _ ih =>
    exact List.forall_mem_cons.mpr ⟨hback, List.forall_mem_cons.mpr ⟨hletters _ hc, ih⟩⟩
  | unit hk _ ih =>
    refine List.forall_mem_cons.mpr ⟨hback, List.forall_mem_cons.mpr ⟨hu, ?_⟩⟩
    exact List.forall_mem_append.mpr ⟨fun c hc => hdigits c (hk.2 c hc), ih⟩

/-- The escaper drops no byte. -/
lemma mem_escapeLoop {s : List UInt8} {c : UInt8} (hc : c ∈ s) : c ∈ escapeLoop s := by
  induction s with
  | nil => exact hc
  | cons d s ih =>
    rw [escapeLoop]
    split_ifs with h₀ hquote hback
    · exact hc
    · rcases List.mem_cons.mp hc with rfl | hc
      · exact List.mem_cons_of_mem _ (hquote ▸ List.mem_cons_self)
      · exact List.mem_cons_of_mem _ (List.mem_cons_of_mem _ (ih hc))
    · rcases List.mem_cons.mp hc with rfl | hc
      · exact hback ▸ List.mem_cons_self
      · exact List.mem_cons_of_mem _ (List.mem_cons_of_mem _ (ih hc))
    · rcases List.mem_cons.mp hc with rfl | hc
      · exact List.mem_cons_self
      · exact List.mem_cons_of_mem _ (ih hc)

lemma legalBody_escapeLoop {s : List UInt8} (hs : ∀ c ∈ s, 0x20 ≤ c) : LegalBody (escapeLoop s) := by
  induction s with
  | nil => exact .nil
  | cons c s ih =>
    obtain ⟨hc, hs⟩ := List.forall_mem_cons.mp hs
    have h₀ : c ≠ 0 := by
      rintro rfl
      exact absurd hc (by decide)
    rw [escapeLoop, if_neg h₀]
    split_ifs with hquote hback
    · exact .letter (by decide) (ih hs)
    · exact .letter (by decide) (ih hs)
    · exact .unescaped hc hquote hback (ih hs)

/-- **What the escaper writes is legal** exactly if there is nothing to escape but quotes and
    backslashes. -/
theorem legalLiteral_iff (s : List UInt8) :
    LegalLiteral (appendEscapedString s) ↔ ∀ c ∈ s, 0x20 ≤ c := by
  constructor
  · rintro ⟨b, htext, hb⟩ c hc
    have hbody : escapeLoop s = b := by
      simpa [appendEscapedString, literalText] using htext
    exact hb.printable c (hbody ▸ mem_escapeLoop hc)
  · intro hs
    exact ⟨escapeLoop s, rfl, legalBody_escapeLoop hs⟩

/-! ## Reading back -/

/-- What a function gets that takes the text as a C string -/
def cString (t : List UInt8) : CString where
  bytes := t.takeWhile (· ≠ 0)
  noNul h := by simpa using List.mem_takeWhile_imp h

/-- `Json::parse` of what `Json::toString` writes for a string gives the string. -/
def ReadBack (D : Type) [DoubleText D] (s : List UInt8) : Prop :=
  ∃ q : Private D, parse (cString (toString (.string s : Variant D))) .null = .ok (q, .string s)

/-- From a NUL on, the string is copied. -/
lemma escapeLoop_nul {s : List UInt8} (hs : 0 ∉ s) (t : List UInt8) :
    escapeLoop (s ++ 0 :: t) = escapeLoop s ++ 0 :: t := by
  induction s with
  | nil => rfl
  | cons c s ih =>
    simp only [List.mem_cons, not_or] at hs
    obtain ⟨h₀, hs⟩ := hs
    rw [List.cons_append, escapeLoop, escapeLoop, if_neg (Ne.symm h₀), if_neg (Ne.symm h₀), ih hs]
    split_ifs <;> rfl

lemma cString_append {t : List UInt8} (ht : 0 ∉ t) (r : List UInt8) :
    cString (t ++ 0 :: r) = ⟨t, ht⟩ := by
  have hall : ∀ c ∈ t, decide (c ≠ 0) = true := fun c hc => by
    simpa using fun h : c = 0 => ht (h ▸ hc)
  have htake : (t ++ 0 :: r).takeWhile (· ≠ 0) = t := by
    rw [List.takeWhile_append_of_pos hall, List.takeWhile_cons_of_neg (by simp), List.append_nil]
  simp only [cString, htake]

lemma cString_noNul {t : List UInt8} (ht : 0 ∉ t) : cString t = ⟨t, ht⟩ := by
  have hall : ∀ c ∈ t, c ≠ 0 := fun c hc h => ht (h ▸ hc)
  simpa [cString] using hall

variable {D : Type} [DoubleText D]

/-- A string without a NUL is read back without its line breaks. -/
lemma parse_lines {s : List UInt8} (hs : 0 ∉ s) : ∃ q : Private D,
    parse (cString (toString (.string s : Variant D))) .null =
      .ok (q, .string (s.filter fun c => !isLineBreak c)) := by
  have htext : StrictText (tokens D) (toString (.string s : Variant D))
      (.string (s.filter fun c => !isLineBreak c)) :=
    ⟨[], literalText (escapeLoop s), [ch '\n'], rfl, white_nil, .string (stringBody_lines hs),
      white_singleton rfl⟩
  obtain ⟨noNul, q, hq, -⟩ := parse_strictText tokens_byParser htext
  exact ⟨q, by rw [cString_noNul noNul, hq]⟩

/-- A literal that is not closed is an error. -/
lemma readToken_unclosed {p : Private D} {b v : List UInt8} (hb : StringBody b v)
    (hp : p.pos.pos = ch '"' :: (b ++ [0])) : IsSyntaxError (readToken p) := by
  obtain ⟨line, hread⟩ := readToken_eq .nil (by decide) hp
  obtain ⟨n, line', hstring, hn⟩ := readString_body p.start hb (List.cons_ne_nil 0 [])
    (n := (b ++ [0]).length) (by simp) [] line
  rw [List.length_append, List.length_singleton, Nat.add_sub_cancel_left] at hn
  obtain ⟨m, rfl⟩ := Nat.exists_eq_add_of_le' hn
  rw [hread, switchToken_quote, hstring]
  exact (isSyntaxError p.start _ _).bind _

/-- With a NUL, the text ends before the closing quote. -/
lemma parse_nul {s : List UInt8} (hs : 0 ∈ s) (v : Variant D) (q : Private D) :
    parse (cString (toString (.string s : Variant D))) .null ≠ .ok (q, v) := by
  obtain ⟨s₁, s₂, rfl, hs₁⟩ := List.eq_append_cons_of_mem hs
  have hbody := stringBody_lines hs₁
  have htext : toString (.string (s₁ ++ 0 :: s₂) : Variant D) =
      (ch '"' :: escapeLoop s₁) ++ 0 :: (s₂ ++ [ch '"'] ++ [ch '\n']) := by
    rw [toString, appendVariant, appendEscapedString, escapeLoop_nul hs₁]
    simp
  have noNul : 0 ∉ ch '"' :: escapeLoop s₁ := by
    have hquote : ch '"' ≠ 0 := by decide
    simpa using ⟨hquote.symm, hbody.noNul⟩
  rw [htext, cString_append noNul, parse]
  obtain ⟨line, column, error, herr⟩ := (readToken_unclosed (D := D) hbody
    (p := Private.initial ⟨ch '"' :: escapeLoop s₁, noNul⟩) rfl).bind _
  rw [herr]
  exact fun h => absurd h (by simp)

/-- **What is written is read back** exactly for the strings of one line without a NUL. -/
theorem readBack_iff (s : List UInt8) : ReadBack D s ↔ OneLine s := by
  constructor
  · rintro ⟨q, hq⟩
    have hnul : 0 ∉ s := fun h => parse_nul h _ q hq
    obtain ⟨q', hq'⟩ := parse_lines (D := D) hnul
    have hlines : s.filter (fun c => !isLineBreak c) = s := by
      have h := hq'.symm.trans hq
      simp only [Except.ok.injEq, Prod.mk.injEq, Variant.string.injEq] at h
      exact h.2
    rw [List.filter_eq_self] at hlines
    exact ⟨hnul, fun h => absurd (hlines _ h) (by decide), fun h => absurd (hlines _ h) (by decide)⟩
  · intro hs
    obtain ⟨noNul, q, hq, -⟩ := round_trip (D := D) (.string hs)
    exact ⟨q, by rw [cString_noNul noNul, hq]⟩

/-- **A string is written as a legal literal that is read back** exactly if it has no control
    character. -/
theorem escaped_iff (s : List UInt8) :
    LegalLiteral (appendEscapedString s) ∧ ReadBack D s ↔ ∀ c ∈ s, 0x20 ≤ c := by
  rw [legalLiteral_iff, readBack_iff]
  refine and_iff_left_of_imp fun hs => ⟨fun h => ?_, fun h => ?_, fun h => ?_⟩
  all_goals exact absurd (hs _ h) (by decide)

/-- A line feed is written as it is, and is not read. -/
theorem escaped_lineFeed : ¬ (LegalLiteral (appendEscapedString [ch '\n']) ∧
    ReadBack (List UInt8) [ch '\n']) := by
  rintro ⟨-, q, hq⟩
  obtain ⟨q', hq'⟩ := parse_lines (D := List UInt8) (s := [ch '\n']) (by decide)
  have hlines := hq'.symm.trans hq
  simp only [Except.ok.injEq, Prod.mk.injEq, Variant.string.injEq] at hlines
  exact absurd hlines.2 (by decide)

end Nstd.Json
