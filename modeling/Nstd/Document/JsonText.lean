import Nstd.Document.JsonComplete

/-!
# JSON texts over a choice of tokens

The grammar of JSON from the tokens on: commas stand between two elements or members and nowhere
else, and white space stands between any two tokens.  What white space, a string and another scalar
are is a parameter (`Lexis`), and so is what they stand for.

* `StrictValue`, `StrictElements`, `StrictMembers`, `StrictText` — the grammar.
* `tokens` — the tokens of the parser.
* `StrictValue.valueText` — with tokens of the parser, it is a part of what the parser reads.
* `ValueText.noNul` — no text that the parser reads has a NUL in it.
* `parse_strictText` — the parser reads a whole text of the grammar.
-/

namespace Nstd.Json

/-- The tokens of a JSON text: white space, the inside of strings with the bytes it stands for, and
    the other scalars with their values -/
structure Lexis (D : Type) where
  space : UInt8 → Prop
  body : List UInt8 → List UInt8 → Prop
  scalar : List UInt8 → Variant D → Prop

/-- White space -/
def Lexis.White {D : Type} (L : Lexis D) (w : List UInt8) : Prop := ∀ c ∈ w, L.space c

/-- The map that members stand for: the keys in the order of their first occurrence, each with its
    last value -/
def objectOf {D : Type} (ms : List (List UInt8 × Variant D)) : List (List UInt8 × Variant D) :=
  ms.foldl (fun m e => HashMap.append e.1 e.2 m) []

mutual

/-- A value -/
inductive StrictValue {D : Type} (L : Lexis D) : List UInt8 → Variant D → Prop
  | scalar {x : List UInt8} {v : Variant D} : L.scalar x v → StrictValue L x v
  | string {b v : List UInt8} : L.body b v → StrictValue L (literalText b) (.string v)
  | emptyArray {w : List UInt8} : L.White w → StrictValue L (ch '[' :: (w ++ [ch ']'])) (.list [])
  | array {x : List UInt8} {vs : List (Variant D)} : StrictElements L x vs →
      StrictValue L (ch '[' :: (x ++ [ch ']'])) (.list vs)
  | emptyObject {w : List UInt8} : L.White w → StrictValue L (ch '{' :: (w ++ [ch '}'])) (.map [])
  | object {x : List UInt8} {ms : List (List UInt8 × Variant D)} : StrictMembers L x ms →
      StrictValue L (ch '{' :: (x ++ [ch '}'])) (.map (objectOf ms))

/-- The elements of an array: one or more, with commas between them -/
inductive StrictElements {D : Type} (L : Lexis D) : List UInt8 → List (Variant D) → Prop
  | last {w x w' : List UInt8} {v : Variant D} : L.White w → StrictValue L x v → L.White w' →
      StrictElements L (w ++ x ++ w') [v]
  | more {w x w' y : List UInt8} {v : Variant D} {vs : List (Variant D)} : L.White w →
      StrictValue L x v → L.White w' → StrictElements L y vs →
      StrictElements L (w ++ x ++ w' ++ ch ',' :: y) (v :: vs)

/-- The members of an object: one or more, with commas between them -/
inductive StrictMembers {D : Type} (L : Lexis D) :
    List UInt8 → List (List UInt8 × Variant D) → Prop
  | last {w b k w₁ w₂ x w₃ : List UInt8} {v : Variant D} : L.White w → L.body b k → L.White w₁ →
      L.White w₂ → StrictValue L x v → L.White w₃ →
      StrictMembers L (w ++ literalText b ++ w₁ ++ ch ':' :: (w₂ ++ x ++ w₃)) [(k, v)]
  | more {w b k w₁ w₂ x w₃ y : List UInt8} {v : Variant D} {ms : List (List UInt8 × Variant D)} :
      L.White w → L.body b k → L.White w₁ → L.White w₂ → StrictValue L x v → L.White w₃ →
      StrictMembers L y ms →
      StrictMembers L (w ++ literalText b ++ w₁ ++ ch ':' :: (w₂ ++ x ++ w₃ ++ ch ',' :: y))
        ((k, v) :: ms)

end

/-- A whole text: a value, with white space around it -/
def StrictText {D : Type} (L : Lexis D) (t : List UInt8) (v : Variant D) : Prop :=
  ∃ w x w', t = w ++ x ++ w' ∧ L.White w ∧ StrictValue L x v ∧ L.White w'

/-- The tokens of the parser -/
def tokens (D : Type) [DoubleText D] : Lexis D where
  space c := isSpace c
  body := StringBody
  scalar x v := ∃ c, Scalar x c v

variable {D : Type} [DoubleText D]

/-- All tokens of a grammar are tokens of the parser, and stand for the same. -/
structure Lexis.ByParser (L : Lexis D) : Prop where
  space : ∀ {c : UInt8}, L.space c → isSpace c
  body : ∀ {b v : List UInt8}, L.body b v → StringBody b v
  scalar : ∀ {x : List UInt8} {v : Variant D}, L.scalar x v → ValueText x v

lemma tokens_byParser : (tokens D).ByParser := by
  refine ⟨fun h => h, fun h => h, ?_⟩
  rintro x v ⟨c, h⟩
  exact .scalar h

lemma Lexis.ByParser.white {L : Lexis D} (h : L.ByParser) {w : List UInt8} (hw : L.White w) : Space w :=
  fun c hc => h.space (hw c hc)

mutual

/-- A value of the grammar is one that the parser reads. -/
theorem StrictValue.valueText {L : Lexis D} (h : L.ByParser) {x : List UInt8} {v : Variant D} :
    StrictValue L x v → ValueText x v
  | .scalar hs => h.scalar hs
  | .string hb => .scalar (.string (h.body hb))
  | .emptyArray hw => .array (.none (h.white hw))
  | .array hx => .array (hx.elementsText h)
  | .emptyObject hw => .object (.none (h.white hw))
  | .object hx => .object (hx.membersText h)

theorem StrictElements.elementsText {L : Lexis D} (h : L.ByParser) {x : List UInt8}
    {vs : List (Variant D)} : StrictElements L x vs → ElementsText x vs
  | .last hw hx hw' => .last (h.white hw) (hx.valueText h) (h.white hw')
  | .more hw hx hw' hy => .more (h.white hw) (hx.valueText h) (h.white hw') (hy.elementsText h)

theorem StrictMembers.membersText {L : Lexis D} (h : L.ByParser) {x : List UInt8}
    {ms : List (List UInt8 × Variant D)} : StrictMembers L x ms → MembersText x ms
  | .last hw hb hw₁ hw₂ hx hw₃ => .last (h.white hw) (h.body hb) (h.white hw₁) (h.white hw₂)
      (hx.valueText h) (h.white hw₃)
  | .more hw hb hw₁ hw₂ hx hw₃ hy => .more (h.white hw) (h.body hb) (h.white hw₁) (h.white hw₂)
      (hx.valueText h) (h.white hw₃) (hy.membersText h)

end

/-! ## Texts have no NUL -/

lemma Space.noNul {w : List UInt8} (h : Space w) : 0 ∉ w :=
  fun h₀ => absurd (h 0 h₀) (by decide)

lemma HexDigits.noNul {k : List UInt8} (h : HexDigits k) : 0 ∉ k :=
  fun h₀ => absurd (h.2 0 h₀) (by decide)

lemma Escape.noNul {e b : List UInt8} (h : Escape e b) : 0 ∉ e := by
  have hletters : ∀ f ∈ simpleEscapes, f.1 ≠ 0 := forall_mem_of_all rfl
  have hu : ch 'u' ≠ 0 ∧ ch '\\' ≠ 0 := by decide
  cases h with
  | simple hmem => simpa using (hletters _ hmem).symm
  | unit hk _ => simpa using ⟨hu.1.symm, hk.noNul⟩
  | pair hk₁ _ hk₂ _ =>
    simpa using ⟨hu.1.symm, hk₁.noNul, hu.2.symm, hu.1.symm, hk₂.noNul⟩
  | other h₀ _ _ => simpa using h₀.symm

lemma StringBody.noNul {b v : List UInt8} (h : StringBody b v) : 0 ∉ b := by
  have hbreak : ch '\r' ≠ 0 ∧ ch '\n' ≠ 0 ∧ ch '\\' ≠ 0 := by decide
  induction h with
  | nil => simp
  | plain h₀ _ _ _ _ _ ih => simpa using ⟨h₀.symm, ih⟩
  | lineBreak hc _ ih =>
    rcases hc with rfl | rfl
    · simpa using ⟨hbreak.1.symm, ih⟩
    · simpa using ⟨hbreak.2.1.symm, ih⟩
  | escape he _ ih => simpa using ⟨hbreak.2.2.symm, he.noNul, ih⟩

lemma literalText_noNul {b v : List UInt8} (h : StringBody b v) : 0 ∉ literalText b := by
  have hquote : ch '"' ≠ 0 := by decide
  simpa [literalText] using ⟨hquote.symm, h.noNul, hquote.symm⟩

lemma Scalar.noNul {x : List UInt8} {c : UInt8} {v : Variant D} (h : Scalar x c v) : 0 ∉ x := by
  cases h with
  | string hb => exact literalText_noNul hb
  | true | false | null => decide
  | number _ hn => exact fun h₀ => absurd (hn 0 h₀) (by decide)

mutual

theorem ValueText.noNul {x : List UInt8} {v : Variant D} : ValueText x v → 0 ∉ x
  | .scalar hs => hs.noNul
  | .array hx => by
    have hbrackets : ch '[' ≠ 0 ∧ ch ']' ≠ 0 := by decide
    simpa using ⟨hbrackets.1.symm, hx.noNul, hbrackets.2.symm⟩
  | .object hx => by
    have hbraces : ch '{' ≠ 0 ∧ ch '}' ≠ 0 := by decide
    simpa using ⟨hbraces.1.symm, hx.noNul, hbraces.2.symm⟩

theorem ElementsText.noNul {x : List UInt8} {vs : List (Variant D)} : ElementsText x vs → 0 ∉ x
  | .none hw => hw.noNul
  | .last hw hx hw' => by simp [hw.noNul, hx.noNul, hw'.noNul]
  | .more hw hx hw' hy => by
    have hcomma : ch ',' ≠ 0 := by decide
    simp [hw.noNul, hx.noNul, hw'.noNul, hcomma.symm, hy.noNul]

theorem MembersText.noNul {x : List UInt8} {ms : List (List UInt8 × Variant D)} :
    MembersText x ms → 0 ∉ x
  | .none hw => hw.noNul
  | .last hw hb hw₁ hw₂ hx hw₃ => by
    have hcolon : ch ':' ≠ 0 := by decide
    simp [hw.noNul, literalText_noNul hb, hw₁.noNul, hcolon.symm, hw₂.noNul, hx.noNul, hw₃.noNul]
  | .more hw hb hw₁ hw₂ hx hw₃ hy => by
    have hcolon : ch ':' ≠ 0 := by decide
    have hcomma : ch ',' ≠ 0 := by decide
    simp [hw.noNul, literalText_noNul hb, hw₁.noNul, hcolon.symm, hw₂.noNul, hx.noNul, hw₃.noNul,
      hcomma.symm, hy.noNul]

end

/-- **The parser reads** a whole text of the grammar, up to the terminator. -/
theorem parse_strictText {L : Lexis D} (h : L.ByParser) {t : List UInt8} {v : Variant D}
    (ht : StrictText L t v) : ∃ (noNul : 0 ∉ t) (q : Private D),
      parse ⟨t, noNul⟩ .null = .ok (q, v) ∧ q.token.token = 0 ∧ q.pos.pos = [0] := by
  obtain ⟨w, x, w', rfl, hw, hx, hw'⟩ := ht
  have hx' := hx.valueText h
  have noNul : 0 ∉ w ++ x ++ w' := by
    simp [(h.white hw).noNul, hx'.noNul, (h.white hw').noNul]
  have hdata : (⟨w ++ x ++ w', noNul⟩ : CString).bytes = w ++ x ++ w' := rfl
  obtain ⟨q, hq, htok, hpos⟩ := parse_value hdata (h.white hw) hx' (h.white hw')
  exact ⟨noNul, q, hq, htok, hpos⟩

end Nstd.Json
