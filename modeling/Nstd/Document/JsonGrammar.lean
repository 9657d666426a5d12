import Nstd.Document.JsonParser

/-!
# The texts that the JSON parser reads

What the parser reads, said as a grammar with values.  It is the parser's own language, wider than
JSON: any white space of C, any byte after a backslash, loose numbers, and a comma before a closing
bracket.

* `StringBody`, `Escape` — the inside of a string literal and the bytes it stands for.
* `Lexeme` — one token.
* `ValueText`, `ElementsText`, `MembersText` — values, and what stands between brackets.
* `Dangling`, `CutValue`, `CutElements`, `CutMembers` — texts that end right after a backslash in a
  string literal, where everything before is read without an error.
-/

namespace Nstd.Json

/-- White space, as `skipSpace` has it -/
def Space (w : List UInt8) : Prop := ∀ c ∈ w, isSpace c

lemma Space.nil : Space [] := List.forall_mem_nil _

/-- The value of hexadecimal digits -/
def hexValue (k : List UInt8) : ℕ := k.foldl (fun w c => 16 * w + hexDigitValue c) 0

/-- Four hexadecimal digits -/
def HexDigits (k : List UInt8) : Prop := k.length = 4 ∧ ∀ c ∈ k, isHexDigit c

/-- Is a code unit the first half of a surrogate pair? -/
def isHighSurrogate (w : ℕ) : Bool := w &&& 0xF800 = 0xD800 ∧ w &&& 0xFC00 = 0xD800

/-- Is a code unit the second half of a surrogate pair? -/
def isLowSurrogate (w : ℕ) : Bool := w &&& 0xFC00 = 0xDC00

/-- The code point of a surrogate pair -/
def surrogatePair (w₁ w₂ : ℕ) : ℕ := ((w₂ &&& 0x3FF) ||| ((w₁ &&& 0x3FF) <<< 10)) + 0x10000

/-- The escapes of one letter, with what they stand for -/
def simpleEscapes : List (UInt8 × UInt8) :=
  [(ch '"', ch '"'), (ch '\\', ch '\\'), (ch '/', ch '/'), (ch 'b', 8), (ch 'f', 12), (ch 'n', 10),
    (ch 'r', 13), (ch 't', 9)]

/-- What may follow a backslash, with the bytes it stands for -/
inductive Escape : List UInt8 → List UInt8 → Prop
  | simple {c d : UInt8} : (c, d) ∈ simpleEscapes → Escape [c] [d]
  | unit {k : List UInt8} : HexDigits k → isHighSurrogate (hexValue k) = false →
      Escape (ch 'u' :: k) (Unicode.append (hexValue k))
  | pair {k₁ k₂ : List UInt8} : HexDigits k₁ → isHighSurrogate (hexValue k₁) → HexDigits k₂ →
      isLowSurrogate (hexValue k₂) → Escape (ch 'u' :: (k₁ ++ ch '\\' :: ch 'u' :: k₂))
        (Unicode.append (surrogatePair (hexValue k₁) (hexValue k₂)))
  | other {c : UInt8} : c ≠ 0 → c ≠ ch 'u' → (∀ e ∈ simpleEscapes, e.1 ≠ c) →
      Escape [c] [ch '\\', c]

/-- The inside of a string literal, with the bytes it stands for.  Line breaks are left out. -/
inductive StringBody : List UInt8 → List UInt8 → Prop
  | nil : StringBody [] []
  | plain {c : UInt8} {s v : List UInt8} : c ≠ 0 → c ≠ ch '"' → c ≠ ch '\\' → c ≠ ch '\r' →
      c ≠ ch '\n' → StringBody s v → StringBody (c :: s) (c :: v)
  | lineBreak {c : UInt8} {s v : List UInt8} : c = ch '\r' ∨ c = ch '\n' → StringBody s v →
      StringBody (c :: s) v
  | escape {e b s v : List UInt8} : Escape e b → StringBody s v →
      StringBody (ch '\\' :: (e ++ s)) (b ++ v)

/-- A string literal -/
def literalText (body : List UInt8) : List UInt8 := ch '"' :: (body ++ [ch '"'])

/-- The bytes that `readToken` takes for a part of a number -/
def isNumberByte (c : UInt8) : Bool :=
  c = ch 'E' ∨ c = ch 'e' ∨ c = ch '-' ∨ c = ch '+' ∨ isDigit c ∨ c = ch '.'

/-- Does a number begin with this byte? -/
def startsNumber (c : UInt8) : Bool := c = ch '-' ∨ isDigit c

/-- The tokens of one byte -/
def punctuation : List UInt8 := [ch '{', ch '}', ch '[', ch ']', ch ',', ch ':']

variable {D : Type} [DoubleText D]

/-- The text of a token that is a value, with the byte that `token.token` has for it -/
inductive Scalar : List UInt8 → UInt8 → Variant D → Prop
  | string {b v : List UInt8} : StringBody b v → Scalar (literalText b) (ch '"') (.string v)
  | true : Scalar (bytes "true") (ch 't') (.bool true)
  | false : Scalar (bytes "false") (ch 'f') (.bool false)
  | null : Scalar (bytes "null") (ch 'n') .null
  | number {n : List UInt8} : (∃ c ∈ n.head?, startsNumber c) → (∀ c ∈ n, isNumberByte c) →
      Scalar n (ch '#') (numberValue n (decide (ch '.' ∈ n)))

mutual

/-- A value -/
inductive ValueText : List UInt8 → Variant D → Prop
  | scalar {x : List UInt8} {c : UInt8} {v : Variant D} : Scalar x c v → ValueText x v
  | array {x : List UInt8} {vs : List (Variant D)} : ElementsText x vs →
      ValueText (ch '[' :: (x ++ [ch ']'])) (.list vs)
  | object {x : List UInt8} {ms : List (List UInt8 × Variant D)} : MembersText x ms →
      ValueText (ch '{' :: (x ++ [ch '}'])) (.map (ms.foldl (fun m e => HashMap.append e.1 e.2 m) []))

/-- What stands inside the brackets of an array, or in them after a comma -/
inductive ElementsText : List UInt8 → List (Variant D) → Prop
  | none {w : List UInt8} : Space w → ElementsText w []
  | last {w x w' : List UInt8} {v : Variant D} : Space w → ValueText x v → Space w' →
      ElementsText (w ++ x ++ w') [v]
  | more {w x w' y : List UInt8} {v : Variant D} {vs : List (Variant D)} : Space w →
      ValueText x v → Space w' → ElementsText y vs →
      ElementsText (w ++ x ++ w' ++ ch ',' :: y) (v :: vs)

/-- What stands inside the braces of an object, or in them after a comma -/
inductive MembersText : List UInt8 → List (List UInt8 × Variant D) → Prop
  | none {w : List UInt8} : Space w → MembersText w []
  | last {w b k w₁ w₂ x w₃ : List UInt8} {v : Variant D} : Space w → StringBody b k → Space w₁ →
      Space w₂ → ValueText x v → Space w₃ →
      MembersText (w ++ literalText b ++ w₁ ++ ch ':' :: (w₂ ++ x ++ w₃)) [(k, v)]
  | more {w b k w₁ w₂ x w₃ y : List UInt8} {v : Variant D} {ms : List (List UInt8 × Variant D)} :
      Space w → StringBody b k → Space w₁ → Space w₂ → ValueText x v → Space w₃ →
      MembersText y ms →
      MembersText (w ++ literalText b ++ w₁ ++ ch ':' :: (w₂ ++ x ++ w₃ ++ ch ',' :: y))
        ((k, v) :: ms)

end

/-- White space, and a string literal that ends right after a backslash -/
def Dangling (t : List UInt8) : Prop :=
  ∃ w b v, t = w ++ ch '"' :: (b ++ [ch '\\']) ∧ Space w ∧ StringBody b v

variable (D)

mutual

/-- A text that is cut off after a backslash, in a value or in the token after it -/
inductive CutValue : List UInt8 → Prop
  | token {t : List UInt8} : Dangling t → CutValue t
  | after {w x t : List UInt8} {v : Variant D} : Space w → ValueText x v → Dangling t →
      CutValue (w ++ x ++ t)
  | array {w t : List UInt8} : Space w → CutElements t → CutValue (w ++ ch '[' :: t)
  | object {w t : List UInt8} : Space w → CutMembers t → CutValue (w ++ ch '{' :: t)

/-- A text that is cut off after a backslash, inside the brackets of an array -/
inductive CutElements : List UInt8 → Prop
  | value {t : List UInt8} : CutValue t → CutElements t
  | next {w x w' t : List UInt8} {v : Variant D} : Space w → ValueText x v → Space w' →
      CutElements t → CutElements (w ++ x ++ w' ++ ch ',' :: t)

/-- A text that is cut off after a backslash, inside the braces of an object -/
inductive CutMembers : List UInt8 → Prop
  | key {t : List UInt8} : Dangling t → CutMembers t
  | colon {w b k t : List UInt8} : Space w → StringBody b k → Dangling t →
      CutMembers (w ++ literalText b ++ t)
  | value {w b k w₁ t : List UInt8} : Space w → StringBody b k → Space w₁ → CutValue t →
      CutMembers (w ++ literalText b ++ w₁ ++ ch ':' :: t)
  | next {w b k w₁ w₂ x w₃ t : List UInt8} {v : Variant D} : Space w → StringBody b k → Space w₁ →
      Space w₂ → ValueText x v → Space w₃ → CutMembers t →
      CutMembers (w ++ literalText b ++ w₁ ++ ch ':' :: (w₂ ++ x ++ w₃ ++ ch ',' :: t))

end

end Nstd.Json
