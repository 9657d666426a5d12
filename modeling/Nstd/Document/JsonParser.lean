import Nstd.Core.Unicode
import Nstd.Document.Variant

/-!
# The JSON parser

`Json::Private`, function by function.  A read position is the rest of the text together with the
terminator, so that the terminator is the last byte there is and the empty list is a position past
it: reading there is a failure of its own, `overrun`, next to the syntax errors of the source.

* `readToken` and what it is made of: `skipSpace`, `readString`, `readEscape`, `readUnicode`,
  `readNumber`.
* `parseValue`, `parseArray`, `parseObject` — the recursion.  The loops over elements and members
  are `parseElements` and `parseMembers`; the first argument bounds the number of calls inside
  each other.
* `parse` — `Json::Private::parse`.
-/

namespace Nstd.Json

/-- `Position`, as the rest of the text; `line` is an `int` that wraps -/
structure Position where
  line : Int32
  pos : List UInt8

/-- How parsing fails: with an error of the source, by reading past the terminator, or (which does
    not happen) by running out of calls -/
inductive Failure
  | syntaxError (line : Int32) (column : ℕ) (error : String)
  | overrun
  | outOfCalls

/-- `Token` -/
structure Token (D : Type) where
  token : UInt8
  value : Variant D
  pos : Position

/-- `Json::Private` -/
structure Private (D : Type) where
  token : Token D
  start : List UInt8
  pos : Position

/-- The column of a position: one more than the number of bytes back to a line break -/
def column (start pos : List UInt8) : ℕ :=
  let before := start.take (start.length - pos.length)
  1 + (before.reverse.takeWhile fun c => c ≠ ch '\n' ∧ c ≠ ch '\r').length

/-- `syntaxError(pos, error)`, and `return false` -/
def syntaxError {α : Type} (start : List UInt8) (pos : Position) (error : String) : Except Failure α :=
  .error (.syntaxError pos.line (column start pos.pos) error)

/-- `skipSpace` -/
def skipSpace (line : Int32) : List UInt8 → Except Failure Position
  | [] => .error .overrun
  | c :: s =>
    if c = ch '\r' then
      match s with
      | [] => .error .overrun
      | d :: s' => if d = ch '\n' then skipSpace (line + 1) s' else skipSpace (line + 1) (d :: s')
    else if c = ch '\n' then skipSpace (line + 1) s
    else if isSpace c then skipSpace line s
    else .ok ⟨line, c :: s⟩

/-- `String::compare(s, literal, n) == 0` with `n` the length of the literal -/
def compareLiteral : List UInt8 → List UInt8 → Except Failure Bool
  | _, [] => .ok true
  | [], _ :: _ => .error .overrun
  | c :: s, d :: literal => if c = 0 ∨ c ≠ d then .ok false else compareLiteral s literal

/-- The loop over four hexadecimal digits: what is read, and the position after it -/
def readHexDigits (start : List UInt8) : ℕ → Position → Except Failure (List UInt8 × Position)
  | 0, p => .ok ([], p)
  | i + 1, p =>
    match p.pos with
    | [] => .error .overrun
    | c :: s =>
      if isHexDigit c then do
        let (k, q) ← readHexDigits start i { p with pos := s }
        .ok (c :: k, q)
      else syntaxError start p "Expected hexadecimal digit"

/-- The value of a hexadecimal digit -/
def hexDigitValue (c : UInt8) : ℕ :=
  if isDigit c then c.toNat - (ch '0').toNat
  else if ch 'a' ≤ c then c.toNat - (ch 'a').toNat + 10
  else c.toNat - (ch 'A').toNat + 10

/-- `k.scanf("%x", &w)`, or nothing if it does not return 1 -/
def scanHex (k : List UInt8) : Option ℕ :=
  let digits := k.takeWhile isHexDigit
  if digits = [] then none else some (digits.foldl (fun w c => 16 * w + hexDigitValue c) 0)

/-- The escape `\u`, from its digits on: the bytes appended to the value -/
def readUnicode (start : List UInt8) (p : Position) : Except Failure (List UInt8 × Position) := do
  let (k, p₁) ← readHexDigits start 4 p
  match scanHex k with
  | none => syntaxError start p "Expected hexadecimal number"
  | some w₁ =>
    if w₁ &&& 0xF800 = 0xD800 ∧ w₁ &&& 0xFC00 = 0xD800 then
      match p₁.pos with
      | [] => .error .overrun
      | [c] =>
        if c ≠ ch '\\' then syntaxError start p₁ "Expected UTF-8 surrogate pair"
        else .error .overrun
      | c :: d :: s =>
        if c ≠ ch '\\' ∨ d ≠ ch 'u' then syntaxError start p₁ "Expected UTF-8 surrogate pair"
        else do
          let p₂ : Position := { p₁ with pos := s }
          let (k, p₃) ← readHexDigits start 4 p₂
          match scanHex k with
          | none => syntaxError start p₂ "Expected hexadecimal number"
          | some w₂ =>
            if w₂ &&& 0xFC00 ≠ 0xDC00 then
              syntaxError start p₁ "Expected UTF-8 surrogate pair"
            else
              .ok (Unicode.append (((w₂ &&& 0x3FF) ||| ((w₁ &&& 0x3FF) <<< 10)) + 0x10000), p₃)
    else .ok (Unicode.append w₁, p₁)

/-- An escape, from the byte after the backslash on: the bytes appended to the value -/
def readEscape (start : List UInt8) (p : Position) : Except Failure (List UInt8 × Position) :=
  match p.pos with
  | [] => .error .overrun
  | c :: s =>
    let q : Position := { p with pos := s }
    if c = ch '"' ∨ c = ch '\\' ∨ c = ch '/' then .ok ([c], q)
    else if c = ch 'b' then .ok ([8], q)
    else if c = ch 'f' then .ok ([12], q)
    else if c = ch 'n' then .ok ([10], q)
    else if c = ch 'r' then .ok ([13], q)
    else if c = ch 't' then .ok ([9], q)
    else if c = ch 'u' then readUnicode start q
    else .ok ([ch '\\', c], q)

/-- The loop of `readToken` inside a string, after the opening quote.  The first argument bounds
    the number of rounds. -/
def readString (start : List UInt8) :
    ℕ → Position → List UInt8 → Except Failure (List UInt8 × Position)
  | 0, _, _ => .error .outOfCalls
  | n + 1, p, value =>
    match p.pos with
    | [] => .error .overrun
    | c :: s =>
      if c = 0 then syntaxError start p "Unexpected end of file"
      else if c = ch '\r' then
        match s with
        | [] => .error .overrun
        | d :: s' =>
          readString start n ⟨p.line + 1, if d = ch '\n' then s' else s⟩ value
      else if c = ch '\n' then readString start n ⟨p.line + 1, s⟩ value
      else if c = ch '\\' then do
        let (v, q) ← readEscape start { p with pos := s }
        readString start n q (value ++ v)
      else if c = ch '"' then .ok (value, { p with pos := s })
      else readString start n { p with pos := s } (value ++ [c])

/-- The loop over the bytes of a number: the bytes, whether there is a point, and the rest -/
def readNumber : List UInt8 → Except Failure (List UInt8 × Bool × List UInt8)
  | [] => .error .overrun
  | c :: s =>
    if c = ch 'E' ∨ c = ch 'e' ∨ c = ch '-' ∨ c = ch '+' ∨ isDigit c then do
      let (n, isDouble, rest) ← readNumber s
      .ok (c :: n, isDouble, rest)
    else if c = ch '.' then do
      let (n, _, rest) ← readNumber s
      .ok (c :: n, true, rest)
    else .ok ([], false, c :: s)

variable {D : Type} [DoubleText D]

/-- The value of a number token -/
def numberValue (n : List UInt8) (isDouble : Bool) : Variant D :=
  if isDouble then .double (DoubleText.toDouble n)
  else
    let result := toInt64 n
    let resultInt := result.toInt32
    if resultInt.toInt64 = result then .int resultInt else .int64 result

/-- The `switch` of `readToken`, at the first byte of the token -/
def switchToken (p : Private D) (pos : Position) : Except Failure (Private D) :=
  match pos.pos with
  | [] => .error .overrun
  | c :: s =>
    let token : Token D := { p.token with token := c, pos := pos }
    if c = 0 then .ok { p with token, pos }
    else if c = ch '{' ∨ c = ch '}' ∨ c = ch '[' ∨ c = ch ']' ∨ c = ch ',' ∨ c = ch ':' then
      .ok { p with token, pos := { pos with pos := s } }
    else if c = ch '"' then do
      let (value, q) ← readString p.start s.length { pos with pos := s } []
      .ok { p with token := { token with value := .string value }, pos := q }
    else if c = ch 't' then do
      let same ← compareLiteral pos.pos (bytes "true")
      if same then
        .ok { p with token := { token with value := .bool true }
                     pos := { pos with pos := pos.pos.drop 4 } }
      else syntaxError p.start pos "Expected character"
    else if c = ch 'f' then do
      let same ← compareLiteral pos.pos (bytes "false")
      if same then
        .ok { p with token := { token with value := .bool false }
                     pos := { pos with pos := pos.pos.drop 5 } }
      else syntaxError p.start pos "Expected character"
    else if c = ch 'n' then do
      let same ← compareLiteral pos.pos (bytes "null")
      if same then
        .ok { p with token := { token with value := .null }
                     pos := { pos with pos := pos.pos.drop 4 } }
      else syntaxError p.start pos "Expected character"
    else if c = ch '-' ∨ isDigit c then do
      let (n, isDouble, rest) ← readNumber pos.pos
      .ok { p with token := { token with token := ch '#', value := numberValue n isDouble }
                   pos := { pos with pos := rest } }
    else syntaxError p.start pos "Expected character"

/-- `readToken` -/
def readToken (p : Private D) : Except Failure (Private D) := do
  let pos ← skipSpace p.pos.line p.pos.pos
  switchToken p pos

mutual

/-- `parseValue` -/
def parseValue : ℕ → Private D → Variant D → Except Failure (Private D × Variant D)
  | 0, _, _ => .error .outOfCalls
  | n + 1, p, result =>
    let t := p.token.token
    if t = ch '"' ∨ t = ch '#' ∨ t = ch 't' ∨ t = ch 'f' ∨ t = ch 'n' then do
      let q ← readToken p
      .ok (q, p.token.value)
    else if t = ch '[' then parseArray n p result
    else if t = ch '{' then parseObject n p result
    else syntaxError p.start p.pos "Unexpected character"

/-- `parseArray` -/
def parseArray : ℕ → Private D → Variant D → Except Failure (Private D × Variant D)
  | 0, _, _ => .error .outOfCalls
  | n + 1, p, result =>
    if p.token.token ≠ ch '[' then syntaxError p.start p.pos "Expected '['"
    else do
      let p ← readToken p
      let (p, list) ← parseElements n p result.toList
      let p ← readToken p
      .ok (p, .list list)

/-- The loop of `parseArray`, up to the closing bracket -/
def parseElements :
    ℕ → Private D → List (Variant D) → Except Failure (Private D × List (Variant D))
  | 0, _, _ => .error .outOfCalls
  | n + 1, p, list =>
    if p.token.token = ch ']' then .ok (p, list)
    else do
      let (p, v) ← parseValue n p .null
      if p.token.token = ch ']' then .ok (p, list ++ [v])
      else if p.token.token ≠ ch ',' then syntaxError p.start p.pos "Expected ','"
      else do
        let p ← readToken p
        parseElements n p (list ++ [v])

/-- `parseObject` -/
def parseObject : ℕ → Private D → Variant D → Except Failure (Private D × Variant D)
  | 0, _, _ => .error .outOfCalls
  | n + 1, p, result =>
    if p.token.token ≠ ch '{' then syntaxError p.start p.pos "Expected '\x7b'"
    else do
      let p ← readToken p
      let (p, object) ← parseMembers n p result.toMap
      let p ← readToken p
      .ok (p, .map object)

/-- The loop of `parseObject`, up to the closing brace -/
def parseMembers : ℕ → Private D → List (List UInt8 × Variant D) →
    Except Failure (Private D × List (List UInt8 × Variant D))
  | 0, _, _ => .error .outOfCalls
  | n + 1, p, object =>
    if p.token.token = ch '}' then .ok (p, object)
    else if p.token.token ≠ ch '"' then syntaxError p.start p.pos "Expected '\"'"
    else do
      let key := p.token.value.toString
      let p ← readToken p
      if p.token.token ≠ ch ':' then syntaxError p.start p.pos "Expected ':'"
      else do
        let p ← readToken p
        let (p, v) ← parseValue n p .null
        let object := HashMap.append key v object
        if p.token.token = ch '}' then .ok (p, object)
        else if p.token.token ≠ ch ',' then syntaxError p.start p.pos "Expected ','"
        else do
          let p ← readToken p
          parseMembers n p object

end

/-- The parser before the first token -/
def Private.initial (data : CString) : Private D :=
  let pos : Position := ⟨1, data.bytes ++ [0]⟩
  { token := { token := 0, value := .null, pos := pos }, start := data.bytes ++ [0], pos }

/-- `Json::Private::parse`, with the parser as it is after it -/
def parse (data : CString) (result : Variant D) : Except Failure (Private D × Variant D) := do
  let p ← readToken (Private.initial data)
  parseValue (3 * data.bytes.length + 1) p result

end Nstd.Json
